import Duda.Router
import Duda.Segments

/-!
# What the two splitting loops compute

Both loops terminate and yield the non-empty segments between slashes, the URI
loop the first 32 of them. The pattern loop is followed from any position, the
URI loop from the slash that opened the current field.
-/

set_option autoImplicit false

namespace Duda.RouterParse
open Duda.CString Duda.MonkeyString Duda.Router Duda.Segments

def line (t : List UInt8) : StringLine := ⟨t,t.length⟩

def uriTexts (uri : ℕ → UInt8) (ruri : List UriField) : List (List UInt8) :=
  ruri.map (fun u => slice (offset uri u.name) u.name_len)

theorem cstr_after (pre r : List UInt8) : offset (cstr (pre++r)) pre.length = cstr r := by
  funext i
  simp [offset, cstr, List.getElem?_append]

variable (mk : MkString) (uri : ℕ → UInt8)

theorem copy_piece (pre t post : List UInt8) :
    mk.copySubstr (cstr (pre++(t++post))) pre.length (pre.length+t.length:ℕ) = t := by
  rw [mk.copySubstr_slice _ _ _ (by omega), Nat.add_sub_cancel_left, cstr_layout]
  exact slice_layout pre t post _

theorem search_absent (r : List UInt8) (h : slash ∉ r) :
    mk.charSearch (cstr r) slash r.length = -1 := by
  apply mk.charSearch_absent
  intro j hj he
  have hget : cstr r j = r[j] := by simp [cstr, hj]
  exact h (he ▸ hget ▸ List.getElem_mem hj)

theorem search_found (t post : List UInt8) (h : slash ∉ t) :
    mk.charSearch (cstr (t++slash::post)) slash (t++slash::post).length = t.length := by
  apply mk.charSearch_found
  · simp
  · simp [cstr]
  · intro j hj he
    have hget : cstr (t++slash::post) j = t[j] := by simp [cstr, List.getElem?_append, hj]
    exact h (he ▸ hget ▸ List.getElem_mem hj)

theorem splitLoop_end (s : List UInt8) (fuel i : ℕ) (list : List StringLine) (hf : 0 < fuel)
    (hi : s.length ≤ i) : splitLoop mk (cstr s) s.length fuel i list = some list := by
  cases fuel with
  | zero => omega
  | succ fuel => simp only [splitLoop_succ, if_neg (not_lt.mpr hi)]

theorem splitLoop_spec (fuel : ℕ) (pre r : List UInt8) (list : List StringLine)
    (hf : r.length < fuel) :
    splitLoop mk (cstr (pre++r)) (pre++r).length fuel pre.length list =
      some (list++(segments slash r).map line) := by
  induction fuel generalizing pre r list with
  | zero => omega
  | succ fuel ih =>
    by_cases hr : r = []
    · subst hr
      rw [splitLoop_end mk _ _ _ _ (by omega) (by simp)]
      simp [segments]
    · have hlt : pre.length < (pre++r).length := by
        have := List.length_pos_of_ne_nil hr
        simp only [List.length_append]
        omega
      have hlen : (pre++r).length-pre.length = r.length := by simp
      simp only [splitLoop_succ, if_pos hlt, hlen, cstr_after]
      by_cases hm : slash ∈ r
      · obtain ⟨t,post,rfl,ht⟩ := List.eq_append_cons_of_mem hm
        rw [search_found mk t post ht]
        have hstop : ((t.length:ℤ)+pre.length).toNat = pre.length+t.length := by omega
        have hin : (0:ℤ) ≤ t.length ∧ (t.length:ℤ)+pre.length <
            ((pre++(t++slash::post)).length:ℕ) := by
          simp only [List.length_append, List.length_cons]
          omega
        rw [if_pos hin, hstop]
        by_cases hnil : t = []
        · subst hnil
          have := ih (pre++[slash]) post list (by simp at hf; omega)
          simpa [segments_sep] using this
        · have hpos := List.length_pos_of_ne_nil hnil
          rw [if_neg (by omega), copy_piece, Nat.add_sub_cancel_left,
            segments_clean_append slash t post ht]
          have := ih (pre++t++[slash]) post (list++[line t]) (by simp at hf; omega)
          simpa [keep, hnil, line, Nat.add_assoc] using this
      · rw [search_absent mk r hm, if_neg (by omega), splitLoop_end mk _ _ _ _
          (by have := List.length_pos_of_ne_nil hr; omega) (by simp), segments_clean slash r hm]
        have := copy_piece mk pre r []
        simp only [List.append_nil, ← List.length_append] at this
        rw [this]
        simp [keep, hr, line]

theorem splitPattern_spec (s : List UInt8) :
    routerSplitPattern mk s = some ((segments slash s).map line) := by
  have := splitLoop_spec mk (s.length+1) [] s [] (by omega)
  simpa [routerSplitPattern] using this

theorem take_take_append {α : Type*} (n : ℕ) (xs ys : List α) :
    (xs.take n++ys).take n = (xs++ys).take n := by
  by_cases h : xs.length ≤ n
  · rw [List.take_of_length_le h]
  · have hlen : (xs.take n).length = n := List.length_take_of_le (by omega)
    rw [List.take_append_of_le_length hlen.ge, List.take_append_of_le_length (by omega),
      List.take_take, min_self]

theorem uriAdd_texts (ruri : List UriField) (buf size : ℕ) (h : ruri.length ≤ routerUriMax) :
    uriTexts uri (uriAdd ruri buf size) =
        (uriTexts uri ruri++[slice (offset uri buf) size]).take routerUriMax ∧
      (uriAdd ruri buf size).length ≤ routerUriMax := by
  by_cases hfull : routerUriMax ≤ ruri.length
  · have he : ruri.length = routerUriMax := le_antisymm h hfull
    have hlen : (uriTexts uri ruri).length = routerUriMax := by rw [uriTexts, List.length_map, he]
    rw [uriAdd, if_pos hfull, ← hlen, List.take_left]
    exact ⟨rfl,by rw [hlen, he]⟩
  · rw [uriAdd, if_neg hfull, List.take_of_length_le]
    · exact ⟨by simp [uriTexts],by simp; omega⟩
    · simp [uriTexts]
      omega

theorem layout_at (pre post : List UInt8) (c : UInt8) (rest : ℕ → UInt8) :
    layout (pre++c::post) rest pre.length = c := by
  simp [layout]

/-- The fields after the one from `start` on, of length `n`, is closed. -/
def closed (ruri : List UriField) (start n : ℕ) : List UriField :=
  if (n:ℤ) ≤ 0 then ruri else uriAdd ruri (start+1) n

theorem step_other (i start stop : ℤ) (ruri : List UriField) (h : uri i.toNat ≠ slash) :
    uriStep uri ⟨i,start,stop,ruri⟩ = ⟨i+1,start,stop,ruri⟩ := by
  simp only [uriStep, if_pos h]

theorem step_open (i : ℤ) (ruri : List UriField) (h : uri i.toNat = slash) :
    uriStep uri ⟨i,-1,-1,ruri⟩ = ⟨i+1,i,-1,ruri⟩ := by
  simp only [uriStep, h, ne_eq, not_true_eq_false, if_false, if_true]

theorem step_close (start n : ℕ) (ruri : List UriField) (h : uri (start+1+n) = slash) :
    uriStep uri ⟨(start+1+n:ℕ),start,-1,ruri⟩ =
      ⟨(start+1+n:ℕ),-1,-1,closed ruri start n⟩ := by
  have hstart : ¬(start:ℤ) = -1 := by omega
  have hsize : ((start+1+n:ℕ):ℤ)-start-1 = n := by omega
  have hback : ((start+1+n:ℕ):ℤ)-1+1 = (start+1+n:ℕ) := by omega
  have hbuf : ((start:ℤ)+1).toNat = start+1 := by omega
  simp only [uriStep, Int.toNat_natCast, h, ne_eq, not_true_eq_false, if_false, if_neg hstart,
    if_true, hsize, hback, hbuf, closed]
  split_ifs <;> rfl

theorem tail_close (len start n : ℕ) (i : ℤ) (ruri : List UriField) (h : len = start+1+n) :
    uriTail len ⟨i,start,-1,ruri⟩ = closed ruri start n := by
  have hopen : (0:ℤ) ≤ start := by omega
  have hsize : (len:ℤ)-start-1 = n := by omega
  have hbuf : ((start:ℤ)+1).toNat = start+1 := by omega
  simp only [uriTail, hopen, true_and, if_true, hsize, hbuf, Int.toNat_natCast, closed]
  by_cases hpos : (0:ℤ) < n
  · rw [if_pos hpos, if_neg (not_le.mpr hpos)]
  · rw [if_neg hpos, if_pos (not_lt.mp hpos)]

theorem closed_texts (pre cur post : List UInt8) (rest : ℕ → UInt8) (ruri : List UriField)
    (h : ruri.length ≤ routerUriMax) :
    let uri := layout (pre++slash::(cur++post)) rest
    uriTexts uri (closed ruri pre.length cur.length) =
        (uriTexts uri ruri++keep cur).take routerUriMax ∧
      (closed ruri pre.length cur.length).length ≤ routerUriMax := by
  intro uri
  by_cases hnil : cur = []
  · have hclosed : closed ruri pre.length cur.length = ruri := by simp [closed, hnil]
    rw [hclosed, hnil]
    refine ⟨?_,h⟩
    rw [List.take_of_length_le (by simpa [keep, uriTexts] using h)]
    simp [keep]
  · have hpos := List.length_pos_of_ne_nil hnil
    have hclosed : closed ruri pre.length cur.length = uriAdd ruri (pre.length+1) cur.length :=
      if_neg (by omega)
    have hs := slice_layout (pre++[slash]) cur post rest
    have huri : layout (pre++[slash]++(cur++post)) rest = uri := by simp [uri]
    rw [huri, List.length_append, List.length_singleton] at hs
    have hadd := uriAdd_texts uri ruri (pre.length+1) cur.length h
    rw [hs] at hadd
    rw [hclosed, keep, if_neg hnil]
    exact hadd

theorem uriLoop_step (len fuel : ℕ) (s : Scan) (h : s.i < len) :
    uriLoop uri len (fuel+1) s = uriLoop uri len fuel (uriStep uri s) := by
  simp only [uriLoop, if_pos h]

/-- A closing slash takes two rounds: one closes the field, one opens the next. -/
theorem uriLoop_slash (len fuel start n : ℕ) (ruri : List UriField)
    (hin : ((start+1+n:ℕ):ℤ) < len) (h : uri (start+1+n) = slash) :
    uriLoop uri len (fuel+2) ⟨(start+1+n:ℕ),start,-1,ruri⟩ =
      uriLoop uri len fuel
        ⟨(start+1+n:ℕ)+1,(start+1+n:ℕ),-1,closed ruri start n⟩ := by
  rw [uriLoop_step _ _ _ _ hin, step_close _ _ _ _ h, uriLoop_step _ _ _ _ hin,
    step_open _ _ _ (by rw [Int.toNat_natCast, h])]

theorem layout_next (pre cur post : List UInt8) (c : UInt8) (rest : ℕ → UInt8) :
    layout (pre++slash::(cur++c::post)) rest (pre.length+1+cur.length) = c := by
  have htext : pre++slash::(cur++c::post) = (pre++slash::cur)++c::post := by simp
  have hpos : pre.length+1+cur.length = (pre++slash::cur).length := by
    simp only [List.length_append, List.length_cons]
    omega
  rw [htext, hpos, layout_at]

/-- From an open field the loop ends with the fields stored so far and the
segments of what is left, cut at the size of the table. -/
theorem uriLoop_spec (post : List UInt8) (rest : ℕ → UInt8) (pre cur : List UInt8)
    (ruri : List UriField) (fuel : ℕ) (hcur : slash ∉ cur) (hr : ruri.length ≤ routerUriMax)
    (s : List UInt8) (hs : s = pre++slash::(cur++post)) (hf : 2*post.length < fuel) :
    ∃ scan, uriLoop (layout s rest) s.length fuel
        ⟨(pre.length+1+cur.length:ℕ),pre.length,-1,ruri⟩ = some scan ∧
      uriTexts (layout s rest) (uriTail s.length scan) =
        (uriTexts (layout s rest) ruri++segments slash (cur++post)).take routerUriMax := by
  have hlen : s.length = pre.length+1+cur.length+post.length := by
    simp only [hs, List.length_append, List.length_cons]
    omega
  induction post generalizing pre cur ruri fuel with
  | nil =>
    obtain ⟨fuel,rfl⟩ := Nat.exists_eq_succ_of_ne_zero (by omega : fuel ≠ 0)
    have hstop : ¬((pre.length+1+cur.length:ℕ):ℤ) < s.length := by
      simp only [hlen, List.length_nil]
      omega
    refine ⟨_,by simp only [uriLoop, if_neg hstop]; rfl,?_⟩
    have hclosed := closed_texts pre cur [] rest ruri hr
    rw [← hs] at hclosed
    rw [List.append_nil, segments_clean slash cur hcur, ← hclosed.1, tail_close]
    exact hlen
  | cons c post ih =>
    have hin : ((pre.length+1+cur.length:ℕ):ℤ) < s.length := by
      simp only [hlen, List.length_cons]
      omega
    have hget : layout s rest (pre.length+1+cur.length) = c := by
      rw [hs, layout_next]
    by_cases hc : c = slash
    · obtain ⟨fuel,rfl⟩ := Nat.exists_eq_add_of_le' (by simp at hf; omega : 2 ≤ fuel)
      rw [uriLoop_slash _ _ _ _ _ _ hin (hget.trans hc)]
      have hclosed := closed_texts pre cur (c::post) rest ruri hr
      rw [← hs] at hclosed
      have hlen' : (pre++slash::cur).length = pre.length+1+cur.length := by
        simp only [List.length_append, List.length_cons]
        omega
      obtain ⟨scan,hscan,htexts⟩ := ih (pre++slash::cur) [] _ fuel (by simp) hclosed.2
        (by simp [hs, hc]) (by simp at hf; omega)
        (by simp only [hlen', hlen, List.length_cons, List.length_nil]; omega)
      refine ⟨scan,?_,?_⟩
      · rw [← hscan, hlen']
        rfl
      · rw [htexts, hclosed.1, take_take_append, hc, segments_clean_append slash cur post hcur,
          List.append_assoc, List.nil_append]
    · obtain ⟨fuel,rfl⟩ := Nat.exists_eq_succ_of_ne_zero (by omega : fuel ≠ 0)
      rw [uriLoop_step _ _ _ _ hin, step_other _ _ _ _ _
        (by rw [Int.toNat_natCast, hget]; exact hc)]
      have hcur' : slash ∉ cur++[c] := by
        simp only [List.mem_append, List.mem_singleton, not_or]
        exact ⟨hcur,fun h => hc h.symm⟩
      obtain ⟨scan,hscan,htexts⟩ := ih pre (cur++[c]) ruri fuel hcur' hr (by simp [hs])
        (by simp at hf; omega) (by simp [hlen]; omega)
      refine ⟨scan,?_,?_⟩
      · rw [← hscan]
        simp [add_assoc]
      · rw [htexts]
        simp

/-- The URI loop yields the first 32 segments of a text that starts with a
slash, whatever follows the text in memory. -/
theorem uriParse_spec (r : List UInt8) (rest : ℕ → UInt8) :
    ∃ ruri, routerUriParse (layout (slash::r) rest) (slash::r).length = some ruri ∧
      uriTexts (layout (slash::r) rest) ruri =
        (segments slash (slash::r)).take routerUriMax := by
  have hget : layout (slash::r) rest (0:ℤ).toNat = slash := rfl
  obtain ⟨scan,hscan,htexts⟩ := uriLoop_spec r rest [] [] [] (2*r.length+2) (by simp) (by simp)
    (slash::r) rfl (by omega)
  refine ⟨_,?_,htexts.trans (by simp [uriTexts, segments_sep])⟩
  have hfuel : 2*(slash::r).length+1 = 2*r.length+2+1 := by
    simp only [List.length_cons]
    omega
  have hin : (0:ℤ) < ((slash::r).length:ℕ) := by
    simp only [List.length_cons]
    omega
  rw [routerUriParse, hfuel, uriLoop_step _ _ _ _ hin, step_open _ _ _ hget]
  simp only [List.length_nil] at hscan
  simp only [Option.map_eq_some_iff]
  exact ⟨scan,hscan,rfl⟩

end Duda.RouterParse
