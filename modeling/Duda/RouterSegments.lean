import Duda.MachineInt
import Duda.RouterRoundTrip

/-!
# The two splitting loops on texts of any length

The pattern loop counts in `unsigned int` and receives positions as `int`, the
URI loop counts in `int`. Below 2^31 bytes the conversions change nothing and
both loops yield the segments of the text. The length of a longer URI is cut to
an `int` before the loop starts.
-/

set_option autoImplicit false

namespace Duda.RouterSegments
open Duda.CString Duda.MachineInt Duda.MonkeyString Duda.Router Duda.RouterParse Duda.Segments

/-- The loop of `router_split_pattern`, with its machine integers. -/
def splitLoopInt (mk : MkString) : (ℕ → UInt8) → ℕ → ℕ → ℕ → List StringLine →
    Option (List StringLine) :=
  splitLoopWith i32 u32 mk

/-- `router_split_pattern`. -/
def splitPattern (mk : MkString) (pattern : List UInt8) : Option (List StringLine) :=
  splitLoopInt mk (cstr pattern) (u32 pattern.length) (pattern.length+1) 0 []

/-- `duda_router_uri_parse`: the length goes into an `int`, and with a negative
one the loop visits nothing. -/
def uriParse (uri : ℕ → UInt8) (len : ℕ) : Option (List UriField) :=
  routerUriParse uri (i32 len).toNat

/-- The part of a URI that the loop visits. -/
def visited (s : List UInt8) : List UInt8 := s.take (i32 s.length).toNat

/-- Below 2^31 bytes the conversions of the pattern loop change nothing. -/
theorem splitLoopInt_eq (mk : MkString) (pattern : ℕ → UInt8) (len : ℕ) (hlen : len < 2^31)
    (fuel i : ℕ) (list : List StringLine) :
    splitLoopInt mk pattern len fuel i list = splitLoop mk pattern len fuel i list := by
  induction fuel generalizing i list with
  | zero => rfl
  | succ fuel ih =>
    by_cases hi : i < len
    · have hrest : i32 ((len:ℤ)-i) = ((len-i:ℕ):ℤ) := by
        rw [← Nat.cast_sub hi.le, i32_natCast _ (by omega)]
      have hpos : i32 (i:ℤ) = i := i32_natCast i (by omega)
      have hend : i32 (len:ℤ) = len := i32_natCast len hlen
      have hlast : u32 ((len:ℤ)-i) = len-i := by
        rw [← Nat.cast_sub hi.le, u32_natCast _ (by omega)]
      have hover : u32 ((len:ℤ)+1) = len+1 := by
        rw [← Nat.cast_succ, u32_natCast _ (by omega)]
      rw [splitLoop_succ, splitLoopInt, splitLoopWith]
      simp only [if_pos hi, hrest, hpos, hend, hlast, hover]
      rcases charSearch_range mk (offset pattern i) slash (len-i) with hf | ⟨k,hk,hf⟩
      · simp only [hf, show ¬(0:ℤ) ≤ -1 by omega, false_and, if_false, ← ih]
        rfl
      · have hstop : (k:ℤ)+i = ((k+i:ℕ):ℤ) := by omega
        have hnext : u32 (((k+i:ℕ):ℤ)+1) = k+i+1 := by
          rw [← Nat.cast_succ, u32_natCast _ (by omega)]
        have hval : u32 (((k+i:ℕ):ℤ)-i) = k+i-i := by
          rw [← Nat.cast_sub (by omega), u32_natCast _ (by omega)]
        have hstep : u32 ((i:ℤ)+1) = i+1 := by
          rw [← Nat.cast_succ, u32_natCast _ (by omega)]
        simp only [hf, hstop, i32_natCast (k+i) (by omega), u32_natCast (k+i) (by omega), hnext,
          hval, hstep, Int.toNat_natCast, Nat.cast_lt, ← ih]
        rfl
    · rw [splitLoop_succ, splitLoopInt, splitLoopWith, if_neg hi, if_neg hi]

theorem splitPattern_segments (mk : MkString) (s : List UInt8) (h : s.length < 2^31) :
    splitPattern mk s = some ((segments slash s).map line) := by
  rw [splitPattern, u32_natCast _ (by omega), splitLoopInt_eq mk _ _ h]
  exact splitPattern_spec mk s

theorem layout_take (s : List UInt8) (n : ℕ) (rest : ℕ → UInt8) :
    layout (s.take n) (layout s rest) = layout s rest := by
  funext i
  by_cases hi : i < n
  · cases h : s[i]? with
    | none => simp [layout, hi, h]
    | some c => simp [layout, hi, h]
  · simp [layout, hi]

/-- Of every text that starts with a slash the URI loop yields the first 32
segments of the part that it visits. -/
theorem uriParse_visited (r : List UInt8) (rest : ℕ → UInt8) :
    ∃ ruri, uriParse (layout (slash::r) rest) (slash::r).length = some ruri ∧
      ruri.length ≤ routerUriMax ∧
      uriTexts (layout (slash::r) rest) ruri =
        (segments slash (visited (slash::r))).take routerUriMax := by
  have hle : (i32 (slash::r).length).toNat ≤ (slash::r).length := by
    simp only [i32, u32]
    omega
  unfold uriParse visited
  generalize (i32 (slash::r).length).toNat = n at hle
  cases n with
  | zero => exact ⟨[],rfl,by simp,by simp [uriTexts, segments]⟩
  | succ n =>
    have hlen : (slash::r.take n).length = n+1 := by
      simp only [List.length_cons, List.length_take] at hle ⊢
      omega
    obtain ⟨ruri,hparse,htexts⟩ := uriParse_spec (r.take n) (layout (slash::r) rest)
    have hmem := layout_take (slash::r) (n+1) rest
    rw [List.take_succ_cons] at hmem ⊢
    rw [hmem, hlen] at hparse
    rw [hmem] at htexts
    refine ⟨ruri,hparse,?_,htexts⟩
    have hcount := congrArg List.length htexts
    rw [uriTexts, List.length_map] at hcount
    rw [hcount]
    exact List.length_take_le _ _

theorem visited_all (s : List UInt8) (h : s.length < 2^31) : visited s = s := by
  rw [visited, i32_natCast _ h, Int.toNat_natCast, List.take_length]

/-- The URI loop terminates with at most 32 fields on every text that starts
with a slash. It yields the first 32 segments exactly when these are also the
first ones of the part that it visits. Below 2^31 bytes that is so, the pattern
loop terminates with all segments, and on at most 32 segments the two agree. -/
theorem parsers_segments (mk : MkString) (s : Text) (r : List UInt8) (rest : ℕ → UInt8)
    (hs : s.bytes = slash::r) :
    ∃ ruri, uriParse (layout s.bytes rest) s.bytes.length = some ruri ∧
      ruri.length ≤ routerUriMax ∧
      (uriTexts (layout s.bytes rest) ruri = (segments slash s.bytes).take routerUriMax ↔
        (segments slash (visited s.bytes)).take routerUriMax =
          (segments slash s.bytes).take routerUriMax) ∧
      (s.bytes.length < 2^31 →
        uriTexts (layout s.bytes rest) ruri = (segments slash s.bytes).take routerUriMax ∧
        ∃ list, splitPattern mk s.bytes = some list ∧
          list = (segments slash s.bytes).map line ∧
          (list.length ≤ routerUriMax →
            uriTexts (layout s.bytes rest) ruri = list.map StringLine.val)) := by
  obtain ⟨ruri,hparse,hlen,htexts⟩ := uriParse_visited r rest
  rw [← hs] at hparse htexts
  refine ⟨ruri,hparse,hlen,by rw [htexts],?_⟩
  intro hshort
  rw [visited_all _ hshort] at htexts
  refine ⟨htexts,_,splitPattern_segments mk s.bytes hshort,rfl,?_⟩
  intro hfew
  rw [List.length_map] at hfew
  rw [htexts, List.take_of_length_le hfew, List.map_map]
  exact (List.map_id _).symm

/-- `//a/b/` has the segments `a` and `b`. -/
def runsOfSlashes : Text := ⟨[47,47,97,47,98,47],by decide⟩

theorem runs_of_slashes_parsed :
    ∃ ruri, uriParse (layout runsOfSlashes.bytes (fun _ => 47)) 6 = some ruri ∧
      uriTexts (layout runsOfSlashes.bytes (fun _ => 47)) ruri = [[97],[98]] ∧
      splitPattern plainString runsOfSlashes.bytes = some [⟨[97],1⟩,⟨[98],1⟩] := by
  obtain ⟨ruri,hparse,_,_,h⟩ :=
    parsers_segments plainString runsOfSlashes [47,97,47,98,47] (fun _ => 47) rfl
  obtain ⟨htexts,list,hlist,hsegs,_⟩ := h (by decide)
  refine ⟨ruri,hparse,htexts.trans (by decide),?_⟩
  rw [hlist, hsegs]
  decide

/-- A URI of 2^31 bytes with one segment: the length becomes negative and no
field is stored. -/
theorem long_uri_unparsed :
    ∃ s : Text, s.bytes = slash::List.replicate (2^31-1) 98 ∧
      segments slash s.bytes = [List.replicate (2^31-1) 98] ∧
      ∀ rest, uriParse (layout s.bytes rest) s.bytes.length = some [] := by
  have hnul : (0:UInt8) ∉ slash::List.replicate (2^31-1) 98 := by
    rw [List.mem_cons, List.mem_replicate]
    decide
  have hslash : slash ∉ List.replicate (2^31-1) (98:UInt8) := by
    rw [List.mem_replicate]
    decide
  refine ⟨⟨slash::List.replicate (2^31-1) 98,hnul⟩,rfl,?_,?_⟩
  · rw [segments_sep, segments_clean slash _ hslash, keep, if_neg]
    rw [List.replicate_eq_nil_iff]
    decide
  · intro rest
    have hlen : (i32 ((slash::List.replicate (2^31-1) (98:UInt8)).length:ℕ)).toNat = 0 := by
      rw [List.length_cons, List.length_replicate]
      decide
    rw [uriParse, hlen]
    rfl

end Duda.RouterSegments
