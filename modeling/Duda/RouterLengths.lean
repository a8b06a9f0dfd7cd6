import Duda.RouterSegments
import Duda.RouterSelect

/-!
# The round trip of a pattern and its URIs, of any length

A pattern and the URIs that it stands for are split by two loops, one of which
keeps the length of the URI in an `int`. A URI that is not visited to its end
loses the end of its last value or more, so it is never routed as it should be.
-/

set_option autoImplicit false

namespace Duda.RouterLengths
open Duda.CString Duda.MachineInt Duda.MonkeyString Duda.Router Duda.RouterParse
open Duda.RouterRoundTrip
open Duda.RouterSegments Duda.RouterSelect Duda.Segments

/-- `duda_router_map`, with the machine integers of the splitting loop. -/
def routerMapInt (mk : MkString) : List RouterPath → Option (List UInt8) → ℕ →
    Option (List RouterPath × ℤ) :=
  routerMapWith (splitPattern mk)

theorem routerMapInt_eq (mk : MkString) (list : List RouterPath) (pattern : List UInt8)
    (callback : ℕ) (h : pattern.length < 2^31) :
    routerMapInt mk list (some pattern) callback =
      routerMap mk list (some pattern) callback := by
  have hsplit : splitPattern mk pattern = routerSplitPattern mk pattern := by
    rw [splitPattern_segments mk pattern h, splitPattern_spec]
  simp only [routerMapInt, routerMap, routerMapWith, routerAddDynamic, hsplit]

/-- The pattern is registered alone, the URI is routed to it, and each value is
found under the name of its variable. -/
def RoundTrip (mk : MkString) (pat : Pattern) (v : Values pat) (rest : ℕ → UInt8)
    (callback : ℕ) : Prop :=
  ∃ path ruri, routerMapInt mk [] (some pat.text) callback = some ([path],0) ∧
    uriParse (layout (pat.uri v) rest) (pat.uri v).length = some ruri ∧
    routerPathLookup (layout (pat.uri v) rest) (pat.uri v).length ruri [path] =
      ⟨routerMatch,some path⟩ ∧
    ∀ n, .var n ∈ pat.segs → ∃ k < ruri.length, getParamPosition path (some n) = k ∧
      (uriTexts (layout (pat.uri v) rest) ruri)[k]? = some (v.val n) ∧
      paramGet mk (layout (pat.uri v) rest) ruri (some path) (some n) =
        some (v.val n)

def Distinct (pat : Pattern) : Prop :=
  ∀ (i j : ℕ) (n : List UInt8), pat.segs[i]? = some (.var n) → pat.segs[j]? = some (.var n) → i = j

theorem i32_short (n : ℕ) (h : 2^31 ≤ n) : (i32 n).toNat < n := by
  simp only [i32, u32]
  split_ifs <;> omega

/-- A URI that is not visited to its end has less segments, or shorter ones. -/
theorem visited_weight (r : List UInt8) (h : 2^31 ≤ (slash::r).length) :
    weight (segments slash (visited (slash::r))) < (slash::r).length := by
  have hshort := i32_short (slash::r).length h
  rw [visited]
  generalize (i32 (slash::r).length).toNat = n at hshort
  cases n with
  | zero => simp [segments, weight]
  | succ n =>
    have hweight := weight_segments slash (r.take n)
    rw [List.length_take] at hweight
    rw [List.take_succ_cons, segments_sep]
    omega

section Lost

variable {mk : MkString} {pat : Pattern} {v : Values pat} {rest : ℕ → UInt8} {callback : ℕ}

theorem routed_segment (hnames : Distinct pat) (uri : ℕ → UInt8) (ruri : List UriField)
    (path : RouterPath) (hfields : path.fields = pat.segs.map segField)
    (hagree : Agrees path.fields (uriTexts uri ruri))
    (hvalues : ∀ n, .var n ∈ pat.segs → ∃ k, getParamPosition path (some n) = (k:ℕ) ∧
      (uriTexts uri ruri)[k]? = some (v.val n)) (i : ℕ) (s : Segment)
    (hs : pat.segs[i]? = some s) : (uriTexts uri ruri)[i]? = some (s.subst v.val) := by
  have hmem : s ∈ pat.segs := List.mem_of_getElem? hs
  cases s with
  | key t =>
    have hkey := segField_key t (pat.text_ok _ hmem).1 (pat.key_ok t hmem)
    have hfield : path.fields[i]? = some (segField (.key t)) := by
      rw [hfields, List.getElem?_map, hs]
      rfl
    have htext := hagree.2 i _ hfield (by rw [hkey])
    rw [hkey] at htext
    exact htext
  | var n =>
    obtain ⟨k,hk,htext⟩ := hvalues n hmem
    obtain ⟨j,hj,hseg⟩ := position_found pat.segs n 0
      (fun s hs => ⟨(pat.text_ok s hs).1,(pat.text_ok s hs).2.2⟩) pat.key_ok hmem
    have hpos : (k:ℤ) = ((0+j:ℕ):ℤ) := by
      rw [← hk, getParamPosition, hfields, hj]
    -- the names are distinct, so the position found is the one of the segment
    have hkj : k = j := by omega
    rw [← hnames j i n hseg hs, ← hkj]
    exact htext

theorem mapped_path (mk : MkString) (pat : Pattern) (callback : ℕ) (hcb : callback ≠ 0)
    (hcolon : colon ∈ pat.text) (hpat : pat.text.length < 2^31) :
    routerMapInt mk [] (some pat.text) callback =
        some ([dynamicPath ⟨pat.text,pat.text_no_zero⟩ callback],0) ∧
      (dynamicPath ⟨pat.text,pat.text_no_zero⟩ callback).fields = pat.segs.map segField := by
  have hfields : (dynamicPath ⟨pat.text,pat.text_no_zero⟩ callback).fields =
      pat.segs.map segField := by
    rw [dynamicPath, pat.text_segments, List.map_map, List.map_map]
    rfl
  refine ⟨?_,hfields⟩
  rw [routerMapInt_eq mk [] _ callback hpat, pat.mapped_dynamic _ callback hcb hcolon, ← hfields]
  rfl

theorem cut_uri (hcb : callback ≠ 0) (hcolon : colon ∈ pat.text) (hpat : pat.text.length < 2^31)
    (hnames : Distinct pat) (hlong : 2^31 ≤ (pat.uri v).length) :
    ¬RoundTrip mk pat v rest callback := by
  rintro ⟨path,ruri,hmap,hparse,hlookup,hvalues⟩
  obtain ⟨hpath,hfields⟩ := mapped_path mk pat callback hcb hcolon hpat
  cases hmap.symm.trans hpath
  have hagree := ((dynamic_selected _ callback _ _ ruri).mp hlookup).1
  obtain ⟨r,hr⟩ := Pattern.leading_slash (pat.segs.map (Segment.subst v.val)) (by
    simpa using pat.segs_ne_nil)
  have huri : pat.uri v = slash::r := hr
  obtain ⟨ruri',hparse',-,htexts⟩ := uriParse_visited r rest
  rw [← huri] at hparse' htexts
  cases hparse.symm.trans hparse'
  -- all values would stand in the visited part, which is too short for them
  have hsub : List.Sublist (pat.segs.map (Segment.subst v.val))
      (segments slash (visited (pat.uri v))) := by
    have hpre : pat.segs.map (Segment.subst v.val) <+:
        uriTexts (layout (pat.uri v) rest) ruri := by
      rw [List.prefix_iff_getElem?]
      intro i hi
      rw [List.length_map] at hi
      rw [List.getElem_map]
      refine routed_segment hnames _ ruri _ hfields hagree (fun n hn => ?_) i _
        (List.getElem?_eq_getElem hi)
      obtain ⟨k,-,hk,htext,-⟩ := hvalues n hn
      exact ⟨k,hk,htext⟩
    rw [htexts] at hpre
    exact hpre.sublist.trans (List.take_sublist _ _)
  have hweight := weight_sublist hsub
  rw [← weight_join slash] at hweight
  have hcut := visited_weight r (huri ▸ hlong)
  rw [← huri] at hcut
  exact absurd hcut (not_lt.mpr hweight)

end Lost

/-- Of every pattern below 2^31 bytes, with distinct names, and every values: the
URI is routed to the pattern and the values are found exactly if the URI has
less than 2^31 bytes. -/
theorem round_trip_iff (mk : MkString) (pat : Pattern) (v : Values pat) (rest : ℕ → UInt8)
    (callback : ℕ) (hcb : callback ≠ 0) (hnames : Distinct pat) (hpat : pat.text.length < 2^31) :
    RoundTrip mk pat v rest callback ↔ (pat.uri v).length < 2^31 := by
  constructor
  · intro h
    by_contra hlong
    by_cases hcolon : colon ∈ pat.text
    · exact cut_uri hcb hcolon hpat hnames (not_lt.mp hlong) h
    · rw [(pat.static_uri v hcolon).2] at hlong
      exact hlong hpat
  · intro hshort
    obtain ⟨path,ruri,hmap,hparse,hlookup,hvalues⟩ :=
      route_round_trip mk pat v rest callback hcb
    refine ⟨path,ruri,?_,?_,hlookup,hvalues⟩
    · rw [routerMapInt_eq mk [] _ callback hpat, hmap]
    · rw [uriParse, i32_natCast _ hshort, Int.toNat_natCast, hparse]

/-- The pattern `/user/:id` and the URI `/user/42`. -/
theorem user_routed : RoundTrip plainString userPattern userValues (fun _ => 0) 1 := by
  have hone : ∀ (i : ℕ) (n : List UInt8), userPattern.segs[i]? = some (.var n) → i = 1 := by
    intro i n hi
    rcases i with _ | _ | i
    · cases hi
    · rfl
    · cases hi
  exact (round_trip_iff plainString userPattern userValues (fun _ => 0) 1 (by decide)
    (fun i j n hi hj => (hone i n hi).trans (hone j n hj).symm) (by decide)).mpr (by decide)

/-- A value of 2^31 bytes: the length of the URI becomes negative, no field is
stored, and the pattern is not found. -/
theorem long_value_not_routed :
    ∃ v : Values userPattern, (∀ n, v.val n = List.replicate (2^31) 98) ∧
      ∀ rest, ∃ path, routerMapInt plainString [] (some userPattern.text) 1 = some ([path],0) ∧
        uriParse (layout (userPattern.uri v) rest) (userPattern.uri v).length = some [] ∧
        routerPathLookup (layout (userPattern.uri v) rest) (userPattern.uri v).length [] [path] =
          ⟨routerNotfound,none⟩ := by
  have hne : List.replicate (2^31) (98:UInt8) ≠ [] := by
    rw [Ne, List.replicate_eq_nil_iff]
    decide
  have hslash : slash ∉ List.replicate (2^31) (98:UInt8) := by
    rw [List.mem_replicate]
    decide
  refine ⟨⟨fun _ => List.replicate (2^31) 98,fun _ _ => ⟨hne,hslash⟩⟩,fun _ => rfl,fun rest => ?_⟩
  have hlen : ∀ v : Values userPattern, (v.val [105,100]).length = 2^31 →
      (userPattern.uri v).length = 6+2^31 := by
    intro v hv
    have huri : userPattern.uri v = [47,117,115,101,114,47]++(v.val [105,100]++[]) := rfl
    rw [huri, List.length_append, List.append_nil, hv]
    rfl
  obtain ⟨hmap,hfields⟩ := mapped_path plainString userPattern 1 (by decide) (by decide)
    (by decide)
  refine ⟨_,hmap,?_,?_⟩
  · rw [hlen _ List.length_replicate, uriParse]
    have hneg : (i32 (6+2^31:ℕ)).toNat = 0 := by decide
    rw [hneg]
    rfl
  · have hstatic : ¬routerDynamic = routerStatic := by decide
    have htype : (dynamicPath ⟨userPattern.text,userPattern.text_no_zero⟩ 1).type =
        routerDynamic := rfl
    simp only [routerPathLookup, htype, if_neg hstatic, if_true, hfields]
    rfl

end Duda.RouterLengths
