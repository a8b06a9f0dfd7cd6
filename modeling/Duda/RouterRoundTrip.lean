import Duda.RouterParse

/-!
# Mapping a pattern and routing its instances

A pattern is a list of keys and variables; an instance of it replaces each
variable by a value. The lookup and the parameter search are described on the
segment texts, where the two parsers meet, so that the instance of a mapped
pattern is routed to it and its values are found under their names.
-/

set_option autoImplicit false

namespace Duda.RouterRoundTrip
open Duda.CString Duda.MonkeyString Duda.Router Duda.RouterParse Duda.Segments

inductive Segment where
  | key (text : List UInt8)
  | var (name : List UInt8)
  deriving DecidableEq, Repr

namespace Segment

def text : Segment → List UInt8
  | .key t => t
  | .var n => colon::n

def subst (val : List UInt8 → List UInt8) : Segment → List UInt8
  | .key t => t
  | .var n => val n

end Segment

/-- Patterns of at most 32 segments with some key among them. -/
structure Pattern where
  segs : List Segment
  length_le : segs.length ≤ routerUriMax
  text_ok : ∀ s ∈ segs, s.text ≠ [] ∧ slash ∉ s.text ∧ 0 ∉ s.text
  key_ok : ∀ t, .key t ∈ segs → t.head? ≠ some colon
  has_key : ∃ t, .key t ∈ segs

/-- Non-empty values without a slash for the variables of a pattern. -/
structure Values (pat : Pattern) where
  val : List UInt8 → List UInt8
  ok : ∀ n, .var n ∈ pat.segs → val n ≠ [] ∧ slash ∉ val n

namespace Pattern

def text (pat : Pattern) : List UInt8 := (pat.segs.map Segment.text).flatMap (slash::·)

def uri (pat : Pattern) (v : Values pat) : List UInt8 :=
  (pat.segs.map (Segment.subst v.val)).flatMap (slash::·)

end Pattern

def Matches : List RouterField → List (List UInt8) → Prop
  | [], _ => True
  | _::_, [] => False
  | f::fs, t::ts => (f.type = routerFkey → t = f.name) ∧ Matches fs ts

def WellFormed (f : RouterField) : Prop :=
  f.name_len = f.name.length ∧ 0 ∉ f.name ∧ (f.type = routerFkey ∨ f.type = routerFvar)

theorem key_compare (uri : ℕ → UInt8) (f : RouterField) (u : UriField) (hf : WellFormed f) :
    (strncmpZero (cstr f.name) (offset uri u.name) f.name_len = true ∧
      f.name_len = u.name_len) ↔ slice (offset uri u.name) u.name_len = f.name := by
  rw [hf.1, strncmp_cstr f.name _ hf.2.1]
  constructor
  · rintro ⟨h,hlen⟩
    rw [← hlen, h]
  · intro h
    have hlen : f.name.length = u.name_len := by rw [← h, slice_length]
    exact ⟨by rw [hlen, h],hlen⟩

/-- The walk over the fields succeeds on the URIs that match every key, when
a key was met or the match flag was set before. -/
theorem fieldLoop_iff (uri : ℕ → UInt8) (ruri : List UriField) (fields : List RouterField)
    (i : ℕ) (found : Bool) (hi : i ≤ ruri.length) (hf : ∀ f ∈ fields, WellFormed f) :
    fieldLoop uri ruri fields i found = true ↔
      Matches fields (uriTexts uri (ruri.drop i)) ∧
        (found = true ∨ ∃ f ∈ fields, f.type = routerFkey) := by
  induction fields generalizing i found with
  | nil => simp [fieldLoop, Matches]
  | cons f fields ih =>
    have htail := fun g hg => hf g (List.mem_cons_of_mem f hg)
    have hwf := hf f (by simp)
    by_cases hend : i = ruri.length
    · simp [fieldLoop, hend, uriTexts, Matches]
    · have hlt : i < ruri.length := by omega
      have hdrop : uriTexts uri (ruri.drop i) =
          slice (offset uri ruri[i].name) ruri[i].name_len::uriTexts uri (ruri.drop (i+1)) := by
        rw [List.drop_eq_getElem_cons hlt]
        rfl
      have hget : ruri.getD i ⟨0,0⟩ = ruri[i] := by simp [hlt]
      simp only [fieldLoop, if_neg hend, hget, hdrop, Matches]
      by_cases hkey : f.type = routerFkey
      · simp only [key_compare uri f _ hwf, hkey, if_true, forall_const, List.mem_cons,
          exists_eq_or_imp, true_or, or_true, and_true]
        by_cases heq : slice (offset uri ruri[i].name) ruri[i].name_len = f.name
        · rw [if_pos heq, ih (i+1) true (by omega) htail]
          simp [heq]
        · simp [heq]
      · have hvar := hwf.2.2.resolve_left hkey
        simp only [if_neg hkey, if_pos hvar]
        rw [ih (i+1) found (by omega) htail]
        simp [hkey]

/-- The field that the dynamic mapping makes of a segment. -/
def segField (s : Segment) : RouterField := routerField (line s.text)

theorem segField_wellFormed (s : Segment) (h : 0 ∉ s.text) : WellFormed (segField s) := by
  refine ⟨rfl,h,?_⟩
  simp only [segField, routerField]
  split_ifs
  · exact Or.inr rfl
  · exact Or.inl rfl

theorem segField_key (t : List UInt8) (hne : t ≠ []) (hc : t.head? ≠ some colon) :
    segField (.key t) = ⟨routerFkey,t,t.length⟩ := by
  cases t with
  | nil => exact absurd rfl hne
  | cons c t =>
    have : c ≠ colon := by simpa using hc
    simp [segField, routerField, line, Segment.text, cstr, this]

theorem segField_var (n : List UInt8) :
    segField (.var n) = ⟨routerFvar,colon::n,n.length+1⟩ := rfl

theorem matches_subst (segs : List Segment) (val : List UInt8 → List UInt8)
    (h : ∀ t, .key t ∈ segs → t ≠ [] ∧ t.head? ≠ some colon) :
    Matches (segs.map segField) (segs.map (Segment.subst val)) := by
  induction segs with
  | nil => trivial
  | cons s segs ih =>
    have htail := ih (fun t ht => h t (by simp [ht]))
    cases s with
    | key t =>
      obtain ⟨hne,hc⟩ := h t (by simp)
      exact ⟨fun _ => by rw [segField_key t hne hc]; rfl,htail⟩
    | var n => exact ⟨fun hk => by simp [segField_var, routerFvar, routerFkey] at hk,htail⟩

theorem slice_cstr (s : List UInt8) : slice (cstr s) s.length = s := by
  have := slice_layout [] s [] (fun _ => 0)
  simpa [offset_zero, cstr_layout] using this

theorem position_key (n t : List UInt8) (fields : List RouterField) (i : ℕ) (hne : t ≠ [])
    (hc : t.head? ≠ some colon) :
    positionLoop n (segField (.key t)::fields) i = positionLoop n fields (i+1) := by
  rw [segField_key t hne hc]
  rfl

theorem position_var (n m : List UInt8) (fields : List RouterField) (i : ℕ) (hm : 0 ∉ m) :
    positionLoop n (segField (.var m)::fields) i =
      if m = n then (i:ℤ) else positionLoop n fields (i+1) := by
  have hname : offset (cstr (colon::m)) 1 = cstr m := cstr_after [colon] m
  have htype : ¬routerFvar ≠ routerDynamic := by decide
  have hlen : ((m.length+1:ℕ):ℤ)-1 = m.length := by omega
  simp only [segField_var, positionLoop, if_neg htype, hname, hlen]
  by_cases hmn : m = n
  · subst hmn
    rw [if_neg (not_not.mpr rfl), if_pos rfl,
      if_pos ((strncmp_cstr m (cstr m) hm).mpr (slice_cstr m))]
  · rw [if_neg hmn]
    by_cases hl : (n.length:ℤ) ≠ m.length
    · rw [if_pos hl]
    · have hl' : n.length = m.length := by omega
      rw [if_neg hl, if_neg]
      rw [hl', strncmp_cstr m (cstr n) hm, ← hl', slice_cstr]
      exact fun h => hmn h.symm

theorem position_found (segs : List Segment) (n : List UInt8) (i : ℕ)
    (h : ∀ s ∈ segs, s.text ≠ [] ∧ 0 ∉ s.text)
    (hk : ∀ t, .key t ∈ segs → t.head? ≠ some colon) (hn : .var n ∈ segs) :
    ∃ k, positionLoop n (segs.map segField) i = (i+k:ℕ) ∧ segs[k]? = some (.var n) := by
  induction segs generalizing i with
  | nil => simp at hn
  | cons s segs ih =>
    have hnext : .var n ∈ segs → ∃ k, positionLoop n (segs.map segField) (i+1) = (i+k:ℕ) ∧
        (s::segs)[k]? = some (.var n) := by
      intro hm
      obtain ⟨k,hp,hs⟩ := ih (i+1) (fun s hs => h s (by simp [hs]))
        (fun t ht => hk t (by simp [ht])) hm
      exact ⟨k+1,by rw [hp]; congr 1; omega,hs⟩
    cases s with
    | key t =>
      rw [List.map_cons, position_key n t _ i (h (.key t) (by simp)).1 (hk t (by simp))]
      exact hnext (by simpa using hn)
    | var m =>
      have hm : 0 ∉ m := fun hm => (h (.var m) (by simp)).2 (by simp [Segment.text, hm])
      rw [List.map_cons, position_var n m _ i hm]
      by_cases hmn : m = n
      · rw [if_pos hmn]
        exact ⟨0,rfl,by simp [hmn]⟩
      · rw [if_neg hmn]
        exact hnext (by simpa [Ne.symm hmn] using hn)

namespace Pattern

variable (pat : Pattern) (v : Values pat)

theorem text_segments : segments slash pat.text = pat.segs.map Segment.text := by
  apply segments_join
  intro t ht
  obtain ⟨s,hs,rfl⟩ := List.mem_map.mp ht
  exact ⟨(pat.text_ok s hs).1,(pat.text_ok s hs).2.1⟩

theorem uri_segments : segments slash (pat.uri v) = pat.segs.map (Segment.subst v.val) := by
  apply segments_join
  intro t ht
  obtain ⟨s,hs,rfl⟩ := List.mem_map.mp ht
  cases s with
  | key t => exact ⟨(pat.text_ok _ hs).1,(pat.text_ok _ hs).2.1⟩
  | var n => exact v.ok n hs

theorem leading_slash (ts : List (List UInt8)) (h : ts ≠ []) :
    ∃ r, ts.flatMap (slash::·) = slash::r := by
  cases ts with
  | nil => exact absurd rfl h
  | cons t ts => exact ⟨t++ts.flatMap (slash::·),rfl⟩

theorem segs_ne_nil : pat.segs ≠ [] := by
  obtain ⟨t,ht⟩ := pat.has_key
  exact List.ne_nil_of_mem ht

/-- The URI parser recovers the substituted segments. -/
theorem uri_parsed (rest : ℕ → UInt8) :
    ∃ ruri, routerUriParse (layout (pat.uri v) rest) (pat.uri v).length = some ruri ∧
      uriTexts (layout (pat.uri v) rest) ruri = pat.segs.map (Segment.subst v.val) := by
  obtain ⟨r,hr⟩ := leading_slash (pat.segs.map (Segment.subst v.val)) (by
    simpa using pat.segs_ne_nil)
  have huri : pat.uri v = slash::r := hr
  obtain ⟨ruri,hparse,htexts⟩ := uriParse_spec r rest
  rw [← huri, uri_segments, List.take_of_length_le (by simpa using pat.length_le)] at htexts
  rw [← huri] at hparse
  exact ⟨ruri,hparse,htexts⟩

theorem mapped_dynamic (mk : MkString) (pat : Pattern) (callback : ℕ) (hcb : callback ≠ 0)
    (hcolon : colon ∈ pat.text) :
    routerMap mk [] (some pat.text) callback =
      some ([{ routerNewPath pat.text callback routerDynamic with
        fields := pat.segs.map segField }],0) := by
  obtain ⟨r,hr⟩ := leading_slash (pat.segs.map Segment.text) (by simpa using pat.segs_ne_nil)
  have hfirst : ¬cstr pat.text 0 ≠ slash := by
    rw [text, hr]
    simp [cstr]
  have hfields : ((pat.segs.map Segment.text).map line).map routerField =
      pat.segs.map segField := by
    simp only [List.map_map]
    rfl
  simp only [routerMap, routerMapWith, if_neg hcb, not_not.mpr hcolon, if_false, routerAddDynamic,
    if_neg hfirst, splitPattern_spec, text_segments, Option.map_some, hfields, List.nil_append]

theorem mapped_static (mk : MkString) (pat : Pattern) (callback : ℕ) (hcb : callback ≠ 0)
    (hcolon : colon ∉ pat.text) :
    routerMap mk [] (some pat.text) callback =
      some ([routerNewPath pat.text callback routerStatic],0) := by
  simp only [routerMap, routerMapWith, if_neg hcb, hcolon, not_false_eq_true, if_true,
    routerAddStatic, List.nil_append]

theorem lookup_dynamic (uri : ℕ → UInt8) (len : ℕ) (ruri : List UriField) (path : RouterPath)
    (htype : path.type = routerDynamic) (hfields : path.fields = pat.segs.map segField)
    (htexts : uriTexts uri ruri = pat.segs.map (Segment.subst v.val)) :
    routerPathLookup uri len ruri [path] = ⟨routerMatch,some path⟩ := by
  have hwf : ∀ f ∈ pat.segs.map segField, WellFormed f := by
    intro f hf
    obtain ⟨s,hs,rfl⟩ := List.mem_map.mp hf
    exact segField_wellFormed s (pat.text_ok s hs).2.2
  have hmatch : Matches (pat.segs.map segField) (uriTexts uri (ruri.drop 0)) := by
    rw [List.drop_zero, htexts]
    apply matches_subst
    intro t ht
    exact ⟨(pat.text_ok _ ht).1,pat.key_ok t ht⟩
  obtain ⟨t,ht⟩ := pat.has_key
  have hkey : ∃ f ∈ pat.segs.map segField, f.type = routerFkey :=
    ⟨segField (.key t),List.mem_map_of_mem ht,by
      rw [segField_key t (pat.text_ok _ ht).1 (pat.key_ok t ht)]⟩
  have hloop : fieldLoop uri ruri path.fields 0 false = true := by
    rw [hfields]
    exact (fieldLoop_iff uri ruri _ 0 false (Nat.zero_le _) hwf).mpr ⟨hmatch,Or.inr hkey⟩
  have hstatic : ¬routerDynamic = routerStatic := by decide
  simp only [routerPathLookup, htype, if_neg hstatic, if_true, hloop]

theorem param_found (mk : MkString) (pat : Pattern) (v : Values pat) (uri : ℕ → UInt8)
    (ruri : List UriField) (path : RouterPath) (hfields : path.fields = pat.segs.map segField)
    (htexts : uriTexts uri ruri = pat.segs.map (Segment.subst v.val)) (n : List UInt8)
    (hn : .var n ∈ pat.segs) :
    ∃ k < ruri.length, getParamPosition path (some n) = k ∧
      (uriTexts uri ruri)[k]? = some (v.val n) ∧
      paramGet mk uri ruri (some path) (some n) = some (v.val n) := by
  obtain ⟨k,hpos,hseg⟩ := position_found pat.segs n 0
    (fun s hs => ⟨(pat.text_ok s hs).1,(pat.text_ok s hs).2.2⟩) pat.key_ok hn
  have hget : (uriTexts uri ruri)[k]? = some (v.val n) := by
    rw [htexts, List.getElem?_map, hseg]
    rfl
  have hk : k < ruri.length := by
    have := (List.getElem?_eq_some_iff.mp hget).1
    simpa [uriTexts] using this
  have hposition : getParamPosition path (some n) = k := by
    rw [getParamPosition, hfields, hpos, Nat.zero_add]
  refine ⟨k,hk,hposition,hget,?_⟩
  have hfield : slice (offset uri ruri[k].name) ruri[k].name_len = v.val n := by
    simpa [uriTexts, hk] using hget
  have hpositive : (0:ℤ) ≤ k := by omega
  have hentry : ruri.getD k ⟨0,0⟩ = ruri[k] := by simp [hk]
  simp only [paramGet, hposition, if_pos hpositive, Int.toNat_natCast, hentry]
  rw [copySubstr_first, hfield]

/-- Without a colon there are only keys, and the pattern is its own instance. -/
theorem static_uri (hcolon : colon ∉ pat.text) :
    (∀ n, .var n ∉ pat.segs) ∧ pat.uri v = pat.text := by
  have hvar : ∀ n, .var n ∉ pat.segs := by
    intro n hn
    apply hcolon
    rw [text, List.mem_flatMap]
    exact ⟨colon::n,List.mem_map_of_mem hn,by simp⟩
  refine ⟨hvar,?_⟩
  rw [uri, text]
  congr 1
  apply List.map_congr_left
  intro s hs
  cases s with
  | key t => rfl
  | var n => exact absurd hs (hvar n)

theorem text_no_zero : 0 ∉ pat.text := by
  intro h
  obtain ⟨t,ht,h0⟩ := List.mem_flatMap.mp h
  obtain ⟨s,hs,rfl⟩ := List.mem_map.mp ht
  rcases List.mem_cons.mp h0 with h0 | h0
  · exact absurd h0 (by decide)
  · exact (pat.text_ok s hs).2.2 h0

theorem lookup_static (rest : ℕ → UInt8) (len callback : ℕ) (ruri : List UriField) :
    routerPathLookup (layout pat.text rest) len ruri
        [routerNewPath pat.text callback routerStatic] =
      ⟨routerMatch,some (routerNewPath pat.text callback routerStatic)⟩ := by
  have hslice : slice (layout pat.text rest) pat.text.length = pat.text := by
    have := slice_layout [] pat.text [] rest
    simpa [offset_zero] using this
  have hcmp : strncmpZero (layout pat.text rest) (cstr pat.text) pat.text.length = true := by
    rw [strncmp_comm, strncmp_cstr pat.text _ pat.text_no_zero, hslice]
  simp only [routerPathLookup, routerNewPath, if_true, hcmp]

end Pattern

/-- An instance of a mapped pattern is routed to it, and each value is found
at the position of its name. -/
theorem route_round_trip (mk : MkString) (pat : Pattern) (v : Values pat) (rest : ℕ → UInt8)
    (callback : ℕ) (hcb : callback ≠ 0) :
    ∃ path ruri, routerMap mk [] (some pat.text) callback = some ([path],0) ∧
      routerUriParse (layout (pat.uri v) rest) (pat.uri v).length = some ruri ∧
      routerPathLookup (layout (pat.uri v) rest) (pat.uri v).length ruri [path] =
        ⟨routerMatch,some path⟩ ∧
      ∀ n, .var n ∈ pat.segs → ∃ k < ruri.length, getParamPosition path (some n) = k ∧
        (uriTexts (layout (pat.uri v) rest) ruri)[k]? = some (v.val n) ∧
        paramGet mk (layout (pat.uri v) rest) ruri (some path) (some n) = some (v.val n) := by
  obtain ⟨ruri,hparse,htexts⟩ := pat.uri_parsed v rest
  by_cases hcolon : colon ∈ pat.text
  · refine ⟨_,ruri,pat.mapped_dynamic mk callback hcb hcolon,hparse,?_,?_⟩
    · exact pat.lookup_dynamic v _ _ ruri _ rfl rfl htexts
    · intro n hn
      exact pat.param_found mk v _ ruri _ rfl htexts n hn
  · obtain ⟨hvar,huri⟩ := pat.static_uri v hcolon
    refine ⟨_,ruri,pat.mapped_static mk callback hcb hcolon,hparse,?_,?_⟩
    · rw [huri]
      exact pat.lookup_static rest _ callback ruri
    · intro n hn
      exact absurd hn (hvar n)

/-- The pattern `/user/:id`. -/
def userPattern : Pattern where
  segs := [.key [117,115,101,114],.var [105,100]]
  length_le := by decide
  text_ok := by decide
  key_ok := by
    intro t ht
    simp only [List.mem_cons, Segment.key.injEq, reduceCtorEq, List.not_mem_nil, or_false] at ht
    rw [ht]
    decide
  has_key := ⟨_,List.mem_cons_self⟩

/-- The value `42`. -/
def userValues : Values userPattern where
  val := fun _ => [52,50]
  ok := fun _ _ => by decide

end Duda.RouterRoundTrip
