import Duda.FirstAnswer
import Duda.ServiceLookup
import Mathlib.Data.List.GetD

/-!
# Routing and the memory behind the URI

The URI is a pointer with a length, and whatever stands behind it in memory is
no part of the request. The comparisons of the routing functions are bounded
by the length of the pattern or of the name. For each function this module
tells which patterns and names make the answer depend on the memory behind the
URI.
-/

set_option autoImplicit false

namespace Duda.UriMemory
open Duda.CString Duda.FirstAnswer Duda.MonkeyString Duda.Router Duda.ServiceLookup

/-- The rules of a service, with patterns as `duda_router_map` stores them. -/
structure RouterList where
  paths : List RouterPath
  mapped : ∀ p ∈ paths, 0 ∉ p.pattern ∧ p.pattern_len = p.pattern.length

/-- Every rule that `duda_router_map` adds has a pattern of that kind. -/
theorem mapped_keeps (mk : MkString) (list : RouterList) (pattern : Option (List UInt8))
    (callback : ℕ) (h0 : ∀ π ∈ pattern, 0 ∉ π) (paths : List RouterPath) (r : ℤ)
    (h : routerMap mk list.paths pattern callback = some (paths,r)) :
    ∀ p ∈ paths, 0 ∉ p.pattern ∧ p.pattern_len = p.pattern.length := by
  have hadd : ∀ q : RouterPath, 0 ∉ q.pattern ∧ q.pattern_len = q.pattern.length →
      ∀ p ∈ list.paths++[q], 0 ∉ p.pattern ∧ p.pattern_len = p.pattern.length := by
    intro q hq p hp
    rcases List.mem_append.mp hp with hp | hp
    · exact list.mapped p hp
    · rw [List.mem_singleton.mp hp]
      exact hq
  cases pattern with
  | none =>
    simp only [routerMap, routerMapWith, Option.some.injEq, Prod.mk.injEq] at h
    rw [← h.1]
    exact list.mapped
  | some π =>
    have hπ := h0 π rfl
    simp only [routerMap, routerMapWith, routerAddDynamic, routerAddStatic] at h
    split_ifs at h
    · simp only [Option.some.injEq, Prod.mk.injEq] at h
      rw [← h.1]
      exact list.mapped
    · simp only [Option.some.injEq, Prod.mk.injEq] at h
      rw [← h.1]
      exact list.mapped
    · cases hs : routerSplitPattern mk π with
      | none =>
        rw [hs] at h
        cases h
      | some plist =>
        simp only [hs, Option.map_some, Option.some.injEq, Prod.mk.injEq] at h
        rw [← h.1]
        exact hadd _ ⟨hπ,rfl⟩
    · simp only [Option.some.injEq, Prod.mk.injEq] at h
      rw [← h.1]
      exact hadd _ ⟨hπ,rfl⟩

/-- The lookup for the fields that are parsed from the same URI. -/
def lookupUri (uri : ℕ → UInt8) (uri_len : ℕ) (paths : List RouterPath) : Lookup :=
  routerPathLookup uri uri_len ((routerUriParse uri uri_len).getD []) paths

/-- The answer is the same for all memory behind the URI. -/
def OnlyUri {β : Type} (f : (ℕ → UInt8) → β) (u : List UInt8) : Prop :=
  ∀ rest rest', f (layout u rest) = f (layout u rest')

/-- A static pattern that starts with the URI and goes beyond it. -/
def RuleBeyond (u : List UInt8) (p : RouterPath) : Prop :=
  p.type = routerStatic ∧ u.length < p.pattern.length ∧ u <+: p.pattern

/-- No rule that is tried goes beyond the URI. -/
def RulesInside (u : List UInt8) (paths : List RouterPath) : Prop :=
  ∀ before p after, paths = before++p::after →
    (lookupUri (cstr u) u.length before).ret = routerNotfound → ¬RuleBeyond u p

/-- The name of a service that is not the root goes beyond what follows the
slash, and starts like it. -/
def RootBeyond (u : List UInt8) (ws : WebService) : Prop :=
  ws.isRoot = false ∧ u.length ≤ ws.fixedName.bytes.length ∧ u.drop 1 <+: ws.fixedName.bytes

def NameBeyond (u : List UInt8) (ws : WebService) : Prop :=
  (u.drop 1).length < ws.name.bytes.length ∧ u.drop 1 <+: ws.name.bytes

/-- No service that is tried has a name that goes beyond the URI. -/
def NamesInside (u : List UInt8) (services : List WebService) : Prop :=
  ∀ before ws after, services = before++ws::after →
    getServiceFromUri (cstr u) before = none → ¬NameBeyond u ws

theorem layout_known (u : List UInt8) (rest rest' : ℕ → UInt8) (i : ℕ) (h : i < u.length) :
    layout u rest i = layout u rest' i := by
  simp [layout, h]

section Parsing

variable (u : List UInt8) (rest rest' : ℕ → UInt8)

theorem uriStep_known (s : Scan) (h0 : 0 ≤ s.i) (h : s.i < u.length) :
    uriStep (layout u rest) s = uriStep (layout u rest') s := by
  simp only [uriStep, layout_known u rest rest' s.i.toNat (by omega)]

/-- The index never becomes negative, and the fields stay inside the URI. -/
structure ScanInside (s : Scan) : Prop where
  index : 0 ≤ s.i
  start : -1 ≤ s.start ∧ s.start ≤ s.i ∧ s.start < u.length
  stop : s.stop = -1
  fields : ∀ f ∈ s.ruri, f.name+f.name_len ≤ u.length

theorem uriAdd_inside (ruri : List UriField) (buf size : ℕ)
    (hf : ∀ f ∈ ruri, f.name+f.name_len ≤ u.length) (h : buf+size ≤ u.length) :
    ∀ f ∈ uriAdd ruri buf size, f.name+f.name_len ≤ u.length := by
  intro f hm
  simp only [uriAdd] at hm
  split_ifs at hm
  · exact hf f hm
  · rcases List.mem_append.mp hm with hm | hm
    · exact hf f hm
    · rw [List.mem_singleton.mp hm]
      exact h

theorem uriStep_inside (uri : ℕ → UInt8) (s : Scan) (hs : ScanInside u s) (h : s.i < u.length) :
    ScanInside u (uriStep uri s) := by
  obtain ⟨h0,⟨h1,h2,h3⟩,hstop,hf⟩ := hs
  simp only [uriStep, hstop, if_true]
  split_ifs with ha hb hc
  · exact ⟨by simp; omega,⟨by simp; omega,by simp; omega,by simp; omega⟩,rfl,hf⟩
  · exact ⟨by simp; omega,⟨by simp; omega,by simp,by simp; omega⟩,rfl,hf⟩
  · exact ⟨by simp; omega,⟨by simp,by simp; omega,by simp; omega⟩,rfl,hf⟩
  · refine ⟨by simp; omega,⟨by simp,by simp; omega,by simp; omega⟩,rfl,?_⟩
    exact uriAdd_inside u s.ruri _ _ hf (by omega)

theorem uriLoop_known (fuel : ℕ) (s : Scan) (hs : ScanInside u s) :
    uriLoop (layout u rest) u.length fuel s = uriLoop (layout u rest') u.length fuel s := by
  induction fuel generalizing s with
  | zero => rfl
  | succ fuel ih =>
    simp only [uriLoop]
    split_ifs with h
    · rw [uriStep_known u rest rest' s hs.index h]
      exact ih _ (uriStep_inside u _ s hs h)
    · rfl

theorem uriLoop_inside (uri : ℕ → UInt8) (fuel : ℕ) (s t : Scan) (hs : ScanInside u s)
    (h : uriLoop uri u.length fuel s = some t) : ScanInside u t := by
  induction fuel generalizing s with
  | zero => cases h
  | succ fuel ih =>
    simp only [uriLoop] at h
    split_ifs at h with hi
    · exact ih _ (uriStep_inside u uri s hs hi) h
    · cases h
      exact hs

theorem scan_start : ScanInside u ⟨0,-1,-1,[]⟩ :=
  ⟨le_rfl,⟨le_rfl,by simp,by simp; omega⟩,rfl,fun f hf => by cases hf⟩

theorem parse_known :
    routerUriParse (layout u rest) u.length = routerUriParse (layout u rest') u.length := by
  rw [routerUriParse, routerUriParse, uriLoop_known u rest rest' _ _ (scan_start u)]

theorem parse_inside (uri : ℕ → UInt8) :
    ∀ f ∈ (routerUriParse uri u.length).getD [], f.name+f.name_len ≤ u.length := by
  rw [routerUriParse]
  cases h : uriLoop uri u.length (2*u.length+1) ⟨0,-1,-1,[]⟩ with
  | none =>
    intro f hf
    cases hf
  | some t =>
    obtain ⟨h0,⟨h1,h2,h3⟩,hstop,hf⟩ := uriLoop_inside u uri _ _ t (scan_start u) h
    simp only [Option.map_some, Option.getD_some, uriTail]
    split_ifs with ha hb
    · exact uriAdd_inside u t.ruri _ _ hf (by omega)
    · exact hf
    · exact hf

theorem fieldLoop_known (ruri : List UriField) (fields : List RouterField) (i : ℕ) (found : Bool)
    (hr : ∀ f ∈ ruri, f.name+f.name_len ≤ u.length) :
    fieldLoop (layout u rest) ruri fields i found =
      fieldLoop (layout u rest') ruri fields i found := by
  induction fields generalizing i found with
  | nil => rfl
  | cons field fields ih =>
    have hfield : (ruri.getD i ⟨0,0⟩).name+(ruri.getD i ⟨0,0⟩).name_len ≤ u.length := by
      by_cases hi : i < ruri.length
      · rw [List.getD_eq_getElem _ _ hi]
        exact hr _ (List.getElem_mem hi)
      · rw [List.getD_eq_default _ _ (by omega)]
        exact Nat.zero_le _
    have hcmp : (strncmpZero (cstr field.name) (offset (layout u rest) (ruri.getD i ⟨0,0⟩).name)
          field.name_len = true ∧ field.name_len = (ruri.getD i ⟨0,0⟩).name_len) ↔
        (strncmpZero (cstr field.name) (offset (layout u rest') (ruri.getD i ⟨0,0⟩).name)
          field.name_len = true ∧ field.name_len = (ruri.getD i ⟨0,0⟩).name_len) := by
      apply and_congr_left
      intro hlen
      rw [strncmp_congr _ (offset (layout u rest') (ruri.getD i ⟨0,0⟩).name) _ _ ?_]
      intro j hj
      exact layout_known u rest rest' _ (by omega)
    simp only [fieldLoop, hcmp, ih]

end Parsing

def ruleAnswer (uri : ℕ → UInt8) (uri_len : ℕ) (ruri : List UriField) (p : RouterPath) :
    Option Lookup :=
  if p.type = routerStatic then
    if strncmpZero uri (cstr p.pattern) p.pattern_len then some ⟨routerMatch,some p⟩
    else if p.redirect ∧ strncmpZero uri (cstr p.pattern) (p.pattern_len-1) ∧
        uri_len ≤ p.pattern_len then some ⟨routerRedirect,none⟩
    else none
  else if p.type = routerDynamic then
    if fieldLoop uri ruri p.fields 0 false then some ⟨routerMatch,some p⟩ else none
  else none

variable (uri : ℕ → UInt8) (uri_len : ℕ) (ruri : List UriField)

theorem lookup_findSome (paths : List RouterPath) :
    routerPathLookup uri uri_len ruri paths =
      (paths.findSome? (ruleAnswer uri uri_len ruri)).getD ⟨routerNotfound,none⟩ := by
  induction paths with
  | nil => rfl
  | cons p paths ih =>
    simp only [routerPathLookup, List.findSome?_cons, ruleAnswer, ih]
    split_ifs <;> rfl

theorem ruleAnswer_some (p : RouterPath) (r : Lookup)
    (h : ruleAnswer uri uri_len ruri p = some r) :
    r = ⟨routerRedirect,none⟩ ∨ r = ⟨routerMatch,some p⟩ := by
  simp only [ruleAnswer] at h
  split_ifs at h
  · exact .inr (Option.some.inj h).symm
  · exact .inl (Option.some.inj h).symm
  · exact .inr (Option.some.inj h).symm

theorem notfound_iff (paths : List RouterPath) :
    (routerPathLookup uri uri_len ruri paths).ret = routerNotfound ↔
      paths.findSome? (ruleAnswer uri uri_len ruri) = none := by
  rw [lookup_findSome]
  cases h : paths.findSome? (ruleAnswer uri uri_len ruri) with
  | none => simp
  | some r =>
    obtain ⟨p,_,hp⟩ := List.exists_of_findSome?_eq_some h
    rcases ruleAnswer_some uri uri_len ruri p r hp with rfl | rfl
    · simp [routerRedirect, routerNotfound]
    · simp [routerMatch, routerNotfound]

/-- What is found is the answer of the first rule that has one. -/
theorem lookup_answered (paths : List RouterPath)
    (h : (routerPathLookup uri uri_len ruri paths).ret ≠ routerNotfound) :
    ∃ before p after, paths = before++p::after ∧
      (routerPathLookup uri uri_len ruri before).ret = routerNotfound ∧
      ruleAnswer uri uri_len ruri p = some (routerPathLookup uri uri_len ruri paths) ∧
      routerPathLookup uri uri_len ruri (before++[p]) =
        routerPathLookup uri uri_len ruri paths := by
  obtain ⟨r,hfind⟩ := Option.ne_none_iff_exists'.mp (mt (notfound_iff uri uri_len ruri paths).mpr h)
  obtain ⟨before,p,after,hpaths,hp,hbefore⟩ := List.findSome?_eq_some_iff.mp hfind
  have hnone := List.findSome?_eq_none_iff.mpr hbefore
  have hlookup : routerPathLookup uri uri_len ruri paths = r := by
    rw [lookup_findSome, hfind, Option.getD_some]
  refine ⟨before,p,after,hpaths,(notfound_iff uri uri_len ruri before).mpr hnone,?_,?_⟩
  · rw [hp, hlookup]
  · rw [lookup_findSome, List.findSome?_append, hnone, Option.none_or, List.findSome?_singleton, hp,
      hlookup, Option.getD_some]

theorem getD_eq_iff {β : Type} (o o' : Option β) (d : β) (h : o ≠ some d) (h' : o' ≠ some d) :
    o.getD d = o'.getD d ↔ o = o' := by
  cases o with
  | none =>
    cases o' with
    | none => simp
    | some b =>
      have hb : d ≠ b := fun he => h' (by rw [he])
      simp [hb]
  | some a =>
    cases o' with
    | none =>
      have ha : a ≠ d := fun he => h (by rw [he])
      simp [ha]
    | some b => simp

theorem lookup_eq_iff (uri' : ℕ → UInt8) (uri_len : ℕ) (ruri : List UriField)
    (paths : List RouterPath) :
    routerPathLookup uri uri_len ruri paths = routerPathLookup uri' uri_len ruri paths ↔
      paths.findSome? (ruleAnswer uri uri_len ruri) =
        paths.findSome? (ruleAnswer uri' uri_len ruri) := by
  have hne : ∀ m, paths.findSome? (ruleAnswer m uri_len ruri) ≠ some ⟨routerNotfound,none⟩ := by
    intro m
    apply findSome_some
    intro p _ hp
    rcases ruleAnswer_some m uri_len ruri p _ hp with h | h
    · simp [routerNotfound, routerRedirect] at h
    · simp at h
  rw [lookup_findSome, lookup_findSome, getD_eq_iff _ _ _ (hne uri) (hne uri')]

section Rules

variable {u : List UInt8} {p : RouterPath}

theorem shorter_not_beyond (π : List UInt8) (h : ¬(u.length < π.length ∧ u <+: π)) :
    ¬(u.length < (π.take (π.length-1)).length ∧ u <+: π.take (π.length-1)) := by
  rintro ⟨hl,hp⟩
  apply h
  rw [List.length_take] at hl
  exact ⟨by omega,hp.trans (List.take_prefix _ π)⟩

theorem strncmp_part (uri : ℕ → UInt8) (π : List UInt8) (h0 : 0 ∉ π) :
    strncmpZero uri (cstr π) (π.length-1) = true ↔
      slice uri (π.take (π.length-1)).length = π.take (π.length-1) := by
  have hlen : (π.take (π.length-1)).length = π.length-1 := by
    rw [List.length_take]
    omega
  have hcmp := strncmp_text ⟨π.take (π.length-1),fun hm => h0 (List.mem_of_mem_take hm)⟩ uri
  have hpart : strncmpZero uri (cstr π) (π.length-1) =
      strncmpZero uri (cstr (π.take (π.length-1))) (π.length-1) := by
    apply strncmp_congr
    intro i hi
    simp only [cstr, List.getD_eq_getElem?_getD, List.getElem?_take_of_lt hi]
  rw [hpart, ← hcmp, hlen]

theorem ruleAnswer_known (hp : 0 ∉ p.pattern ∧ p.pattern_len = p.pattern.length)
    (hb : ¬RuleBeyond u p) (ruri : List UriField)
    (hr : ∀ f ∈ ruri, f.name+f.name_len ≤ u.length) (rest rest' : ℕ → UInt8) :
    ruleAnswer (layout u rest) u.length ruri p = ruleAnswer (layout u rest') u.length ruri p := by
  by_cases ht : p.type = routerStatic
  · have hnot : ¬(u.length < p.pattern.length ∧ u <+: p.pattern) := fun h => hb ⟨ht,h⟩
    have hfull : ∀ r, strncmpZero (layout u r) (cstr p.pattern) p.pattern.length = true ↔
        slice (layout u r) p.pattern.length = p.pattern :=
      fun r => strncmp_text ⟨p.pattern,hp.1⟩ (layout u r)
    have hpart := fun r => strncmp_part (layout u r) p.pattern hp.1
    simp only [ruleAnswer, ht, if_true, hp.2, hfull, hpart,
      slice_decided u p.pattern rest rest' hnot,
      slice_decided u _ rest rest' (shorter_not_beyond p.pattern hnot)]
  · simp only [ruleAnswer, ht, if_false, fieldLoop_known u rest rest' ruri p.fields 0 false hr]

/-- Memory that goes on like the pattern makes the rule match, and other
memory lets no rule answer with it. -/
theorem ruleAnswer_beyond (hp : 0 ∉ p.pattern ∧ p.pattern_len = p.pattern.length)
    (hb : RuleBeyond u p) (ruri : List UriField) :
    ruleAnswer (layout u (cstr p.pattern)) u.length ruri p = some ⟨routerMatch,some p⟩ ∧
      ∀ x, ruleAnswer (layout u (fun i => cstr p.pattern i+1)) u.length ruri x ≠
        some ⟨routerMatch,some p⟩ := by
  obtain ⟨ht,hl,hpre⟩ := hb
  have hfull : ∀ r, strncmpZero (layout u r) (cstr p.pattern) p.pattern_len = true ↔
      slice (layout u r) p.pattern.length = p.pattern := by
    intro r
    rw [hp.2]
    exact strncmp_text ⟨p.pattern,hp.1⟩ (layout u r)
  constructor
  · simp only [ruleAnswer, ht, if_true, hfull, slice_extended u p.pattern hpre]
  · intro x hx
    have hxp : x = p := by
      rcases ruleAnswer_some _ _ ruri x _ hx with h | h
      · simp at h
      · simpa [eq_comm] using h
    subst hxp
    simp only [ruleAnswer, ht, if_true, hfull, slice_differs u x.pattern hl, if_false] at hx
    split_ifs at hx
    simp at hx

end Rules

theorem lookup_only_uri_iff (list : RouterList) (u : List UInt8) :
    OnlyUri (fun uri => lookupUri uri u.length list.paths) u ↔ RulesInside u list.paths := by
  have hparse : ∀ rest, routerUriParse (layout u rest) u.length =
      routerUriParse (cstr u) u.length := fun rest => parse_known u rest _
  have hr := parse_inside u (cstr u)
  simp only [OnlyUri, RulesInside, lookupUri, hparse, lookup_eq_iff, notfound_iff]
  generalize (routerUriParse (cstr u) u.length).getD [] = ruri at hr
  apply independent_iff (fun rest => ruleAnswer (layout u rest) u.length ruri) (fun _ => 0)
  · intro p hp hb rest rest'
    exact ruleAnswer_known (list.mapped p hp) hb ruri hr rest rest'
  · intro p hp hb
    obtain ⟨hmatch,hnot⟩ := ruleAnswer_beyond (list.mapped p hp) hb ruri
    exact ⟨_,_,_,hmatch,fun x _ => hnot x⟩

section Names

variable (u : List UInt8)

/-- A root whose name goes beyond the URI is the name with a slash behind it. -/
theorem root_beyond_iff (uri : ℕ → UInt8) (ws : WebService) (hr : ws.isRoot = false)
    (hl : u.length ≤ ws.fixedName.bytes.length) :
    isRequestRoot uri u.length ws = true ↔
      slice (offset uri 1) (ws.fixedName.bytes.length+1) = ws.fixedName.bytes++[slash] := by
  have hnot : ¬((u.length:ℤ)-1 = ws.fixedName.bytes.length) := by omega
  have hlast : u.length ≤ ws.fixedName.bytes.length+2 := by omega
  have hslice : slice (offset uri 1) (ws.fixedName.bytes.length+1) =
      slice (offset uri 1) ws.fixedName.bytes.length++[uri (ws.fixedName.bytes.length+1)] := by
    rw [slice, List.range_succ, List.map_append, Nat.add_comm _ 1]
    rfl
  have hsplit : slice (offset uri 1) (ws.fixedName.bytes.length+1) =
        ws.fixedName.bytes++[slash] ↔
      slice (offset uri 1) ws.fixedName.bytes.length = ws.fixedName.bytes ∧
        uri (ws.fixedName.bytes.length+1) = slash := by
    rw [hslice]
    simp
  rw [hsplit, isRequestRoot]
  simp [hr, strncmp_text, hnot, hlast]

/-- A name inside the URI: the byte after it is read only when it is the last
one of the URI. -/
theorem root_inside (rest rest' : ℕ → UInt8) (ws : WebService)
    (hl : ws.fixedName.bytes.length < u.length) :
    isRequestRoot (layout u rest) u.length ws = isRequestRoot (layout u rest') u.length ws := by
  have hname := slice_decided (u.drop 1) ws.fixedName.bytes (offset rest 1) (offset rest' 1)
    (fun h => by
      rw [List.length_drop] at h
      omega)
  have hlast : ((u.length:ℤ)-1 = ws.fixedName.bytes.length ∨
        (layout u rest (ws.fixedName.bytes.length+1) = slash ∧
          u.length ≤ ws.fixedName.bytes.length+2)) ↔
      ((u.length:ℤ)-1 = ws.fixedName.bytes.length ∨
        (layout u rest' (ws.fixedName.bytes.length+1) = slash ∧
          u.length ≤ ws.fixedName.bytes.length+2)) := by
    by_cases hend : ws.fixedName.bytes.length+1 < u.length
    · rw [layout_known u rest rest' _ hend]
    · have heq : (u.length:ℤ)-1 = ws.fixedName.bytes.length := by omega
      simp only [heq, true_or]
  simp only [isRequestRoot, strncmp_text, offset_layout, hname, hlast]

theorem root_only_uri_iff (ws : WebService) :
    OnlyUri (fun uri => isRequestRoot uri u.length ws) u ↔ ¬RootBeyond u ws := by
  have hlen : (ws.fixedName.bytes++[slash]).length = ws.fixedName.bytes.length+1 := by simp
  constructor
  · rintro h ⟨hr,hl,hp⟩
    have hyes := slice_extended (u.drop 1) (ws.fixedName.bytes++[slash])
      (hp.trans (List.prefix_append _ _))
    have hno := slice_differs (u.drop 1) (ws.fixedName.bytes++[slash]) (by
      rw [List.length_drop, hlen]
      omega)
    rw [hlen, ← offset_shift (cstr _), ← offset_layout, ← root_beyond_iff u _ ws hr hl] at hyes
    rw [hlen, ← offset_shift (fun i => cstr _ i+1), ← offset_layout, Ne,
      ← root_beyond_iff u _ ws hr hl] at hno
    exact hno ((h _ _).trans hyes)
  · intro hb rest rest'
    by_cases hl : u.length ≤ ws.fixedName.bytes.length
    · by_cases hr : ws.isRoot = true
      · simp [isRequestRoot, hr]
      · have hr' : ws.isRoot = false := by simpa using hr
        have hnot : ∀ r, ¬isRequestRoot (layout u r) u.length ws = true := by
          intro r he
          rw [root_beyond_iff u _ ws hr' hl, offset_layout, ← hlen] at he
          have hshort : (u.drop 1).length ≤ ws.fixedName.bytes.length := by
            rw [List.length_drop]
            omega
          have hbeyond := slice_beyond _ _ _ (by omega) he
          apply hb
          exact ⟨hr',hl,List.prefix_of_prefix_length_le hbeyond (List.prefix_append _ _) hshort⟩
        simp only [hnot]
    · exact root_inside u rest rest' ws (by omega)

theorem service_only_uri_iff (services : List WebService) :
    OnlyUri (fun uri => getServiceFromUri uri services) u ↔ NamesInside u services := by
  have hfind : ∀ uri l, getServiceFromUri uri l =
      l.findSome? (fun ws => if Follows uri ws then some ws else none) := by
    intro uri l
    induction l with
    | nil => rfl
    | cons ws l ih =>
      simp only [getServiceFromUri, name_follows_iff, List.findSome?_cons, ih]
      split_ifs <;> rfl
  have hfollows : ∀ rest ws, Follows (layout u rest) ws ↔
      slice (layout (u.drop 1) (offset rest 1)) ws.name.bytes.length = ws.name.bytes := by
    intro rest ws
    rw [Follows, offset_layout]
  simp only [OnlyUri, NamesInside, hfind]
  apply independent_iff (fun rest ws => if Follows (layout u rest) ws then some ws else none)
    (fun _ => 0)
  · intro ws _ hb rest rest'
    simp only [hfollows, slice_decided (u.drop 1) ws.name.bytes (offset rest 1) (offset rest' 1) hb]
  · rintro ws _ ⟨hl,hp⟩
    refine ⟨fun i => cstr ws.name.bytes (i-1),fun i => cstr ws.name.bytes (i-1)+1,ws,?_,?_⟩
    · simp only [hfollows, offset_shift, slice_extended (u.drop 1) ws.name.bytes hp, if_true]
    · intro x _ hx
      split_ifs at hx with hf
      cases hx
      rw [hfollows, offset_shift (fun i => cstr ws.name.bytes i+1)] at hf
      exact slice_differs (u.drop 1) ws.name.bytes hl hf

end Names

/-- Each of the three answers is a function of the URI exactly when no pattern
or name that is compared goes beyond the URI. -/
theorem routing_only_uri_iff (list : RouterList) (ws : WebService) (services : List WebService)
    (u : List UInt8) :
    (OnlyUri (fun uri => lookupUri uri u.length list.paths) u ↔ RulesInside u list.paths) ∧
    (OnlyUri (fun uri => isRequestRoot uri u.length ws) u ↔ ¬RootBeyond u ws) ∧
    (OnlyUri (fun uri => getServiceFromUri uri services) u ↔ NamesInside u services) :=
  ⟨lookup_only_uri_iff list u,root_only_uri_iff u ws,service_only_uri_iff u services⟩

/-- The URI `/a` in front of other bytes of the request: the rule `/ab`
matches when a `b` follows, the service `ab` is found then, and the request is
for its root when `b/` follows. -/
theorem memory_behind_decides :
    let path := routerNewPath [47,97,98] 1 routerStatic
    let ws : WebService := ⟨⟨[97,98],by decide⟩,⟨[97,98],by decide⟩,false⟩
    let behind := layout [47,97] (cstr [47,97,98,47])
    (lookupUri behind 2 [path] = ⟨routerMatch,some path⟩ ∧
      lookupUri (cstr [47,97]) 2 [path] = ⟨routerNotfound,none⟩) ∧
    (isRequestRoot behind 2 ws = true ∧ isRequestRoot (cstr [47,97]) 2 ws = false) ∧
    (getServiceFromUri behind [ws] = some ws ∧ getServiceFromUri (cstr [47,97]) [ws] = none) := by
  decide

end Duda.UriMemory
