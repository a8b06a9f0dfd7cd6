import Duda.RouterRoundTrip
import Duda.UriMemory

/-!
# Which route a request selects

A router list is what a sequence of `duda_router_map` calls builds. On its
dynamic routes the match flag of the lookup is only written by keys; on its
static routes with a final slash a URI is redirected after a comparison that
leaves out the last byte of the pattern and a bound on the length of the URI.
-/

set_option autoImplicit false

namespace Duda.RouterSelect
open Duda.CString Duda.MonkeyString Duda.Router Duda.RouterParse Duda.RouterRoundTrip
open Duda.Segments Duda.UriMemory

/-- The lists that calls of `duda_router_map` build. -/
inductive Registered (mk : MkString) : List RouterPath → Prop
  | empty : Registered mk []
  | map {paths paths' : List RouterPath} (h : Registered mk paths) (pattern : Option Text)
      (callback : ℕ) (r : ℤ)
      (hmap : routerMap mk paths (pattern.map Text.bytes) callback = some (paths',r)) :
      Registered mk paths'

def dynamicPath (pattern : Text) (callback : ℕ) : RouterPath :=
  { routerNewPath pattern.bytes callback routerDynamic with
    fields := ((segments slash pattern.bytes).map line).map routerField }

/-- What a call of `duda_router_map` adds. -/
theorem map_cases (mk : MkString) (paths paths' : List RouterPath) (pattern : Option Text)
    (callback : ℕ) (r : ℤ)
    (h : routerMap mk paths (pattern.map Text.bytes) callback = some (paths',r)) :
    paths' = paths ∨ ∃ t : Text, paths' = paths++[routerNewPath t.bytes callback routerStatic] ∨
      paths' = paths++[dynamicPath t callback] := by
  cases pattern with
  | none =>
    cases h
    exact .inl rfl
  | some t =>
    simp only [Option.map_some, routerMap, routerMapWith, routerAddDynamic, routerAddStatic,
      splitPattern_spec] at h
    split_ifs at h
    · cases h
      exact .inl rfl
    · cases h
      exact .inl rfl
    · cases h
      exact .inr ⟨t,.inr rfl⟩
    · cases h
      exact .inr ⟨t,.inl rfl⟩

theorem registered_cases (mk : MkString) (paths : List RouterPath) (h : Registered mk paths) :
    ∀ p ∈ paths, ∃ (t : Text) (callback : ℕ),
      p = routerNewPath t.bytes callback routerStatic ∨ p = dynamicPath t callback := by
  induction h with
  | empty =>
    intro p hp
    cases hp
  | map _ pattern callback r hmap ih =>
    intro p hp
    rcases map_cases mk _ _ pattern callback r hmap with rfl | ⟨t,rfl | rfl⟩
    · exact ih p hp
    · rcases List.mem_append.mp hp with hp | hp
      · exact ih p hp
      · exact ⟨t,callback,.inl (List.mem_singleton.mp hp)⟩
    · rcases List.mem_append.mp hp with hp | hp
      · exact ih p hp
      · exact ⟨t,callback,.inr (List.mem_singleton.mp hp)⟩

section Dynamic

/-- The URI has a segment for each field, and the one of a key is the key. -/
def Agrees (fields : List RouterField) (texts : List (List UInt8)) : Prop :=
  fields.length ≤ texts.length ∧
    ∀ (i : ℕ) (f : RouterField), fields[i]? = some f → f.type = routerFkey →
      texts[i]? = some f.name

theorem agrees_iff (fields : List RouterField) (texts : List (List UInt8)) :
    Agrees fields texts ↔ Matches fields texts := by
  induction fields generalizing texts with
  | nil => simp [Agrees, Matches]
  | cons f fields ih =>
    cases texts with
    | nil => simp [Agrees, Matches]
    | cons t texts =>
      rw [Matches, ← ih texts, Agrees, Agrees, List.length_cons, List.length_cons]
      constructor
      · rintro ⟨hlen,hkey⟩
        refine ⟨fun hf => ?_,by omega,fun i g hg => hkey (i+1) g hg⟩
        exact Option.some.inj (hkey 0 f rfl hf)
      · rintro ⟨hhead,hlen,hkey⟩
        refine ⟨by omega,fun i g hg hf => ?_⟩
        cases i with
        | zero =>
          cases hg
          rw [List.getElem?_cons_zero, hhead hf]
        | succ i => exact hkey i g hg hf

theorem dynamic_wellFormed (t : Text) (callback : ℕ) :
    ∀ f ∈ (dynamicPath t callback).fields, WellFormed f := by
  intro f hf
  simp only [dynamicPath, List.map_map] at hf
  obtain ⟨s,hs,rfl⟩ := List.mem_map.mp hf
  refine ⟨rfl,fun h0 => t.nulFree (segments_mem slash 0 t.bytes s hs h0),?_⟩
  simp only [Function.comp, routerField]
  split_ifs
  · exact .inr rfl
  · exact .inl rfl

theorem dynamic_selected (t : Text) (callback : ℕ) (uri : ℕ → UInt8) (uri_len : ℕ)
    (ruri : List UriField) :
    routerPathLookup uri uri_len ruri [dynamicPath t callback] =
        ⟨routerMatch,some (dynamicPath t callback)⟩ ↔
      Agrees (dynamicPath t callback).fields (uriTexts uri ruri) ∧
        ∃ f ∈ (dynamicPath t callback).fields, f.type = routerFkey := by
  have hloop := fieldLoop_iff uri ruri (dynamicPath t callback).fields 0 false (Nat.zero_le _)
    (dynamic_wellFormed t callback)
  simp only [Bool.false_eq_true, false_or, List.drop_zero] at hloop
  have hstatic : ¬routerDynamic = routerStatic := by decide
  have htype : (dynamicPath t callback).type = routerDynamic := rfl
  rw [agrees_iff, ← hloop]
  simp only [routerPathLookup, htype, if_neg hstatic, if_true]
  constructor
  · intro h
    by_contra hno
    rw [if_neg hno] at h
    simp at h
  · intro h
    rw [if_pos h]

end Dynamic

/-- A dynamic route is selected by the URIs that agree with its keys exactly
when it has a key, or the URI does not agree. -/
theorem dynamic_selects_iff (mk : MkString) (paths : List RouterPath) (hreg : Registered mk paths)
    (p : RouterPath) (hp : p ∈ paths) (hdyn : p.type = routerDynamic) (uri : ℕ → UInt8)
    (uri_len : ℕ) (ruri : List UriField) :
    (routerPathLookup uri uri_len ruri [p] = ⟨routerMatch,some p⟩ ↔
        Agrees p.fields (uriTexts uri ruri)) ↔
      ((∃ f ∈ p.fields, f.type = routerFkey) ∨ ¬Agrees p.fields (uriTexts uri ruri)) := by
  obtain ⟨t,callback,rfl | rfl⟩ := registered_cases mk paths hreg p hp
  · have hstatic : ¬routerStatic = routerDynamic := by decide
    exact absurd hdyn hstatic
  · rw [dynamic_selected]
    by_cases ha : Agrees (dynamicPath t callback).fields (uriTexts uri ruri)
    · simp [ha]
    · simp [ha]

/-- The route `/k/:n`. -/
def keyedRoute : Text := ⟨[47,107,47,58,110],by decide⟩

/-- The route `/:n`. -/
def variableRoute : Text := ⟨[47,58,110],by decide⟩

theorem keyed_registered : Registered plainString [dynamicPath keyedRoute 1] :=
  .map .empty (some keyedRoute) 1 0 (by decide +kernel)

theorem variable_registered : Registered plainString [dynamicPath variableRoute 1] :=
  .map .empty (some variableRoute) 1 0 (by decide +kernel)

/-- `/k/x` selects `/k/:n`. -/
theorem dynamic_selects_keyed :
    routerPathLookup (cstr [47,107,47,120]) 4 [⟨1,1⟩,⟨3,1⟩] [dynamicPath keyedRoute 1] =
      ⟨routerMatch,some (dynamicPath keyedRoute 1)⟩ :=
  ((dynamic_selects_iff plainString _ keyed_registered _ (List.mem_singleton_self _) rfl
    (cstr [47,107,47,120]) 4 [⟨1,1⟩,⟨3,1⟩]).mpr (.inl (by decide +kernel))).mpr
      ((agrees_iff _ _).mpr ⟨by decide +kernel,by decide +kernel,trivial⟩)

/-- `/x` agrees with `/:n`, but nothing is found. -/
theorem variable_never_selected :
    Registered plainString [dynamicPath variableRoute 1] ∧
    routerUriParse (cstr [47,120]) 2 = some [⟨1,1⟩] ∧
    Agrees (dynamicPath variableRoute 1).fields (uriTexts (cstr [47,120]) [⟨1,1⟩]) ∧
    routerPathLookup (cstr [47,120]) 2 [⟨1,1⟩] [dynamicPath variableRoute 1] =
      ⟨routerNotfound,none⟩ :=
  ⟨variable_registered,by decide +kernel,(agrees_iff _ _).mpr ⟨by decide +kernel,trivial⟩,
    by decide +kernel⟩

/-- The lookup finds nothing before the route, and redirects there. -/
def RedirectedBy (uri : ℕ → UInt8) (uri_len : ℕ) (ruri : List UriField) (paths : List RouterPath)
    (p : RouterPath) : Prop :=
  ∃ before after, paths = before++p::after ∧
    (routerPathLookup uri uri_len ruri before).ret = routerNotfound ∧
    routerPathLookup uri uri_len ruri (before++[p]) = ⟨routerRedirect,none⟩

/-- The location of the redirection is matched by the route, in any memory. -/
def ServesLocation (u : List UInt8) (p : RouterPath) : Prop :=
  ∀ (rest : ℕ → UInt8) (ruri : List UriField),
    routerPathLookup (layout (u++[slash]) rest) (u.length+1) ruri [p] = ⟨routerMatch,some p⟩

section Redirection

variable (uri : ℕ → UInt8) (uri_len : ℕ) (ruri : List UriField)

theorem redirected_answer (paths : List RouterPath) (p : RouterPath)
    (h : RedirectedBy uri uri_len ruri paths p) :
    p ∈ paths ∧ ruleAnswer uri uri_len ruri p = some ⟨routerRedirect,none⟩ := by
  obtain ⟨before,after,rfl,hbefore,hlookup⟩ := h
  have hnone := (notfound_iff uri uri_len ruri before).mp hbefore
  rw [lookup_findSome, List.findSome?_append, hnone, Option.none_or] at hlookup
  refine ⟨by simp,?_⟩
  cases ha : ruleAnswer uri uri_len ruri p with
  | none => simp [ha, routerNotfound, routerRedirect] at hlookup
  | some r => simpa [ha] using hlookup

/-- A redirection always comes from one of the routes. -/
theorem redirect_because (paths : List RouterPath)
    (h : (routerPathLookup uri uri_len ruri paths).ret = routerRedirect) :
    ∃ p, RedirectedBy uri uri_len ruri paths p := by
  obtain ⟨before,p,after,hpaths,hbefore,hp,hlookup⟩ := lookup_answered uri uri_len ruri paths
    (by simp [h, routerRedirect, routerNotfound])
  have hr : routerPathLookup uri uri_len ruri paths = ⟨routerRedirect,none⟩ := by
    rcases ruleAnswer_some uri uri_len ruri p _ hp with hr | hr
    · exact hr
    · simp [hr, routerMatch, routerRedirect] at h
  exact ⟨p,before,after,hpaths,hbefore,hlookup.trans hr⟩

end Redirection

section Location

variable (u : List UInt8) (rest : ℕ → UInt8) (ruri : List UriField) (t : Text) (callback : ℕ)

theorem final_slash (π : List UInt8) (h : cstr π (π.length-1) = slash) :
    π = π.take (π.length-1)++[slash] := by
  rcases List.eq_nil_or_concat π with rfl | ⟨stem,c,rfl⟩
  · exact absurd h (by decide)
  · have hc : c = slash := by simpa [cstr] using h
    simp [hc]

theorem static_redirects (h : ruleAnswer (layout u rest) u.length ruri
      (routerNewPath t.bytes callback routerStatic) = some ⟨routerRedirect,none⟩) :
    ∃ stem, t.bytes = stem++[slash] ∧ slice (layout u rest) stem.length = stem ∧
      u.length ≤ t.bytes.length ∧ slice (layout u rest) t.bytes.length ≠ t.bytes := by
  have htype : (routerNewPath t.bytes callback routerStatic).type = routerStatic := rfl
  rw [ruleAnswer, if_pos htype] at h
  simp only [routerNewPath, decide_eq_true_eq, strncmp_part _ t.bytes t.nulFree, strncmp_text] at h
  split_ifs at h with hfull hpart
  · simp [routerMatch, routerRedirect] at h
  · exact ⟨_,final_slash t.bytes hpart.1,hpart.2.1,hpart.2.2,hfull⟩

theorem serves_iff : ServesLocation u (routerNewPath t.bytes callback routerStatic) ↔
    ∀ rest : ℕ → UInt8, slice (layout (u++[slash]) rest) t.bytes.length = t.bytes := by
  have hrun : ∀ (rest : ℕ → UInt8) (ruri : List UriField),
      routerPathLookup (layout (u++[slash]) rest) (u.length+1) ruri
          [routerNewPath t.bytes callback routerStatic] =
        ⟨routerMatch,some (routerNewPath t.bytes callback routerStatic)⟩ ↔
      slice (layout (u++[slash]) rest) t.bytes.length = t.bytes := by
    intro rest ruri
    rw [← strncmp_text t]
    have htype : (routerNewPath t.bytes callback routerStatic).type = routerStatic := rfl
    have hpattern : (routerNewPath t.bytes callback routerStatic).pattern = t.bytes := rfl
    have hlen : (routerNewPath t.bytes callback routerStatic).pattern_len = t.bytes.length := rfl
    simp only [routerPathLookup, htype, if_true, hpattern, hlen]
    constructor
    · intro h
      by_contra hno
      rw [if_neg hno] at h
      split_ifs at h <;> simp at h
    · intro h
      rw [if_pos h]
  constructor
  · exact fun h rest => (hrun rest []).mp (h rest [])
  · exact fun h rest ruri => (hrun rest ruri).mpr (h rest)

variable {u rest}

/-- A pattern that is one byte longer than the URI is the URI with a slash. -/
theorem pattern_is_location (stem : List UInt8) (hstem : t.bytes = stem++[slash])
    (hslice : slice (layout u rest) stem.length = stem) :
    t.bytes = u++[slash] ↔ t.bytes.length = u.length+1 := by
  constructor
  · intro h
    rw [h, List.length_append, List.length_singleton]
  · intro h
    have hlen : stem.length = u.length := by
      rw [hstem, List.length_append, List.length_singleton] at h
      omega
    rw [hlen, slice_take u rest u.length le_rfl, List.take_length] at hslice
    rw [hstem, hslice]

theorem location_served (hle : u.length ≤ t.bytes.length)
    (hnot : slice (layout u rest) t.bytes.length ≠ t.bytes)
    (h : ∀ rest : ℕ → UInt8, slice (layout (u++[slash]) rest) t.bytes.length = t.bytes) :
    t.bytes.length = u.length+1 := by
  have hlen : (u++[slash]).length = u.length+1 := by simp
  by_contra hne
  by_cases hlong : u.length+1 < t.bytes.length
  · exact slice_differs (u++[slash]) t.bytes (by omega) (h _)
  · have heq : t.bytes.length = u.length := by omega
    have hloc := h rest
    rw [heq, slice_take _ _ _ (by omega), List.take_left] at hloc
    rw [heq, slice_take _ _ _ le_rfl, List.take_length] at hnot
    exact hnot hloc

end Location

/-- A redirection comes from a route; the route has the URI with a slash as its
pattern exactly when the pattern is one byte longer than the URI, and exactly
then it serves the location. -/
theorem redirect_exact_iff (mk : MkString) (paths : List RouterPath) (hreg : Registered mk paths)
    (u : List UInt8) (rest : ℕ → UInt8) (ruri : List UriField) :
    ((routerPathLookup (layout u rest) u.length ruri paths).ret = routerRedirect →
      ∃ p, RedirectedBy (layout u rest) u.length ruri paths p) ∧
    ∀ p, RedirectedBy (layout u rest) u.length ruri paths p →
      (p.pattern = u++[slash] ↔ p.pattern.length = u.length+1) ∧
        (ServesLocation u p ↔ p.pattern.length = u.length+1) := by
  refine ⟨redirect_because _ _ ruri paths,fun p h => ?_⟩
  obtain ⟨hp,hanswer⟩ := redirected_answer _ _ ruri paths p h
  obtain ⟨t,callback,rfl | rfl⟩ := registered_cases mk paths hreg p hp
  · obtain ⟨stem,hstem,hslice,hle,hnot⟩ := static_redirects u rest ruri t callback hanswer
    have hpattern := pattern_is_location t stem hstem hslice
    refine ⟨hpattern,?_⟩
    rw [serves_iff]
    constructor
    · exact location_served t hle hnot
    · intro hlen rest'
      change t.bytes.length = u.length+1 at hlen
      rw [hpattern.mpr hlen, slice_take _ _ _ le_rfl, List.take_length]
  · have hstatic : ¬routerDynamic = routerStatic := by decide
    have htype : (dynamicPath t callback).type = routerDynamic := rfl
    rw [ruleAnswer, htype, if_neg hstatic, if_pos rfl] at hanswer
    split_ifs at hanswer
    simp [routerMatch, routerRedirect] at hanswer

/-- The route `/a/`. -/
def slashRoute : Text := ⟨[47,97,47],by decide⟩

theorem slash_registered :
    Registered plainString [routerNewPath slashRoute.bytes 1 routerStatic] :=
  .map .empty (some slashRoute) 1 0 (by decide +kernel)

/-- `/a` is redirected to `/a/`, which the route serves. -/
theorem redirect_exact_slash :
    RedirectedBy (cstr [47,97]) 2 [] [routerNewPath slashRoute.bytes 1 routerStatic]
        (routerNewPath slashRoute.bytes 1 routerStatic) ∧
      ServesLocation [47,97] (routerNewPath slashRoute.bytes 1 routerStatic) := by
  have h : RedirectedBy (layout [47,97] (fun _ => 0)) 2 []
      [routerNewPath slashRoute.bytes 1 routerStatic]
      (routerNewPath slashRoute.bytes 1 routerStatic) :=
    ⟨[],[],rfl,rfl,by decide +kernel⟩
  have hserves := ((redirect_exact_iff plainString _ slash_registered [47,97] (fun _ => 0) []).2
    _ h).2
  exact ⟨h,hserves.mpr (by decide)⟩

/-- `/ab` is redirected to `/ab/` by the route `/a/`, which does not serve it. -/
theorem redirect_not_served :
    Registered plainString [routerNewPath slashRoute.bytes 1 routerStatic] ∧
    RedirectedBy (cstr [47,97,98]) 3 [] [routerNewPath slashRoute.bytes 1 routerStatic]
      (routerNewPath slashRoute.bytes 1 routerStatic) ∧
    routerPathLookup (cstr [47,97,98,47]) 4 [] [routerNewPath slashRoute.bytes 1 routerStatic] =
      ⟨routerNotfound,none⟩ :=
  ⟨slash_registered,⟨[],[],rfl,rfl,by decide +kernel⟩,by decide +kernel⟩

end Duda.RouterSelect
