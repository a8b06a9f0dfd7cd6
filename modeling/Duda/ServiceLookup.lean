import Duda.Router

/-!
# The web service of a URI

The services of a virtual host are tried in their order, and a service is
taken when the bytes behind the first slash start with its name. The length of
the first segment of the URI plays no part in that.
-/

set_option autoImplicit false

namespace Duda.ServiceLookup
open Duda.CString Duda.Router

/-- `struct web_service`, as far as routing uses it. -/
structure WebService where
  name : Text
  fixedName : Text
  isRoot : Bool
  deriving DecidableEq, Repr

/-- `duda_get_service_from_uri`. -/
def getServiceFromUri (uri : ℕ → UInt8) : List WebService → Option WebService
  | [] => none
  | ws::services =>
    if strncmpZero (cstr ws.name.bytes) (offset uri 1) ws.name.bytes.length then some ws
    else getServiceFromUri uri services

/-- `duda_router_is_request_root`. -/
def isRequestRoot (uri : ℕ → UInt8) (uri_len : ℕ) (ws : WebService) : Bool :=
  let ws_len := ws.fixedName.bytes.length
  if ws.isRoot = true ∧ uri_len = 1 then true
  else if ws.isRoot = false ∧
      strncmpZero (offset uri 1) (cstr ws.fixedName.bytes) ws_len = true then
    decide ((uri_len:ℤ)-1 = ws_len ∨ (uri (ws_len+1) = slash ∧ uri_len ≤ ws_len+2))
  else false

/-- The memory behind the first byte of the URI starts with the name. -/
def Follows (uri : ℕ → UInt8) (ws : WebService) : Prop :=
  slice (offset uri 1) ws.name.bytes.length = ws.name.bytes

instance (uri : ℕ → UInt8) (ws : WebService) : Decidable (Follows uri ws) :=
  inferInstanceAs (Decidable (_ = _))

theorem name_follows_iff (uri : ℕ → UInt8) (ws : WebService) :
    strncmpZero (cstr ws.name.bytes) (offset uri 1) ws.name.bytes.length = true ↔
      Follows uri ws := by
  rw [strncmp_comm, strncmp_text]
  rfl

theorem getService_find (uri : ℕ → UInt8) (services : List WebService) :
    getServiceFromUri uri services = services.find? (fun ws => decide (Follows uri ws)) := by
  induction services with
  | nil => rfl
  | cons ws services ih =>
    simp only [getServiceFromUri, name_follows_iff, List.find?_cons]
    by_cases h : Follows uri ws
    · simp [h]
    · simp [h, ih]

/-- The request for `/seg`, or for `/seg/...`, goes to a service of that name
and to none when there is none. -/
structure SelectsByName (uri : ℕ → UInt8) (services : List WebService) (seg : List UInt8) :
    Prop where
  found : (∃ ws, getServiceFromUri uri services = some ws) ↔
    ∃ ws ∈ services, ws.name.bytes = seg
  named : ∀ ws, getServiceFromUri uri services = some ws → ws.name.bytes = seg

/-- No service that stands before the first one of the name is followed by the
memory behind the slash. -/
def NoEarlierPart (uri : ℕ → UInt8) (services : List WebService) (seg : List UInt8) : Prop :=
  ∀ before ws after, services = before++ws::after →
    (∀ earlier ∈ before, earlier.name.bytes ≠ seg) → ws.name.bytes ≠ seg → ¬Follows uri ws

theorem segment_follows (seg tail : List UInt8) (rest : ℕ → UInt8) (ws : WebService)
    (h : ws.name.bytes = seg) : Follows (layout (slash::(seg++tail)) rest) ws := by
  rw [Follows, h]
  exact slice_layout [slash] seg tail rest

/-- The service found is the first that follows, so it has the name exactly
when nothing else follows before. -/
theorem service_by_name_iff (services : List WebService) (seg tail : List UInt8)
    (rest : ℕ → UInt8) :
    SelectsByName (layout (slash::(seg++tail)) rest) services seg ↔
      NoEarlierPart (layout (slash::(seg++tail)) rest) services seg := by
  have hseg := segment_follows seg tail rest
  generalize layout (slash::(seg++tail)) rest = uri at hseg
  constructor
  · intro h before ws after hs hb hne hf
    have hg : getServiceFromUri uri services =
        (before.find? (fun ws => decide (Follows uri ws))).or (some ws) := by
      rw [getService_find, hs, List.find?_append, List.find?_cons_of_pos (by simp [hf])]
    cases hfirst : before.find? (fun ws => decide (Follows uri ws)) with
    | none =>
      rw [hfirst] at hg
      exact hne (h.named ws hg)
    | some x =>
      rw [hfirst] at hg
      exact hb x (List.mem_of_find?_eq_some hfirst) (h.named x hg)
  · intro h
    have hnamed : ∀ ws, getServiceFromUri uri services = some ws → ws.name.bytes = seg := by
      intro ws hg
      rw [getService_find, List.find?_eq_some_iff_append] at hg
      obtain ⟨hf,before,after,hs,hb⟩ := hg
      by_contra hne
      apply h before ws after hs _ hne (by simpa using hf)
      intro earlier he hname
      have := hb earlier he
      simp [hseg earlier hname] at this
    refine ⟨⟨?_,?_⟩,hnamed⟩
    · rintro ⟨ws,hg⟩
      refine ⟨ws,?_,hnamed ws hg⟩
      rw [getService_find] at hg
      exact List.mem_of_find?_eq_some hg
    · rintro ⟨ws,hm,hname⟩
      rw [getService_find, ← Option.isSome_iff_exists, List.find?_isSome]
      exact ⟨ws,hm,by simp [hseg ws hname]⟩

/-- The service `ab` stands before `abc`, and a request for `/abc` goes to
`ab`; a request for `/abc` goes to `ab` as well when it is the only one. -/
theorem part_selected :
    getServiceFromUri (cstr [47,97,98,99])
        [⟨⟨[97,98],by decide⟩,⟨[97,98],by decide⟩,false⟩,
          ⟨⟨[97,98,99],by decide⟩,⟨[97,98,99],by decide⟩,false⟩] =
      some ⟨⟨[97,98],by decide⟩,⟨[97,98],by decide⟩,false⟩ ∧
    getServiceFromUri (cstr [47,97,98,99]) [⟨⟨[97,98],by decide⟩,⟨[97,98],by decide⟩,false⟩] =
      some ⟨⟨[97,98],by decide⟩,⟨[97,98],by decide⟩,false⟩ := by
  decide

end Duda.ServiceLookup
