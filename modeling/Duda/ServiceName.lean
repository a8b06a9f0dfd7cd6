import Duda.ServiceConf

/-!
# The two names of a service

A configured service stores its name twice. Renaming changes one copy, the one
that selects the service; the request for its root is recognised by the other.
-/

set_option autoImplicit false

namespace Duda.ServiceName
open Duda.CString Duda.Router Duda.ServiceConf Duda.ServiceLookup

/-- The service after a sequence of `duda_conf_service_name` calls. -/
def renamed (ws : WebService) (names : List Text) : WebService := names.foldl confServiceName ws

/-- The URIs `/n` and `/n/`. -/
def ownUris (n : Text) : List (List UInt8) := [slash::n.bytes,slash::(n.bytes++[slash])]

/-- The service, alone in its host, is selected for the URI, and the request
is one for its root, whatever stands behind the URI. -/
def Recognised (ws : WebService) (u : List UInt8) : Prop :=
  ∀ rest, getServiceFromUri (layout u rest) [ws] = some ws ∧
    isRequestRoot (layout u rest) u.length ws = true

def Ignored (ws : WebService) (u : List UInt8) : Prop :=
  ∀ rest, getServiceFromUri (layout u rest) [ws] = none ∧
    isRequestRoot (layout u rest) u.length ws = false

/-- The URIs of the current name belong to the service, those of the names it
no longer has do not. -/
def NamesAgree (ws : WebService) (names : List Text) : Prop :=
  (∀ u ∈ ownUris (renamed ws names).name, Recognised (renamed ws names) u) ∧
  ∀ n ∈ ws.name::names, n ≠ (renamed ws names).name →
    ∀ u ∈ ownUris n, Ignored (renamed ws names) u

/-- Neither name starts with the other. -/
def Apart (a b : Text) : Prop := ¬a.bytes <+: b.bytes ∧ ¬b.bytes <+: a.bytes

theorem renamed_fields (ws : WebService) (names : List Text) :
    (renamed ws names).name = names.getLastD ws.name ∧
      (renamed ws names).fixedName = ws.fixedName ∧ (renamed ws names).isRoot = ws.isRoot := by
  induction names generalizing ws with
  | nil => exact ⟨rfl,rfl,rfl⟩
  | cons n names ih =>
    obtain ⟨hname,hfixed,hroot⟩ := ih (confServiceName ws n)
    rw [renamed, List.foldl_cons]
    refine ⟨?_,hfixed,hroot⟩
    rw [List.getLastD_cons]
    exact hname

theorem selected_iff (ws : WebService) (uri : ℕ → UInt8) :
    getServiceFromUri uri [ws] = some ws ↔ Follows uri ws := by
  simp [getServiceFromUri, name_follows_iff]

theorem ignored_iff (ws : WebService) (uri : ℕ → UInt8) :
    getServiceFromUri uri [ws] = none ↔ ¬Follows uri ws := by
  simp [getServiceFromUri, name_follows_iff]

theorem behind_slash (v : List UInt8) (rest : ℕ → UInt8) :
    offset (layout (slash::v) rest) 1 = layout v (offset rest 1) :=
  offset_layout (slash::v) rest

section Comparison

variable (v : List UInt8) (rest : ℕ → UInt8)

theorem root_iff (ws : WebService) (hr : ws.isRoot = false) :
    isRequestRoot (layout (slash::v) rest) (slash::v).length ws = true ↔
      slice (layout v (offset rest 1)) ws.fixedName.bytes.length = ws.fixedName.bytes ∧
      (v.length = ws.fixedName.bytes.length ∨
        (layout v (offset rest 1) ws.fixedName.bytes.length = slash ∧
          v.length ≤ ws.fixedName.bytes.length+1)) := by
  have hbyte : layout (slash::v) rest (ws.fixedName.bytes.length+1) =
      layout v (offset rest 1) ws.fixedName.bytes.length := by
    rw [← behind_slash v rest, offset, Nat.add_comm]
  have hlen : ((slash::v).length:ℤ)-1 = ws.fixedName.bytes.length ↔
      v.length = ws.fixedName.bytes.length := by
    rw [List.length_cons]
    omega
  have hcmp := strncmp_text ws.fixedName (layout v (offset rest 1))
  simp only [isRequestRoot, hr, Bool.false_eq_true, false_and, if_false, true_and, behind_slash,
    hbyte, hlen]
  by_cases h : slice (layout v (offset rest 1)) ws.fixedName.bytes.length = ws.fixedName.bytes
  · rw [if_pos (hcmp.mpr h), decide_eq_true_eq]
    simp [h]
  · rw [if_neg (fun he => h (hcmp.mp he))]
    simp [h]

end Comparison

theorem apart_not_found (o c : Text) (h : Apart o c) (tail : List UInt8)
    (ht : tail = [] ∨ tail = [slash]) (rest : ℕ → UInt8) :
    slice (layout (o.bytes++tail) rest) c.bytes.length ≠ c.bytes := by
  intro he
  by_cases hl : c.bytes.length ≤ o.bytes.length
  · have hp : c.bytes <+: o.bytes++tail :=
      (slice_inside _ _ rest (by rw [List.length_append]; omega)).mp he
    exact h.2 (List.prefix_of_prefix_length_le hp (List.prefix_append _ _) hl)
  · have hlong : (o.bytes++tail).length ≤ c.bytes.length := by
      rcases ht with rfl | rfl
      · rw [List.append_nil]
        omega
      · rw [List.length_append, List.length_singleton]
        omega
    exact h.1 ((List.prefix_append _ _).trans (slice_beyond _ _ rest hlong he))

section Recognition

variable (ws : WebService) (hr : ws.isRoot = false)
include hr

theorem own_recognised (hn : ws.fixedName = ws.name) : ∀ u ∈ ownUris ws.name, Recognised ws u := by
  have hroot := fun v rest => root_iff v rest ws hr
  have hpart : ∀ tail rest, slice (layout (ws.name.bytes++tail) rest) ws.name.bytes.length =
      ws.name.bytes := fun tail rest =>
    (slice_inside _ _ rest (by simp)).mpr (List.prefix_append _ _)
  intro u hu rest
  rw [selected_iff, Follows]
  rcases List.mem_pair.mp hu with rfl | rfl
  · have hself := hpart [] (offset rest 1)
    rw [List.append_nil] at hself
    rw [behind_slash, hroot, hn]
    exact ⟨hself,hself,.inl rfl⟩
  · rw [behind_slash, hroot, hn]
    refine ⟨hpart _ _,hpart _ _,.inr ⟨?_,by simp⟩⟩
    simp [layout]

/-- Both URIs are classified as the root only where the copies agree. -/
theorem recognised_same (h : ∀ u ∈ ownUris ws.name, Recognised ws u) : ws.fixedName = ws.name := by
  have hone := (root_iff _ _ ws hr).mp (h _ (List.mem_pair.mpr (.inl rfl)) (fun _ => 0)).2
  have htwo := (root_iff _ _ ws hr).mp (h _ (List.mem_pair.mpr (.inr rfl)) (fun _ => 0)).2
  have hin := zeros_inside ws.name.bytes ws.fixedName.bytes ws.fixedName.nulFree hone.1
  have hlen : ws.fixedName.bytes.length = ws.name.bytes.length := by
    have hsecond := htwo.2
    rw [List.length_append, List.length_singleton] at hsecond
    omega
  have hpre := (slice_inside _ _ _ hin).mp hone.1
  exact text_ext (hpre.eq_of_length hlen)

theorem former_ignored_iff (hn : ws.fixedName = ws.name) (o : Text) :
    (∀ u ∈ ownUris o, Ignored ws u) ↔ Apart o ws.name := by
  constructor
  · intro h
    have hone := h _ (List.mem_pair.mpr (.inl rfl))
    constructor
    · intro hp
      have hfar := (hone (fun i => cstr ws.name.bytes (i-1))).1
      rw [ignored_iff, Follows, behind_slash, offset_shift] at hfar
      exact hfar (slice_extended _ _ hp)
    · intro hp
      have hnear := (hone (fun _ => 0)).1
      rw [ignored_iff, Follows, behind_slash] at hnear
      exact hnear ((slice_inside _ _ _ hp.length_le).mpr hp)
  · intro ha u hu rest
    have hmiss : ∀ tail, tail = [] ∨ tail = [slash] →
        getServiceFromUri (layout (slash::(o.bytes++tail)) rest) [ws] = none ∧
        isRequestRoot (layout (slash::(o.bytes++tail)) rest) (slash::(o.bytes++tail)).length ws =
          false := by
      intro tail ht
      have hno := apart_not_found o ws.name ha tail ht (offset rest 1)
      constructor
      · rw [ignored_iff, Follows, behind_slash]
        exact hno
      · rw [← Bool.not_eq_true, root_iff _ _ ws hr, hn]
        exact fun he => hno he.1
    rcases List.mem_pair.mp hu with rfl | rfl
    · simpa using hmiss [] (.inl rfl)
    · exact hmiss [slash] (.inr rfl)

end Recognition

/-- Selection and root test agree on a renamed service exactly when it ends up
with its configured name, and every other name it had is apart from that. -/
theorem names_agree_iff (isDirectory : List UInt8 → Bool) (node : ℕ) (name : Text)
    (sec : ConfSection) (ws : Service) (h : initService isDirectory node name sec = .ok ws)
    (hr : sec.app_is_root ≠ mkTrue) (names : List Text) :
    NamesAgree ws.routing names ↔
      names.getLastD name = name ∧ ∀ n ∈ names, n ≠ name → Apart n name := by
  have hws : ws.routing = ⟨name,name,false⟩ := by
    rw [(initService_spec isDirectory node name sec ws h).2, decide_eq_false hr]
  obtain ⟨hname,hfixed,hroot⟩ := renamed_fields ws.routing names
  rw [hws] at hname hfixed hroot
  simp only [NamesAgree, hws]
  generalize renamed ⟨name,name,false⟩ names = cur at hname hfixed hroot
  have hname : cur.name = names.getLastD name := hname
  have hfixed : cur.fixedName = name := hfixed
  constructor
  · rintro ⟨hown,hformer⟩
    have hsame := recognised_same cur hroot hown
    have hcur : cur.name = name := hsame ▸ hfixed
    refine ⟨hname ▸ hcur,fun n hn hne => ?_⟩
    have hignored := hformer n (List.mem_cons_of_mem _ hn) (hcur ▸ hne)
    exact hcur ▸ (former_ignored_iff cur hroot hsame n).mp hignored
  · rintro ⟨hlast,hapart⟩
    have hcur : cur.name = name := hname.trans hlast
    have hsame : cur.fixedName = cur.name := hfixed.trans hcur.symm
    refine ⟨own_recognised cur hroot hsame,fun n hn hne => ?_⟩
    rw [hcur] at hne
    rw [former_ignored_iff cur hroot hsame, hcur]
    rcases List.mem_cons.mp hn with rfl | hn
    · exact absurd rfl hne
    · exact hapart n hn hne

theorem letter_nulFree : (0:UInt8) ∉ [97] := by decide

/-- The section of an enabled service `a` that is not the root. -/
def plainSection : ConfSection where
  name := webServiceName
  app_name := some ⟨[97],letter_nulFree⟩
  app_enabled := mkTrue
  app_is_root := mkFalse
  app_docroot := none
  app_confdir := none
  app_datadir := none
  app_logdir := none

theorem renamed_back_agrees :
    NamesAgree (newService 0 ⟨[97],by decide⟩ plainSection).routing
      [⟨[98],by decide⟩,⟨[97],by decide⟩] := by
  apply (names_agree_iff (fun _ => true) 0 ⟨[97],by decide⟩ plainSection _ rfl (by decide)
    [⟨[98],by decide⟩,⟨[97],by decide⟩]).mpr
  refine ⟨rfl,?_⟩
  intro n hn hne
  rcases List.mem_pair.mp hn with rfl | rfl
  · exact ⟨by decide,by decide⟩
  · exact absurd rfl hne

/-- The service `a`, renamed to `b`: `/b` selects it and is no request for its
root, and `/a` is one still. -/
theorem renamed_root_request :
    let ws := renamed (newService 0 ⟨[97],by decide⟩ plainSection).routing [⟨[98],by decide⟩]
    getServiceFromUri (cstr [47,98]) [ws] = some ws ∧ isRequestRoot (cstr [47,98]) 2 ws = false ∧
      isRequestRoot (cstr [47,97]) 2 ws = true ∧
      ¬NamesAgree (newService 0 ⟨[97],by decide⟩ plainSection).routing [⟨[98],by decide⟩] := by
  refine ⟨by decide,by decide,by decide,?_⟩
  intro h
  have hroot := (h.1 [47,98] (List.mem_pair.mpr (.inl rfl)) (fun _ => 0)).2
  revert hroot
  decide

end Duda.ServiceName
