import Mathlib.Tactic

/-!
# Fields joined by a separator

Two fields with a separator behind each, in front of a rest. Where the fields
do not hold the separator, they are determined by any text that starts with
them, and any text with two separators starts with two such fields.
-/

set_option autoImplicit false

namespace Duda.DelimitedFields

variable {α : Type*} (sep : α)

def fields (a b : List α) : List α := a++sep::(b++[sep])

variable {sep}

theorem fields_length (a b : List α) : (fields sep a b).length = a.length+b.length+2 := by
  simp [fields]
  omega

theorem fields_append (a b r : List α) : fields sep a b++r = a++sep::(b++sep::r) := by
  simp [fields]

theorem first_field (a c x y : List α) (ha : sep ∉ a) (hc : sep ∉ c)
    (h : c++sep::x <+: a++sep::y) : c = a ∧ x <+: y := by
  induction c generalizing a with
  | nil =>
    cases a with
    | nil => exact ⟨rfl,(List.cons_prefix_cons.mp h).2⟩
    | cons e a =>
      exact absurd (List.cons_prefix_cons.mp h).1 (fun he => ha (he ▸ List.mem_cons_self ..))
  | cons d c ih =>
    cases a with
    | nil => exact absurd (List.cons_prefix_cons.mp h).1 (fun he => hc (he ▸ List.mem_cons_self ..))
    | cons e a =>
      obtain ⟨hhead,hrest⟩ := List.cons_prefix_cons.mp h
      have htail := ih a (fun hm => ha (List.mem_cons_of_mem _ hm))
        (fun hm => hc (List.mem_cons_of_mem _ hm)) hrest
      rw [hhead, htail.1]
      exact ⟨rfl,htail.2⟩

variable [DecidableEq α]

theorem count_fields (a b : List α) :
    (fields sep a b).count sep = a.count sep+b.count sep+2 := by
  simp [fields]
  omega

theorem fields_determined (a b r c d : List α) (ha : sep ∉ a) (hb : sep ∉ b) (hr : sep ∉ r)
    (h : fields sep c d <+: fields sep a b++r) : c = a ∧ d = b := by
  have hcount := h.sublist.count_le sep
  rw [List.count_append, count_fields, count_fields, List.count_eq_zero.mpr ha,
    List.count_eq_zero.mpr hb, List.count_eq_zero.mpr hr] at hcount
  have hc : sep ∉ c := List.count_eq_zero.mp (by omega)
  have hd : sep ∉ d := List.count_eq_zero.mp (by omega)
  rw [fields_append, fields] at h
  obtain ⟨hca,hrest⟩ := first_field a c _ _ ha hc h
  obtain ⟨hdb,-⟩ := first_field b d _ _ hb hd hrest
  exact ⟨hca,hdb⟩

theorem two_fields (s : List α) (h : 2 ≤ s.count sep) :
    ∃ a b, sep ∉ a ∧ sep ∉ b ∧ fields sep a b <+: s := by
  have hmem : sep ∈ s := List.count_pos_iff.mp (by omega)
  obtain ⟨a,t,rfl,ha⟩ := List.eq_append_cons_of_mem hmem
  rw [List.count_append, List.count_cons_self, List.count_eq_zero.mpr ha] at h
  have hmem' : sep ∈ t := List.count_pos_iff.mp (by omega)
  obtain ⟨b,r,rfl,hb⟩ := List.eq_append_cons_of_mem hmem'
  exact ⟨a,b,ha,hb,r,fields_append a b r⟩

end Duda.DelimitedFields
