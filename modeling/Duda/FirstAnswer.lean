import Mathlib.Tactic

/-!
# The first answer of a list in an unknown environment

The tests of a search read an environment of which only a part is known. Some
elements are sensitive to the rest of it. The result of the search does not
depend on the environment exactly when the search never reaches a sensitive
element.
-/

set_option autoImplicit false

namespace Duda.FirstAnswer

variable {ε α β : Type*}

theorem findSome_some (test : α → Option β) (l : List α) (b : β)
    (h : ∀ x ∈ l, test x ≠ some b) : l.findSome? test ≠ some b := by
  intro he
  obtain ⟨x,hx,hb⟩ := List.exists_of_findSome?_eq_some he
  exact h x hx hb

/-- What holds of the element behind every admitted beginning of a list, read
off the head and the tail. -/
theorem forall_split_cons (Admitted : List α → Prop) (P : α → Prop) (a : α) (l : List α) :
    (∀ before x after, a::l = before++x::after → Admitted before → P x) ↔
      (Admitted [] → P a) ∧
        ∀ before x after, l = before++x::after → Admitted (a::before) → P x := by
  constructor
  · intro h
    refine ⟨h [] a l rfl,?_⟩
    intro before x after hl hb
    exact h (a::before) x after (by rw [hl]; rfl) hb
  · rintro ⟨hhead,htail⟩ before x after hl hb
    cases before with
    | nil =>
      simp only [List.nil_append, List.cons.injEq] at hl
      exact hl.1 ▸ hhead hb
    | cons y before =>
      simp only [List.cons_append, List.cons.injEq] at hl
      exact htail before x after hl.2 (hl.1 ▸ hb)

/-- The exactness rule for searches in an unknown environment. -/
theorem independent_iff (test : ε → α → Option β) (e₀ : ε) (Sensitive : α → Prop) (l : List α)
    (same : ∀ a ∈ l, ¬Sensitive a → ∀ e e', test e a = test e' a)
    (differ : ∀ a ∈ l, Sensitive a →
      ∃ e e' b, test e a = some b ∧ ∀ x ∈ l, test e' x ≠ some b) :
    (∀ e e', l.findSome? (test e) = l.findSome? (test e')) ↔
      ∀ before a after, l = before++a::after → before.findSome? (test e₀) = none →
        ¬Sensitive a := by
  induction l with
  | nil => simp
  | cons a l ih =>
    by_cases hs : Sensitive a
    · apply iff_of_false
      · intro h
        obtain ⟨e,e',b,hb,hnot⟩ := differ a (by simp) hs
        apply findSome_some (test e') (a::l) b hnot
        rw [← h e e', List.findSome?_cons, hb]
      · intro h
        exact h [] a l rfl rfl hs
    · have hsame := same a (by simp) hs
      cases ha : test e₀ a with
      | some b =>
        have hall : ∀ e, test e a = some b := fun e => (hsame e e₀).trans ha
        apply iff_of_true
        · intro e e'
          rw [List.findSome?_cons, List.findSome?_cons, hall e, hall e']
        · rw [forall_split_cons (fun before => before.findSome? (test e₀) = none)]
          refine ⟨fun _ => hs,?_⟩
          intro before x after _ hb
          rw [List.findSome?_cons, ha] at hb
          cases hb
      | none =>
        have hall : ∀ e, test e a = none := fun e => (hsame e e₀).trans ha
        have hskip : ∀ e, (a::l).findSome? (test e) = l.findSome? (test e) := by
          intro e
          rw [List.findSome?_cons, hall e]
        have hleft : ∀ before : List α, (a::before).findSome? (test e₀) = none ↔
            before.findSome? (test e₀) = none := by
          intro before
          rw [List.findSome?_cons, ha]
        rw [forall_split_cons (fun before => before.findSome? (test e₀) = none)]
        simp only [hskip, hleft, hs, not_false_eq_true, implies_true, true_and]
        apply ih
        · exact fun x hx => same x (by simp [hx])
        · intro x hx hsx
          obtain ⟨e,e',b,hb,hnot⟩ := differ x (by simp [hx]) hsx
          exact ⟨e,e',b,hb,fun y hy => hnot y (by simp [hy])⟩

end Duda.FirstAnswer
