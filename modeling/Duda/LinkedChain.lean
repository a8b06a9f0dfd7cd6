import Mathlib.Data.Set.Card
import Mathlib.Logic.Relation
import Mathlib.Tactic

/-!
# Chains of cells and the trees they make

A chain is a sequence of cells in which each cell points to the one behind it and to the
one before it. Some cells in the middle of a chain can be exchanged for others by writing
to the pointers on both sides. Where every cell heads at most one chain and is in at most
one, and no cell is inside of a chain that it heads, the chains make a forest.
-/

set_option autoImplicit false

namespace Duda.LinkedChain

section Chains

variable {α : Type*} {next prev next' prev' : α → Option α}

structure Chain (next prev : α → Option α) (first : Option α) (xs : List α) : Prop where
  first : first = xs.head?
  links : ∀ l x r, xs = l++x::r → prev x = l.getLast? ∧ next x = r.head?

theorem chain_nil (next prev : α → Option α) : Chain next prev none [] :=
  ⟨rfl,fun l x r h => by simp at h⟩

theorem Chain.congr {first : Option α} {xs : List α} (h : Chain next prev first xs)
    (hx : ∀ x ∈ xs, next' x = next x ∧ prev' x = prev x) : Chain next' prev' first xs := by
  refine ⟨h.first,fun l x r hs => ?_⟩
  have hmem := hx x (by rw [hs]; simp)
  rw [hmem.1, hmem.2]
  exact h.links l x r hs

/-- The cells `cs` in the middle are exchanged for `ys`. The pointers that lead to them from
both sides are written, and those of the new cells. -/
theorem Chain.splice [DecidableEq α] {first first' : Option α} {l r cs ys : List α}
    (h : Chain next prev first (l++(cs++r))) (hd : (l++(cs++r)).Nodup)
    (hfirst : first' = (l++(ys++r)).head?)
    (hprevl : ∀ x ∈ l, prev' x = prev x)
    (hnextl : ∀ x ∈ l, next' x = if l.getLast? = some x then (ys++r).head? else next x)
    (hnextr : ∀ x ∈ r, next' x = next x)
    (hprevr : ∀ x ∈ r, prev' x = if r.head? = some x then (l++ys).getLast? else prev x)
    (hys : ∀ a y b, ys = a++y::b → prev' y = (l++a).getLast? ∧ next' y = (b++r).head?) :
    Chain next' prev' first' (l++(ys++r)) := by
  refine ⟨hfirst,fun a x b hs => ?_⟩
  rcases List.append_eq_append_iff.1 hs with ⟨m,rfl,hm⟩ | ⟨m,rfl,hm⟩
  · rcases List.append_eq_append_iff.1 hm with ⟨m',rfl,hm'⟩ | ⟨m',rfl,hm'⟩
    · -- The cell is behind the new ones.
      subst hm'
      have hold := h.links (l++(cs++m')) x b (by simp)
      have hx : x ∈ m'++x::b := by simp
      rw [hnextr x hx, hprevr x hx]
      refine ⟨?_,hold.2⟩
      cases m' with
      | nil => simp
      | cons z m' =>
        have hne : z ≠ x := by
          rintro rfl
          simp [List.nodup_append] at hd
        rw [if_neg (by simpa using hne), hold.1]
        simp [List.getLast?_append, List.getLast?_cons]
    · cases m' with
      | nil =>
        -- It is the first one behind them.
        simp only [List.nil_append] at hm'
        subst hm'
        have hx : x ∈ x::b := by simp
        have hold := h.links (l++cs) x b (by simp)
        rw [hnextr x hx, hprevr x hx]
        simpa using hold.2
      | cons z m' =>
        rw [List.cons_append, List.cons.injEq] at hm'
        obtain ⟨rfl,rfl⟩ := hm'
        exact hys m x m' rfl
  · cases m with
    | nil =>
      simp only [List.append_nil, List.nil_append] at hm hs ⊢
      cases ys with
      | nil =>
        simp only [List.nil_append] at hm
        subst hm
        have hx : x ∈ x::b := by simp
        have hold := h.links (a++cs) x b (by simp)
        rw [hnextr x hx, hprevr x hx]
        simpa using hold.2
      | cons y ys =>
        rw [List.cons_append, List.cons.injEq] at hm
        obtain ⟨rfl,rfl⟩ := hm
        simpa using hys [] x ys rfl
    | cons z m =>
      -- The cell is before the new ones.
      rw [List.cons_append, List.cons.injEq] at hm
      obtain ⟨rfl,rfl⟩ := hm
      have hold := h.links a x (m++(cs++r)) (by simp)
      have hx : x ∈ a++x::m := by simp
      rw [hprevl x hx, hnextl x hx]
      refine ⟨hold.1,?_⟩
      rcases List.eq_nil_or_concat m with rfl | ⟨m,w,rfl⟩
      · simp
      · have hne : w ≠ x := by
          rintro rfl
          simp [List.nodup_append] at hd
        have hlast : (a++x::(m++[w])).getLast? = some w := by
          rw [← List.cons_append, ← List.append_assoc, List.getLast?_concat]
        rw [List.concat_eq_append, hlast, if_neg (by simpa using hne), hold.2]
        simp [List.head?_append]

end Chains

section Forests

variable {α : Type*} {kids kids' : α → List α}

/-- `y` is `x`, or below it. -/
def Under (kids : α → List α) : α → α → Prop := Relation.ReflTransGen fun a b => b ∈ kids a

structure Forest (kids : α → List α) : Prop where
  nodup : ∀ a, (kids a).Nodup
  parent : ∀ a b x, x ∈ kids a → x ∈ kids b → a = b
  acyclic : WellFounded fun x a => x ∈ kids a

theorem not_under_parent (h : WellFounded fun x a => x ∈ kids a) {a x : α} (hx : x ∈ kids a) :
    ¬Under kids x a := by
  intro hu
  have hcycle : Relation.TransGen (fun a b => b ∈ kids a) x x := Relation.TransGen.tail' hu hx
  have hwf : WellFounded (Relation.TransGen fun x a => x ∈ kids a) := h.transGen
  exact (hwf.irrefl.irrefl x) (Relation.transGen_swap.1 hcycle)

/-- Two cells with something below both are one below the other. -/
theorem under_total (hf : Forest kids) {x y z : α} (hx : Under kids x z) (hy : Under kids y z) :
    Under kids x y ∨ Under kids y x := by
  induction hx generalizing y with
  | refl => exact .inr hy
  | tail hab hbc ih =>
    rcases Relation.ReflTransGen.cases_tail hy with rfl | ⟨w,hyw,hwc⟩
    · exact .inl (hab.tail hbc)
    · rw [← hf.parent _ _ _ hbc hwc] at hyw
      exact ih hyw

theorem under_apart (hf : Forest kids) {a x y z : α} (hx : x ∈ kids a) (hy : y ∈ kids a)
    (hne : x ≠ y) (hxz : Under kids x z) : ¬Under kids y z := by
  intro hyz
  have hno : ∀ u v, u ∈ kids a → v ∈ kids a → u ≠ v → ¬Under kids u v := by
    intro u v hu hv huv h
    rcases Relation.ReflTransGen.cases_tail h with heq | ⟨w,huw,hwv⟩
    · exact huv heq.symm
    · rw [hf.parent _ _ _ hwv hv] at huw
      exact not_under_parent hf.acyclic hu huw
  rcases under_total hf hxz hyz with h | h
  · exact hno x y hx hy hne h
  · exact hno y x hy hx hne.symm h

/-- Chains with fewer cells, but for one new cell `y` under `a`, where `a` is not below `y`. -/
theorem acyclic_add (h : WellFounded fun x a => x ∈ kids a) {a y : α} (hy : ¬Under kids y a)
    (hk : ∀ b x, x ∈ kids' b → x ∈ kids b ∨ (b = a ∧ x = y)) :
    WellFounded fun x a => x ∈ kids' a := by
  have hbelow : ∀ z, Under kids y z → Acc (fun x a => x ∈ kids' a) z := by
    intro z
    induction z using h.induction with
    | h z ih =>
      intro hz
      refine ⟨_,fun x hx => ?_⟩
      rcases hk z x hx with hold | ⟨rfl,_⟩
      · exact ih x hold (hz.tail hold)
      · exact absurd hz hy
  refine ⟨fun z => ?_⟩
  induction z using h.induction with
  | h z ih =>
    refine ⟨_,fun x hx => ?_⟩
    rcases hk z x hx with hold | ⟨_,rfl⟩
    · exact ih x hold
    · exact hbelow x .refl

end Forests

end Duda.LinkedChain
