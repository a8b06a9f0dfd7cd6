import Mathlib.Tactic

/-!
# Counting occupied slots

A table of slots is occupied where a flag holds. The number of occupied slots
moves by one when one flag flips, ignores empty slots behind the table, and
leaves a free slot while it is below the size.
-/

set_option autoImplicit false

namespace Duda.SlotCount

def occupied (n : ℕ) (f : ℕ → Bool) : ℕ := (List.range n).countP f

theorem occupied_congr (n : ℕ) (f g : ℕ → Bool) (h : ∀ i < n, f i = g i) :
    occupied n f = occupied n g := by
  apply List.countP_congr
  intro i hi
  rw [h i (List.mem_range.mp hi)]

theorem occupied_succ (n : ℕ) (f : ℕ → Bool) :
    occupied (n+1) f = occupied n f+(if f n then 1 else 0) := by
  simp [occupied, List.range_succ, List.countP_append, List.countP_cons]

theorem occupied_le (n : ℕ) (f : ℕ → Bool) : occupied n f ≤ n := by
  have := List.countP_le_length (p := f) (l := List.range n)
  simpa [occupied] using this

theorem occupied_flip (n i : ℕ) (f g : ℕ → Bool) (hi : i < n) (hf : f i = false)
    (hg : g i = true) (h : ∀ j, j ≠ i → f j = g j) : occupied n g = occupied n f+1 := by
  induction n with
  | zero => omega
  | succ n ih =>
    rw [occupied_succ, occupied_succ]
    by_cases hin : i = n
    · subst hin
      rw [occupied_congr i g f (fun j hj => (h j (by omega)).symm)]
      simp [hf, hg]
    · rw [ih (by omega), h n (by omega)]
      omega

theorem occupied_extend (n m : ℕ) (f : ℕ → Bool) (hnm : n ≤ m)
    (h : ∀ i, n ≤ i → f i = false) : occupied m f = occupied n f := by
  induction m, hnm using Nat.le_induction with
  | base => rfl
  | succ m hm ih =>
    rw [occupied_succ, ih, h m hm]
    simp

theorem free_slot (n : ℕ) (f : ℕ → Bool) (h : occupied n f < n) : ∃ i < n, f i = false := by
  by_contra hno
  have hall : ∀ i < n, f i = true := by
    intro i hi
    by_contra hf
    exact hno ⟨i,hi,by simpa using hf⟩
  have : occupied n f = n := by
    rw [occupied_congr n f (fun _ => true) hall]
    simp [occupied]
  omega

end Duda.SlotCount
