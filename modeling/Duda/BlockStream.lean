import Mathlib.Tactic

/-!
# Folding a stream block by block

A function that takes one block of a fixed width is folded over the whole
blocks of a list. What does not fill a block is left over. A list that arrives
in pieces is folded in the same way, if what is left over is put in front of the
next piece.
-/

set_option autoImplicit false

namespace Duda.BlockStream

section Residue

variable {α : Type*} (w : ℕ)

def residue (xs : List α) : List α := xs.drop (w*(xs.length/w))

theorem residue_length (xs : List α) : (residue w xs).length = xs.length%w := by
  have hsplit := Nat.mod_add_div xs.length w
  rw [residue, List.length_drop]
  omega

theorem residue_short (xs : List α) (h : xs.length < w) : residue w xs = xs := by
  rw [residue, Nat.div_eq_of_lt h, Nat.mul_zero, List.drop_zero]

theorem residue_drop (xs : List α) (hw : 0 < w) (h : w ≤ xs.length) :
    residue w (xs.drop w) = residue w xs := by
  have hdiv : xs.length/w = (xs.length-w)/w+1 := Nat.div_eq_sub_div hw h
  rw [residue, residue, List.drop_drop, List.length_drop, hdiv, Nat.mul_succ, Nat.add_comm]

theorem residue_aligned (xs : List α) (h : xs.length%w = 0) : residue w xs = [] := by
  rw [← List.length_eq_zero_iff, residue_length, h]

end Residue

section Fold

variable {α σ : Type*} (w : ℕ) (f : σ → List α → σ)

/-- The first `k` blocks. -/
def blocks : ℕ → σ → List α → σ
  | 0, s, _ => s
  | k+1, s, xs => blocks k (f s (xs.take w)) (xs.drop w)

def folded (s : σ) (xs : List α) : σ := blocks w f (xs.length/w) s xs

/-- The loop `while (len >= w)` that takes one block after the other off the input. -/
def drain (s : σ) (xs : List α) : σ × List α :=
  if 0 < w ∧ w ≤ xs.length then drain (f s (xs.take w)) (xs.drop w) else (s,xs)
termination_by xs.length
decreasing_by
  rw [List.length_drop]
  omega

theorem folded_short (s : σ) (xs : List α) (h : xs.length < w) : folded w f s xs = s := by
  rw [folded, Nat.div_eq_of_lt h, blocks]

theorem folded_block (s : σ) (xs : List α) (hw : 0 < w) (h : w ≤ xs.length) :
    folded w f s xs = folded w f (f s (xs.take w)) (xs.drop w) := by
  have hdiv : xs.length/w = (xs.length-w)/w+1 := Nat.div_eq_sub_div hw h
  rw [folded, folded, List.length_drop, hdiv, blocks]

theorem drain_eq (hw : 0 < w) (s : σ) (xs : List α) :
    drain w f s xs = (folded w f s xs,residue w xs) := by
  induction s, xs using drain.induct w f with
  | case1 s xs h ih =>
    rw [drain, if_pos h, ih, folded_block w f s xs hw h.2, residue_drop w xs hw h.2]
  | case2 s xs h =>
    have hlt : xs.length < w := by
      by_contra hle
      exact h ⟨hw,by omega⟩
    rw [drain, if_neg h, folded_short w f s xs hlt, residue_short w xs hlt]

/-- The append law: what is left of the first part goes in front of the second. -/
theorem folded_append (hw : 0 < w) (s : σ) (xs ys : List α) :
    folded w f s (xs++ys) = folded w f (folded w f s xs) (residue w xs++ys) := by
  induction s, xs using drain.induct w f with
  | case1 s xs h ih =>
    have hlong : w ≤ (xs++ys).length := by
      rw [List.length_append]
      omega
    rw [folded_block w f s (xs++ys) hw hlong, List.take_append_of_le_length h.2,
      List.drop_append_of_le_length h.2, ih, folded_block w f s xs hw h.2,
      residue_drop w xs hw h.2]
  | case2 s xs h =>
    have hlt : xs.length < w := by
      by_contra hle
      exact h ⟨hw,by omega⟩
    rw [folded_short w f s xs hlt, residue_short w xs hlt]

theorem residue_append (hw : 0 < w) (xs ys : List α) :
    residue w (xs++ys) = residue w (residue w xs++ys) := by
  have hsplit := Nat.mod_add_div xs.length w
  have hlen : (xs++ys).length = (residue w xs++ys).length+w*(xs.length/w) := by
    rw [List.length_append, List.length_append, residue_length]
    omega
  have hparts : xs++ys = xs.take (w*(xs.length/w))++(residue w xs++ys) := by
    rw [residue, ← List.append_assoc, List.take_append_drop]
  have hcut : (xs.take (w*(xs.length/w))).length = w*(xs.length/w) := by
    rw [List.length_take, Nat.min_eq_left (Nat.mul_div_le _ _)]
  conv_lhs => rw [residue, hlen, Nat.add_mul_div_left _ _ hw, Nat.mul_add, Nat.add_comm, hparts]
  rw [← List.drop_drop, List.drop_left' hcut]
  rfl

/-- The simulation rule: an abstraction of the state that every block respects is
respected by the whole. -/
theorem folded_map {τ : Type*} (f' : τ → List α → τ) (g : σ → τ)
    (h : ∀ s xs, xs.length = w → g (f s xs) = f' (g s) xs) (hw : 0 < w) (s : σ) (xs : List α) :
    g (folded w f s xs) = folded w f' (g s) xs := by
  induction s, xs using drain.induct w f with
  | case1 s xs hlong ih =>
    have hblock : (xs.take w).length = w := by
      rw [List.length_take, Nat.min_eq_left hlong.2]
    rw [folded_block w f s xs hw hlong.2, ih, h s _ hblock, folded_block w f' _ xs hw hlong.2]
  | case2 s xs hshort =>
    have hlt : xs.length < w := by
      by_contra hle
      exact hshort ⟨hw,by omega⟩
    rw [folded_short w f s xs hlt, folded_short w f' _ xs hlt]

end Fold

end Duda.BlockStream
