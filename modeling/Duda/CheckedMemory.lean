import Mathlib.Tactic

/-!
# Bounds-checked memory blocks

A block has a fixed number of cells. Loads and stores at a position outside
the block stop with the offending access, so a computation over blocks runs
to its end exactly when every position it touches lies inside. The copy loop
covers both a `memcpy` and an element-wise `for` loop.
-/

set_option autoImplicit false

namespace Duda.CheckedMemory

inductive Access where
  | read (i : ℕ)
  | write (i : ℕ)
  deriving DecidableEq, Repr

variable {α β : Type*} {n m : ℕ}

def load (b : Vector α n) (i : ℕ) : Except Access α :=
  if h : i < n then .ok b[i] else .error (.read i)

def store (b : Vector α n) (i : ℕ) (x : α) : Except Access (Vector α n) :=
  if h : i < n then .ok (b.set i x) else .error (.write i)

/-- The next `k` rounds of `dst[i] = f(i, src[off + i])`. -/
def copyLoop (f : ℕ → α → β) (src : Vector α n) (off : ℕ) :
    ℕ → ℕ → Vector β m → Except Access (Vector β m)
  | 0, _, dst => .ok dst
  | k+1, i, dst =>
    match load src (off+i) with
    | .error e => .error e
    | .ok x =>
      match store dst i (f i x) with
      | .error e => .error e
      | .ok dst => copyLoop f src off k (i+1) dst

/-- The next `k` bytes of a copy from `src` to the position `off`. -/
def fill (src : List α) (off : ℕ) : ℕ → ℕ → Vector α n → Except Access (Vector α n)
  | 0, _, dst => .ok dst
  | k+1, i, dst =>
    match src[i]? with
    | none => .error (.read i)
    | some x =>
      match store dst (off+i) x with
      | .error e => .error e
      | .ok dst => fill src off k (i+1) dst

/-- Overwrite part of one cell, as an assignment to a field does. -/
def modify (b : Vector α n) (i : ℕ) (f : α → α) : Except Access (Vector α n) :=
  if h : i < n then .ok (b.set i (f b[i])) else .error (.write i)

/-- The next `k` rounds of a search that returns the first cell passing `p`. -/
def findLoop (p : α → Bool) (b : Vector α n) : ℕ → ℕ → Except Access (Option α)
  | 0, _ => .ok none
  | k+1, i =>
    match load b i with
    | .error e => .error e
    | .ok x => if p x then .ok (some x) else findLoop p b k (i+1)

theorem load_ok {b : Vector α n} {i : ℕ} (h : i < n) : load b i = .ok b[i] := dif_pos h

theorem store_ok {b : Vector α n} {i : ℕ} {x : α} (h : i < n) :
    store b i x = .ok (b.set i x) := dif_pos h

theorem copyLoop_succ {f : ℕ → α → β} {src : Vector α n} {off k i : ℕ} {dst : Vector β m}
    (hs : off+i < n) (hd : i < m) :
    copyLoop f src off (k+1) i dst =
      copyLoop f src off k (i+1) (dst.set i (f i src[off+i])) := by
  simp only [copyLoop, load_ok hs, store_ok hd]

/-- A copy completes exactly when both ranges lie inside their blocks; an
empty one touches nothing. -/
theorem copyLoop_ok_iff (f : ℕ → α → β) (src : Vector α n) (off k i : ℕ) (dst : Vector β m) :
    (∃ d, copyLoop f src off k i dst = .ok d) ↔ k = 0 ∨ (off+i+k ≤ n ∧ i+k ≤ m) := by
  induction k generalizing i dst with
  | zero => simp [copyLoop]
  | succ k ih =>
    by_cases hs : off+i < n
    · by_cases hd : i < m
      · rw [copyLoop_succ hs hd, ih]
        omega
      · refine iff_of_false ?_ (by omega)
        simp [copyLoop, load_ok hs, store, dif_neg hd]
    · refine iff_of_false ?_ (by omega)
      simp [copyLoop, load, dif_neg hs]

theorem fill_succ {src : List α} {off k i : ℕ} {dst : Vector α n} (hs : i < src.length)
    (hd : off+i < n) :
    fill src off (k+1) i dst = fill src off k (i+1) (dst.set (off+i) src[i]) := by
  simp only [fill, List.getElem?_eq_getElem hs, store_ok hd]

theorem fill_ok_iff (src : List α) (off k i : ℕ) (dst : Vector α n) :
    (∃ d, fill src off k i dst = .ok d) ↔ k = 0 ∨ (i+k ≤ src.length ∧ off+i+k ≤ n) := by
  induction k generalizing i dst with
  | zero => simp [fill]
  | succ k ih =>
    by_cases hs : i < src.length
    · by_cases hd : off+i < n
      · rw [fill_succ hs hd, ih]
        omega
      · refine iff_of_false ?_ (by omega)
        simp [fill, List.getElem?_eq_getElem hs, store, dif_neg hd]
    · refine iff_of_false ?_ (by omega)
      simp [fill, List.getElem?_eq_none (not_lt.mp hs)]

theorem fill_take (src : List α) (off k i : ℕ) (dst d : Vector α n)
    (hs : i+k ≤ src.length) (hd : off+i+k ≤ n) (h : fill src off k i dst = .ok d) :
    d.toList.take (off+i+k) = dst.toList.take (off+i)++(src.drop i).take k := by
  induction k generalizing i dst with
  | zero =>
    cases h
    simp
  | succ k ih =>
    have hi : i < src.length := by omega
    have hoff : off+i < n := by omega
    rw [fill_succ hi hoff] at h
    have hrest := ih (i+1) _ (by omega) (by omega) h
    rw [show off+i+(k+1) = off+(i+1)+k by omega, hrest, List.drop_eq_getElem_cons hi,
      List.take_succ_cons, Vector.toList_set, ← add_assoc, List.take_set, List.take_add_one,
      List.getElem?_eq_getElem (by simpa using hoff), List.set_append]
    simp [hoff.le]

theorem set_take (b : Vector α n) (i k : ℕ) (x : α) (h : i < n) (hk : k ≤ i) :
    (b.set i x h).toList.take k = b.toList.take k := by
  rw [Vector.toList_set, List.take_set_of_le hk]

theorem set_take_succ (b : Vector α n) (i : ℕ) (x : α) (h : i < n) :
    (b.set i x h).toList.take (i+1) = b.toList.take i++[x] := by
  rw [List.take_add_one, set_take b i i x h le_rfl, Vector.toList_set,
    List.getElem?_set_self (by simpa using h)]
  rfl

theorem copyLoop_take (f : ℕ → α → β) (src : Vector α n) (off k i : ℕ) (dst : Vector β m)
    (hs : off+i+k ≤ n) (hd : i+k ≤ m) :
    ∃ d, copyLoop f src off k i dst = .ok d ∧
      d.toList.take (i+k) =
        dst.toList.take i++((src.toList.drop (off+i)).take k).mapIdx (fun j x => f (i+j) x) := by
  induction k generalizing i dst with
  | zero => exact ⟨dst,rfl,by simp⟩
  | succ k ih =>
    have hsrc : off+i < src.toList.length := by
      rw [Vector.length_toList]
      omega
    obtain ⟨d,hrun,htake⟩ := ih (i+1) (dst.set i (f i src[off+i])) (by omega) (by omega)
    refine ⟨d,by rw [copyLoop_succ (by omega) (by omega), hrun],?_⟩
    rw [show i+(k+1) = i+1+k by omega, htake, set_take_succ, List.drop_eq_getElem_cons hsrc,
      List.take_succ_cons, List.mapIdx_cons, List.append_assoc, List.singleton_append]
    simp only [Vector.getElem_toList, Nat.add_zero, Nat.add_assoc, Nat.add_comm 1]

theorem modify_ok {b : Vector α n} {i : ℕ} {f : α → α} (h : i < n) :
    modify b i f = .ok (b.set i (f b[i])) := dif_pos h

theorem modify_overrun {b : Vector α n} {i : ℕ} {f : α → α} (h : ¬ i < n) :
    modify b i f = .error (.write i) := dif_neg h

/-- A search inside the block finds what it would find in the list of cells. -/
theorem findLoop_find (p : α → Bool) (b : Vector α n) (k i : ℕ) (h : i+k ≤ n) :
    findLoop p b k i = .ok (((b.toList.drop i).take k).find? p) := by
  induction k generalizing i with
  | zero => rfl
  | succ k ih =>
    have hi : i < b.toList.length := by
      rw [Vector.length_toList]
      omega
    rw [List.drop_eq_getElem_cons hi, List.take_succ_cons, List.find?_cons, findLoop,
      load_ok (show i < n by omega)]
    simp only [Vector.getElem_toList]
    cases hp : p b[i] with
    | true => rfl
    | false =>
      simp only [Bool.false_eq_true, if_false]
      exact ih (i+1) (by omega)

theorem findLoop_ok (p : α → Bool) (b : Vector α n) (k i : ℕ) (h : i+k ≤ n) :
    ∃ r, findLoop p b k i = .ok r := ⟨_,findLoop_find p b k i h⟩

end Duda.CheckedMemory
