import Mathlib.Tactic

/-!
# Numbers in decimal text

What `%d` and `%zu` print of a number, and the value that a reader of digits makes
of a text.
-/

set_option autoImplicit false

namespace Duda.Decimal

def digit (d : ℕ) : UInt8 := UInt8.ofNat (48+d)

def IsDigit (c : UInt8) : Prop := 48 ≤ c.toNat ∧ c.toNat < 58

instance (c : UInt8) : Decidable (IsDigit c) :=
  inferInstanceAs (Decidable (48 ≤ c.toNat ∧ c.toNat < 58))

def decimal (n : ℕ) : List UInt8 :=
  if n < 10 then [digit n] else decimal (n/10)++[digit (n%10)]

/-- What `%d` prints. -/
def signed (v : ℤ) : List UInt8 := if v < 0 then 45::decimal v.natAbs else decimal v.natAbs

def value (v : ℕ) (text : List UInt8) : ℕ := text.foldl (fun v c => v*10+(c.toNat-48)) v

theorem digit_toNat {d : ℕ} (h : d < 10) : (digit d).toNat = 48+d := by
  rw [digit, UInt8.toNat_ofNat']
  omega

theorem digit_isDigit {d : ℕ} (h : d < 10) : IsDigit (digit d) := by
  rw [IsDigit, digit_toNat h]
  omega

theorem decimal_isDigit (n : ℕ) : ∀ c ∈ decimal n, IsDigit c := by
  induction n using decimal.induct with
  | case1 n h =>
    intro c hc
    rw [decimal, if_pos h, List.mem_singleton] at hc
    subst hc
    exact digit_isDigit h
  | case2 n h ih =>
    intro c hc
    rw [decimal, if_neg h, List.mem_append, List.mem_singleton] at hc
    rcases hc with hc | rfl
    · exact ih c hc
    · exact digit_isDigit (by omega)

theorem decimal_ne_nil (n : ℕ) : decimal n ≠ [] := by
  rw [decimal]
  split_ifs <;> simp

theorem value_append (v : ℕ) (a b : List UInt8) : value v (a++b) = value (value v a) b :=
  List.foldl_append

theorem value_mono (text : List UInt8) (v : ℕ) : v ≤ value v text := by
  induction text generalizing v with
  | nil => exact le_refl v
  | cons c text ih =>
    calc v ≤ v*10+(c.toNat-48) := by omega
      _ ≤ value (v*10+(c.toNat-48)) text := ih _

theorem value_decimal (n : ℕ) : value 0 (decimal n) = n := by
  induction n using decimal.induct with
  | case1 n h =>
    rw [decimal, if_pos h]
    simp [value, digit_toNat h]
  | case2 n h ih =>
    rw [decimal, if_neg h, value_append, ih]
    simp only [value, List.foldl_cons, List.foldl_nil, digit_toNat (Nat.mod_lt n (by omega))]
    omega

end Duda.Decimal
