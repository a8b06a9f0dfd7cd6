import Mathlib.Tactic

/-!
# Fixed-width integer conversions

Values are mathematical integers; a conversion wraps them into the range of a
C type of the given width. Inside the range a conversion changes nothing,
which is all that bounded code needs to know about it.
-/

set_option autoImplicit false

namespace Duda.MachineInt

def u32 (x : ℤ) : ℕ := (x % 2^32).toNat

def u64 (x : ℤ) : ℕ := (x % 2^64).toNat

def i32 (x : ℤ) : ℤ := if u32 x < 2^31 then u32 x else u32 x-2^32

def i64 (x : ℤ) : ℤ := if u64 x < 2^63 then u64 x else u64 x-2^64

theorem u32_of_range (x : ℤ) (h0 : 0 ≤ x) (h : x < 2^32) : u32 x = x.toNat := by
  rw [u32, Int.emod_eq_of_lt h0 h]

theorem u64_of_range (x : ℤ) (h0 : 0 ≤ x) (h : x < 2^64) : u64 x = x.toNat := by
  rw [u64, Int.emod_eq_of_lt h0 h]

theorem i32_of_range (x : ℤ) (h0 : -2^31 ≤ x) (h : x < 2^31) : i32 x = x := by
  have hm : x % 2^32 = x ∨ x % 2^32 = x+2^32 := by omega
  simp only [i32, u32]
  split_ifs <;> omega

theorem i64_of_range (x : ℤ) (h0 : -2^63 ≤ x) (h : x < 2^63) : i64 x = x := by
  have hm : x % 2^64 = x ∨ x % 2^64 = x+2^64 := by omega
  simp only [i64, u64]
  split_ifs <;> omega

theorem i64_wrap (x : ℤ) : i64 (u64 x) = i64 x := by
  have hm : u64 (u64 x) = u64 x := by
    simp only [u64]
    omega
  rw [i64, i64, hm]

theorem u32_natCast (n : ℕ) (h : n < 2^32) : u32 n = n := by
  rw [u32_of_range n (by omega) (by omega)]
  rfl

theorem u64_natCast (n : ℕ) (h : n < 2^64) : u64 n = n := by
  rw [u64_of_range n (by omega) (by omega)]
  rfl

theorem i32_natCast (n : ℕ) (h : n < 2^31) : i32 n = n :=
  i32_of_range n (by omega) (by omega)

end Duda.MachineInt
