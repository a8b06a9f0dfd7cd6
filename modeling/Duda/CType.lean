import Mathlib.Tactic

/-!
# Characters of the C library

The classes of characters in the `C` locale, and the digits of `%x`.
-/

set_option autoImplicit false

namespace Duda.CType

def isspace (c : UInt8) : Bool := c = 32 ∨ (9 ≤ c.toNat ∧ c.toNat < 14)

def tolower (c : UInt8) : UInt8 := if 65 ≤ c.toNat ∧ c.toNat ≤ 90 then c+32 else c

/-- A digit that `%x` prints. -/
def hexDigit (n : ℕ) : UInt8 := UInt8.ofNat (if n < 10 then 48+n else 87+n)

/-- A digit that `%x` reads. -/
def hexValue (c : UInt8) : Option ℕ :=
  if 48 ≤ c.toNat ∧ c.toNat < 58 then some (c.toNat-48)
  else if 97 ≤ c.toNat ∧ c.toNat < 103 then some (c.toNat-87)
  else if 65 ≤ c.toNat ∧ c.toNat < 71 then some (c.toNat-55)
  else none

theorem hexValue_hexDigit {n : ℕ} (h : n < 16) : hexValue (hexDigit n) = some n := by
  interval_cases n <;> rfl

end Duda.CType
