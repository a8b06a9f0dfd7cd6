import Duda.CString

/-!
# The string functions of Monkey

The web server hands `mk_string_char_search` and `mk_string_copy_substr` to its services.
They take their places and lengths as `int`; what they do with negative ones is left
open. The router splits its patterns with them, and the readers of parameters and of the
query string copy values with the second.
-/

set_option autoImplicit false

namespace Duda.MonkeyString
open Duda.CString

/-- `mk_string_char_search` and `mk_string_copy_substr`. -/
structure MkString where
  charSearch : (ℕ → UInt8) → UInt8 → ℤ → ℤ
  copySubstr : (ℕ → UInt8) → ℤ → ℤ → List UInt8
  charSearch_found : ∀ s c (n k : ℕ), k < n → s k = c → (∀ j < k, s j ≠ c) →
    charSearch s c n = k
  charSearch_absent : ∀ s c (n : ℕ), (∀ j < n, s j ≠ c) → charSearch s c n = -1
  copySubstr_slice : ∀ s (i j : ℕ), i ≤ j → copySubstr s i j = slice (offset s i) (j-i)

theorem charSearch_range (mk : MkString) (s : ℕ → UInt8) (c : UInt8) (n : ℕ) :
    mk.charSearch s c n = -1 ∨ ∃ k : ℕ, k < n ∧ mk.charSearch s c n = k := by
  by_cases h : ∃ k, k < n ∧ s k = c
  · obtain ⟨hk,hc⟩ := Nat.find_spec h
    right
    refine ⟨Nat.find h,hk,mk.charSearch_found s c n _ hk hc ?_⟩
    intro j hj he
    exact Nat.find_min h hj ⟨hj.trans hk,he⟩
  · left
    apply mk.charSearch_absent
    intro j hj he
    exact h ⟨j,hj,he⟩

theorem copySubstr_first (mk : MkString) (s : ℕ → UInt8) (n : ℕ) :
    mk.copySubstr s 0 n = slice s n := by
  have h := mk.copySubstr_slice s 0 n (Nat.zero_le n)
  rwa [Nat.cast_zero, Nat.sub_zero, offset_zero] at h

def plainString : MkString where
  charSearch := fun s c n => match (slice s n.toNat).findIdx? (· = c) with
    | some k => k
    | none => -1
  copySubstr := fun s i j => slice (offset s i.toNat) (j.toNat-i.toNat)
  charSearch_found := by
    intro s c n k hk hc hbefore
    have h : (slice s n).findIdx? (· = c) = some k := by
      rw [List.findIdx?_eq_some_iff_getElem]
      refine ⟨by simpa [slice] using hk,by simpa [slice] using hc,?_⟩
      intro j hj
      simpa [slice] using hbefore j hj
    rw [Int.toNat_natCast, h]
  charSearch_absent := by
    intro s c n habsent
    have h : (slice s n).findIdx? (· = c) = none := by
      rw [List.findIdx?_eq_none_iff]
      intro x hx
      obtain ⟨j,hj,rfl⟩ := List.mem_map.mp hx
      simpa using habsent j (List.mem_range.mp hj)
    rw [Int.toNat_natCast, h]
  copySubstr_slice := fun _ _ _ _ => rfl

end Duda.MonkeyString
