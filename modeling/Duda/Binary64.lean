import Mathlib.Data.Int.Log
import Mathlib.Tactic

/-!
# Binary floating point numbers of 64 bits

A number of the format is a rational on a grid whose step depends on its size, or
an infinity, or no number. A result is rounded to the nearest number of the grid,
and between two to the even one. Whole numbers up to `2^53` are computed exactly.
The sign of a zero is not kept.
-/

set_option autoImplicit false

namespace Duda.Binary64

section Rounding

/-- The nearest whole number, and between two the even one. -/
def nearest (q : ℚ) : ℤ :=
  if q-⌊q⌋ < 1/2 then ⌊q⌋
  else if 1/2 < q-⌊q⌋ then ⌊q⌋+1
  else if ⌊q⌋%2 = 0 then ⌊q⌋ else ⌊q⌋+1

theorem nearest_whole (z : ℤ) : nearest z = z := by
  simp [nearest]

theorem nearest_le {q : ℚ} {z : ℤ} (h : q ≤ z) : nearest q ≤ z := by
  have hf : ⌊q⌋ ≤ z := Int.floor_le_iff.2 (by linarith)
  by_cases hz : ⌊q⌋ = z
  · have hq : q-⌊q⌋ ≤ 0 := by
      rw [hz]
      linarith
    rw [nearest, if_pos (by linarith)]
    exact hf
  · have hlt : ⌊q⌋+1 ≤ z := by omega
    unfold nearest
    split_ifs <;> omega

theorem le_nearest {q : ℚ} {z : ℤ} (h : z ≤ q) : z ≤ nearest q := by
  have hf : z ≤ ⌊q⌋ := Int.le_floor.2 h
  unfold nearest
  split_ifs <;> omega

/-- The step of the grid at a number is a power of two. -/
def exponent (q : ℚ) : ℤ := max (Int.log 2 |q|-52) (-1074)

def snap (q : ℚ) : ℚ := nearest (q/2^exponent q)*2^exponent q

def Representable (q : ℚ) : Prop := ∃ m e : ℤ, |m| ≤ 2^53 ∧ -1074 ≤ e ∧ q = m*2^e

theorem two_zpow_pos (e : ℤ) : (0 : ℚ) < 2^e := zpow_pos (by norm_num) e

theorem abs_lt_step (q : ℚ) : |q| < 2^53*2^exponent q := by
  have hlog : |q| < (2 : ℚ)^(Int.log 2 |q|+1) := by
    exact_mod_cast Int.lt_zpow_succ_log_self (b := 2) (by norm_num) |q|
  have hle : Int.log 2 |q|+1 ≤ 53+exponent q := by
    rw [exponent]
    omega
  calc |q| < (2 : ℚ)^(Int.log 2 |q|+1) := hlog
    _ ≤ (2 : ℚ)^(53+exponent q) := zpow_le_zpow_right₀ (by norm_num) hle
    _ = 2^53*2^exponent q := by
      rw [zpow_add₀ (by norm_num)]
      norm_num

theorem snap_representable (q : ℚ) : Representable (snap q) := by
  refine ⟨nearest (q/2^exponent q),exponent q,?_,le_max_right _ _,rfl⟩
  have hpos := two_zpow_pos (exponent q)
  have habs := abs_lt.1 (abs_lt_step q)
  rw [abs_le]
  constructor
  · apply le_nearest
    rw [le_div_iff₀ hpos]
    push_cast
    linarith [habs.1]
  · apply nearest_le
    rw [div_le_iff₀ hpos]
    push_cast
    linarith [habs.2]

/-- On a grid that is fine enough nothing is rounded. -/
theorem snap_fine {q : ℚ} {m e : ℤ} (hq : q = m*2^e) (he : exponent q ≤ e) : snap q = q := by
  have hpos := two_zpow_pos (exponent q)
  have hwhole : q/2^exponent q = ((m*2^(e-exponent q).toNat : ℤ) : ℚ) := by
    have hsum : (2 : ℚ)^e = 2^(e-exponent q).toNat*2^exponent q := by
      rw [← zpow_natCast, Int.toNat_of_nonneg (by omega), ← zpow_add₀ (by norm_num),
        sub_add_cancel]
    rw [div_eq_iff hpos.ne']
    push_cast
    rw [mul_assoc, ← hsum]
    exact hq
  rw [snap, hwhole, nearest_whole, ← hwhole, div_mul_cancel₀ _ hpos.ne']

theorem exponent_le {q : ℚ} {m e : ℤ} (hq : q = m*2^e) (hm : |m| < 2^53) (he : -1074 ≤ e) :
    exponent q ≤ e ∨ q = 0 := by
  by_cases h0 : q = 0
  · exact .inr h0
  left
  have hlt : |q| < (2 : ℚ)^(53+e) := by
    rw [hq, abs_mul, abs_of_pos (two_zpow_pos e), zpow_add₀ (by norm_num)]
    apply mul_lt_mul_of_pos_right _ (two_zpow_pos e)
    exact_mod_cast hm
  have hlog : Int.log 2 |q| < 53+e := by
    rw [← Int.lt_zpow_iff_log_lt (by norm_num) (abs_pos.2 h0)]
    exact_mod_cast hlt
  rw [exponent]
  omega

theorem snap_of_representable {q : ℚ} (h : Representable q) : snap q = q := by
  have hfine : ∀ m e : ℤ, |m| < 2^53 → -1074 ≤ e → q = m*2^e → snap q = q := by
    intro m e hm he hq
    rcases exponent_le hq hm he with hx | rfl
    · exact snap_fine hq hx
    · have h0 : nearest 0 = 0 := by simpa using nearest_whole 0
      simp [snap, h0]
  obtain ⟨m,e,hm,he,hq⟩ := h
  by_cases hlt : |m| < 2^53
  · exact hfine m e hlt he hq
  · -- the largest factor is twice another one
    have hm2 : |m/2| < 2^53 ∧ m = 2*(m/2) := by
      rcases abs_cases m with ⟨ha,_⟩ | ⟨ha,_⟩ <;> rw [ha] at hm hlt <;>
        constructor <;> first | (rw [abs_lt]; omega) | omega
    refine hfine (m/2) (e+1) hm2.1 (by omega) ?_
    rw [hq, zpow_add₀ (by norm_num), zpow_one]
    nth_rewrite 1 [hm2.2]
    push_cast
    ring

end Rounding

section Numbers

inductive Double where
  | finite (q : ℚ) (h : Representable q ∧ |q| < 2^1024)
  | infinite (negative : Bool)
  | nan

/-- The number that a rational is rounded to. -/
def ofRat (q : ℚ) : Double :=
  if h : |snap q| < 2^1024 then .finite (snap q) ⟨snap_representable q,h⟩
  else .infinite (q < 0)

def ofInt (z : ℤ) : Double := ofRat z

namespace Double

def neg : Double → Double
  | .finite q _ => ofRat (-q)
  | .infinite negative => .infinite !negative
  | .nan => .nan

def add : Double → Double → Double
  | .finite a _, .finite b _ => ofRat (a+b)
  | .infinite s, .infinite t => if s = t then .infinite s else .nan
  | .infinite s, .finite _ _ => .infinite s
  | .finite _ _, .infinite t => .infinite t
  | .nan, _ => .nan
  | _, .nan => .nan

def sub (a b : Double) : Double := a.add b.neg

def mul : Double → Double → Double
  | .finite a _, .finite b _ => ofRat (a*b)
  | .infinite s, .infinite t => .infinite (s ≠ t)
  | .infinite s, .finite b _ => if b = 0 then .nan else .infinite (s ≠ decide (b < 0))
  | .finite a _, .infinite t => if a = 0 then .nan else .infinite (t ≠ decide (a < 0))
  | .nan, _ => .nan
  | _, .nan => .nan

def floor : Double → Double
  | .finite q _ => ofInt ⌊q⌋
  | d => d

/-- `fabs(d) <= r`. -/
def absLe (d : Double) (r : ℚ) : Bool :=
  match d with
  | .finite q _ => |q| ≤ r
  | _ => false

/-- `fabs(d) < r`. -/
def absLt (d : Double) (r : ℚ) : Bool :=
  match d with
  | .finite q _ => |q| < r
  | _ => false

/-- `fabs(d) > r`. -/
def absGt (d : Double) (r : ℚ) : Bool :=
  match d with
  | .finite q _ => r < |q|
  | .infinite _ => true
  | .nan => false

/-- `d <= r`. -/
def le (d : Double) (r : ℚ) : Bool :=
  match d with
  | .finite q _ => q ≤ r
  | .infinite negative => negative
  | .nan => false

/-- `d >= r`. -/
def ge (d : Double) (r : ℚ) : Bool :=
  match d with
  | .finite q _ => r ≤ q
  | .infinite negative => !negative
  | .nan => false

end Double

theorem int_representable {z : ℤ} (h : |z| ≤ 2^53) : Representable (z : ℚ) :=
  ⟨z,0,h,by norm_num,by simp⟩

theorem int_finite {z : ℤ} (h : |z| ≤ 2^53) : Representable (z : ℚ) ∧ |(z : ℚ)| < 2^1024 := by
  refine ⟨int_representable h,?_⟩
  calc |(z : ℚ)| ≤ 2^53 := by exact_mod_cast h
    _ < 2^1024 := pow_lt_pow_right₀ (by norm_num) (by norm_num)

theorem ofRat_finite {q : ℚ} (h : Representable q ∧ |q| < 2^1024) : ofRat q = .finite q h := by
  have hs : snap q = q := snap_of_representable h.1
  simp [ofRat, hs, h.2]

theorem ofInt_finite {z : ℤ} (h : |z| ≤ 2^53) : ofInt z = .finite z (int_finite h) :=
  ofRat_finite (int_finite h)

theorem ofInt_mul {a b : ℤ} (ha : |a| ≤ 2^53) (hb : |b| ≤ 2^53) :
    (ofInt a).mul (ofInt b) = ofInt (a*b) := by
  rw [ofInt_finite ha, ofInt_finite hb, Double.mul, ofInt, Int.cast_mul]

theorem ofInt_add {a b : ℤ} (ha : |a| ≤ 2^53) (hb : |b| ≤ 2^53) :
    (ofInt a).add (ofInt b) = ofInt (a+b) := by
  rw [ofInt_finite ha, ofInt_finite hb, Double.add, ofInt, Int.cast_add]

theorem representable_whole {q : ℚ} (h : Representable q) (hq : 2^53 ≤ |q|) : ∃ z : ℤ, q = z := by
  obtain ⟨m,e,hm,he,rfl⟩ := h
  have he0 : 0 ≤ e := by
    by_contra hneg
    have hstep : (2 : ℚ)^e < 1 := zpow_lt_one_of_neg₀ (by norm_num) (by omega)
    have hm' : |(m : ℚ)| ≤ 2^53 := by exact_mod_cast hm
    rw [abs_mul, abs_of_pos (two_zpow_pos e)] at hq
    nlinarith [two_zpow_pos e, abs_nonneg (m : ℚ)]
  refine ⟨m*2^e.toNat,?_⟩
  push_cast
  rw [← zpow_natCast, Int.toNat_of_nonneg he0]

end Numbers

end Duda.Binary64
