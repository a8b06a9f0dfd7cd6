import Duda.Json

/-!
# Numbers in JSON texts

Whole numbers up to `2^53` are printed digit by digit, and the digits are read back to the
same number, although every step of the reader is rounded. The space for a number that is
whole but no `int` is too small for the largest ones.
-/

set_option autoImplicit false

namespace Duda.JsonNumber
open Duda.Binary64 Duda.Decimal Duda.Json

section Reading

/-- What may follow a number. -/
def Stops (rest : List UInt8) : Prop :=
  ∀ c ∈ rest.head?, ¬IsDigit c ∧ c ≠ 46 ∧ c ≠ 101 ∧ c ≠ 69

theorem digitsLoop_value (v : ℕ) (count : ℤ) (ds rest : List UInt8) (hd : ∀ c ∈ ds, IsDigit c)
    (hv : value v ds ≤ 2^53) (hr : ∀ c ∈ rest.head?, ¬IsDigit c) :
    digitsLoop (ofInt v) count (ds++rest) = (ofInt (value v ds),count+ds.length,rest) := by
  induction ds generalizing v count with
  | nil =>
    cases rest with
    | nil => simp [digitsLoop, value]
    | cons c rest => simp [digitsLoop, value, hr c (by simp)]
  | cons c ds ih =>
    rw [List.forall_mem_cons] at hd
    have hnext : value v (c::ds) = value (v*10+(c.toNat-48)) ds := rfl
    rw [hnext] at hv ⊢
    have hmono := value_mono ds (v*10+(c.toNat-48))
    have hc := hd.1
    rw [IsDigit] at hc
    have hstep : ((ofInt v).mul (ofInt 10)).add (ofInt (c.toNat-48)) =
        ofInt ((v*10+(c.toNat-48) : ℕ) : ℤ) := by
      rw [ofInt_mul (by rw [abs_le]; omega) (by norm_num), ofInt_add (by rw [abs_le]; omega)
        (by rw [abs_le]; omega)]
      congr 1
      omega
    rw [List.cons_append, digitsLoop, if_pos hd.1, hstep, ih _ _ hd.2 hv, List.length_cons]
    simp only [Prod.mk.injEq, true_and, and_true]
    push_cast
    ring

theorem decimal_head {n : ℕ} (h : 0 < n) :
    ∃ c t, decimal n = c::t ∧ IsDigit c ∧ c ≠ 48 := by
  induction n using decimal.induct with
  | case1 n hn =>
    refine ⟨digit n,[],by rw [decimal, if_pos hn],digit_isDigit hn,fun h48 => ?_⟩
    have := congrArg UInt8.toNat h48
    rw [digit_toNat hn] at this
    simp at this
    omega
  | case2 n hn ih =>
    obtain ⟨c,t,ht,hc⟩ := ih (by omega)
    exact ⟨c,t++[digit (n%10)],by rw [decimal, if_neg hn, ht]; rfl,hc⟩

theorem numberWhole_decimal (n : ℕ) (rest : List UInt8) (hn : n ≤ 2^53) (hr : Stops rest) :
    numberWhole (numberZero (decimal n++rest)) = (ofInt n,rest) := by
  have hdigit : ∀ c ∈ rest.head?, ¬IsDigit c := fun c hc => (hr c hc).1
  rcases Nat.eq_zero_or_pos n with rfl | hpos
  · have hzero : numberZero (decimal 0++rest) = rest := by
      rw [decimal, if_pos (by omega)]
      rfl
    rw [hzero]
    cases rest with
    | nil => rfl
    | cons c rest => simp [numberWhole, hdigit c (by simp)]
  · obtain ⟨c,t,ht,hc,h48⟩ := decimal_head hpos
    have hloop := digitsLoop_value 0 0 (decimal n) rest (decimal_isDigit n)
      (by rwa [value_decimal]) hdigit
    rw [value_decimal] at hloop
    rw [ht, List.cons_append] at hloop ⊢
    rw [numberZero, if_neg h48, numberWhole, if_pos ⟨hc,h48⟩]
    simp only [Nat.cast_zero] at hloop
    rw [hloop]

theorem numberFraction_stops (n : Double) {rest : List UInt8} (hr : Stops rest) :
    numberFraction n rest = (n,0,rest) := by
  unfold numberFraction
  split
  · rename_i c d p
    rw [if_neg fun h => (hr c (by simp)).2.1 h.1]
  · rfl

theorem numberExponent_stops {rest : List UInt8} (hr : Stops rest) :
    numberExponent rest = some (0,rest) := by
  cases rest with
  | nil => rfl
  | cons c rest =>
    have h := (hr c (by simp)).2.2
    rw [numberExponent, if_neg (by tauto)]

theorem numberSign_signed (z : ℤ) (rest : List UInt8) :
    numberSign (signed z++rest) = (if z < 0 then -1 else 1,decimal z.natAbs++rest) := by
  unfold signed
  split_ifs with hz
  · simp [numberSign]
  · obtain ⟨c,t,ht⟩ := List.exists_cons_of_ne_nil (decimal_ne_nil z.natAbs)
    have hc : IsDigit c := decimal_isDigit z.natAbs c (by rw [ht]; simp)
    have h45 : c ≠ 45 := fun h => by
      rw [h] at hc
      exact absurd hc (by decide)
    rw [ht, List.cons_append, numberSign, if_neg h45]

/-- A whole number that was printed is read back. -/
theorem parseNumber_signed (P : Platform) (z : ℤ) (rest : List UInt8) (hz : |z| ≤ 2^53)
    (hr : Stops rest) :
    parseNumber P (signed z++rest) = .ok (cjsonCreateNumber P (ofInt z)) rest := by
  have hrange := abs_le.1 hz
  have habs : z.natAbs ≤ 2^53 := by omega
  have hsign : (ofInt (if z < 0 then -1 else 1)).mul (ofInt z.natAbs) = ofInt z := by
    rw [ofInt_mul (by split_ifs <;> norm_num) (by rw [abs_le]; omega)]
    congr 1
    split_ifs <;> omega
  have hone : (ofInt z).mul (ofInt 1) = ofInt z := by
    rw [ofInt_mul hz (by norm_num), mul_one]
  unfold parseNumber
  rw [numberSign_signed]
  simp only [numberWhole_decimal _ _ habs hr, numberFraction_stops _ hr, numberExponent_stops hr,
    neg_zero, add_zero, P.pow_zero, hsign, hone]
  rfl

end Reading

section Printing

theorem decimal_length_le {n k : ℕ} (hk : 0 < k) (h : n < 10^k) : (decimal n).length ≤ k := by
  induction n using decimal.induct generalizing k with
  | case1 n hn =>
    rw [decimal, if_pos hn]
    exact hk
  | case2 n hn ih =>
    cases k with
    | zero => omega
    | succ k =>
      have hkpos : 0 < k := by
        rcases Nat.eq_zero_or_pos k with rfl | hpos
        · omega
        · exact hpos
      have hdiv := ih hkpos (Nat.div_lt_of_lt_mul (by rwa [pow_succ, mul_comm] at h))
      rw [decimal, if_neg hn, List.length_append, List.length_singleton]
      omega

theorem decimal_length_gt {n k : ℕ} (h : 10^k ≤ n) : k < (decimal n).length := by
  induction n using decimal.induct generalizing k with
  | case1 n hn =>
    have hk : k = 0 := by
      by_contra hne
      have : 10^1 ≤ 10^k := Nat.pow_le_pow_right (by omega) (by omega)
      omega
    rw [decimal, if_pos hn, hk]
    exact Nat.zero_lt_one
  | case2 n hn ih =>
    rw [decimal, if_neg hn, List.length_append, List.length_singleton]
    cases k with
    | zero => omega
    | succ k =>
      have hdiv := ih (k := k) ((Nat.le_div_iff_mul_le (by omega)).2 (by rwa [pow_succ] at h))
      omega

variable (P : Platform) {q : ℚ} {z : ℤ}

theorem signed_length_le {k : ℕ} (hk : 0 < k) (h0 : -10^k < z) (h : z < 10^(k+1)) :
    (signed z).length ≤ k+1 := by
  unfold signed
  split_ifs with hz
  · have hlen := decimal_length_le hk (show z.natAbs < 10^k by zify; rw [abs_of_neg hz]; omega)
    rw [List.length_cons]
    omega
  · exact decimal_length_le (by omega) (by zify; rw [abs_of_nonneg (by omega)]; exact h)

theorem signed_length_gt {k : ℕ} (h : z ≤ -10^k ∨ 10^(k+1) ≤ z) : k+1 < (signed z).length := by
  unfold signed
  split_ifs with hz
  · have hpow : (0 : ℤ) < 10^(k+1) := by positivity
    have hlen := decimal_length_gt (show 10^k ≤ z.natAbs by zify; rw [abs_of_neg hz]; omega)
    rw [List.length_cons]
    omega
  · have hpow : (0 : ℤ) < 10^k := by positivity
    exact decimal_length_gt (by zify; rw [abs_of_nonneg (by omega)]; omega)

theorem compose_fits {size : ℤ} {text : List UInt8} (h : text.length+1 ≤ size) :
    compose size text = .ok text := by
  rw [compose, if_neg (by omega), if_pos h]

theorem sub_self_small (h : Representable q ∧ |q| < 2^1024) :
    ((Double.finite q h).sub (.finite q h)).absLe epsilon = true := by
  have hneg : Representable (-q) ∧ |-q| < 2^1024 := by
    obtain ⟨⟨m,e,hm,he,hq⟩,hlt⟩ := h
    refine ⟨⟨-m,e,by rwa [abs_neg],he,?_⟩,by rwa [abs_neg]⟩
    rw [hq]
    push_cast
    ring
  have hzero : ofRat 0 = .finite 0 ⟨⟨0,0,by norm_num,by norm_num,by simp⟩,by norm_num⟩ :=
    ofRat_finite _
  rw [Double.sub, Double.neg, ofRat_finite hneg, Double.add, add_neg_cancel, hzero]
  simp [Double.absLe, epsilon]

theorem toInt_whole (h : Representable q ∧ |q| < 2^1024) (hq : q = z) (h0 : -2^31 ≤ z)
    (h1 : z < 2^31) : toInt P (.finite q h) = z := by
  subst hq
  simp only [toInt, Int.floor_intCast, Int.ceil_intCast, ite_self]
  rw [if_pos ⟨h0,h1⟩]

theorem toInt_range (d : Double) : -2^31 ≤ toInt P d ∧ toInt P d < 2^31 := by
  unfold toInt
  split
  · rename_i q h
    by_cases hin : -2^31 ≤ (if 0 ≤ q then ⌊q⌋ else ⌈q⌉) ∧ (if 0 ≤ q then ⌊q⌋ else ⌈q⌉) < 2^31
    · simp only [if_pos hin]
      exact hin
    · simp only [if_neg hin]
      exact P.overflow_range _
  · exact P.overflow_range _

theorem printNumber_whole (h : Representable q ∧ |q| < 2^1024) (hq : q = z) :
    printNumber P (toInt P (.finite q h)) (.finite q h) =
      compose (if -2^31 ≤ z ∧ z < 2^31 then 21 else 64) (signed z) := by
  have hself := sub_self_small h
  have hofInt : ofInt z = .finite q h := by
    subst hq
    exact ofRat_finite h
  have hwhole : ⌊q⌋ = z ∧ nearest q = z := by
    rw [hq]
    exact ⟨Int.floor_intCast z,nearest_whole z⟩
  by_cases hin : -2^31 ≤ z ∧ z < 2^31
  · have hle : (Double.finite q h).le (2^31-1) = true := by
      rw [Double.le, decide_eq_true_eq, hq]
      exact_mod_cast Int.le_sub_one_of_lt hin.2
    have hge : (Double.finite q h).ge (-2^31) = true := by
      rw [Double.ge, decide_eq_true_eq, hq]
      exact_mod_cast hin.1
    rw [if_pos hin, toInt_whole P h hq hin.1 hin.2, printNumber, hofInt, if_pos ⟨hself,hle,hge⟩]
  · have hout : ¬((Double.finite q h).le (2^31-1) = true ∧
        (Double.finite q h).ge (-2^31) = true) := by
      rw [Double.le, Double.ge, decide_eq_true_eq, decide_eq_true_eq, hq]
      rintro ⟨hle,hge⟩
      have hle' : z ≤ 2^31-1 := by exact_mod_cast hle
      have hge' : -2^31 ≤ z := by exact_mod_cast hge
      omega
    have hfloor : (Double.finite q h).floor = .finite q h := by
      rw [Double.floor, hwhole.1, hofInt]
    rw [if_neg hin, printNumber, if_neg fun hc => hout hc.2, hfloor, if_pos hself, wholeText,
      hwhole.2]

theorem compose_fault_iff {size : ℤ} {text : List UInt8} (h : 0 ≤ size) :
    compose size text = .fault ↔ size < text.length+1 := by
  rw [compose, if_neg (by omega)]
  split_ifs with hfit
  · simp only [false_iff]
    omega
  · simp only [true_iff]
    omega

theorem printNumber_small (h : Representable q ∧ |q| < 2^1024) (hq : -2^53 ≤ q ∧ q ≤ 2^53) :
    printNumber P (toInt P (.finite q h)) (.finite q h) ≠ .fault := by
  have hint := toInt_range P (.finite q h)
  have hnear : -2^53 ≤ nearest q ∧ nearest q ≤ 2^53 :=
    ⟨le_nearest (by exact_mod_cast hq.1),nearest_le (by exact_mod_cast hq.2)⟩
  unfold printNumber
  split_ifs with h1 h2 h3
  · have hlen := signed_length_le (z := toInt P (.finite q h)) (k := 10) (by norm_num) (by omega)
      (by omega)
    rw [Ne, compose_fault_iff (by norm_num)]
    omega
  · have hlen := signed_length_le (z := nearest q) (k := 16) (by norm_num) (by omega) (by omega)
    rw [Ne, compose_fault_iff (by norm_num), wholeText]
    omega
  · have hlen := P.scientific_short (.finite q h)
    rw [Ne, compose_fault_iff (by norm_num)]
    omega
  · have hlen := P.fixed_short (.finite q h) (by simpa using fun hgt => h3 (.inr hgt))
    rw [Ne, compose_fault_iff (by norm_num)]
    omega

/-- The space for a number is too small exactly when it is whole with more than 63
characters. -/
theorem printNumber_fault_iff (h : Representable q ∧ |q| < 2^1024) :
    printNumber P (toInt P (.finite q h)) (.finite q h) = .fault ↔ q ≤ -10^62 ∨ 10^63 ≤ q := by
  by_cases hlarge : 2^53 ≤ |q|
  · obtain ⟨z,hz⟩ := representable_whole h.1 hlarge
    have hlarge' : 2^53 ≤ |z| := by
      rw [hz] at hlarge
      exact_mod_cast hlarge
    have hrange : q ≤ -10^62 ∨ 10^63 ≤ q ↔ z ≤ -10^62 ∨ 10^63 ≤ z := by
      rw [hz]
      norm_cast
    rw [printNumber_whole P h hz, if_neg (by rw [le_abs] at hlarge'; omega), hrange,
      compose_fault_iff (by norm_num)]
    constructor
    · intro hlen
      by_contra hnot
      have := signed_length_le (k := 62) (by norm_num) (by omega) (show z < 10^63 by omega)
      omega
    · intro hz
      have := signed_length_gt (k := 62) hz
      omega
  · have hsmall := abs_lt.1 (lt_of_not_ge hlarge)
    have hnot : ¬(q ≤ -10^62 ∨ 10^63 ≤ q) := by
      rintro (hq | hq) <;> norm_num at hq hsmall <;> linarith
    simp only [hnot, iff_false]
    exact printNumber_small P h ⟨hsmall.1.le,hsmall.2.le⟩

/-- An infinity and what is no number are printed as they are. -/
theorem printNumber_unbounded (valueint : ℤ) {d : Double} (h : ∀ q hq, d ≠ .finite q hq) :
    printNumber P valueint d ≠ .fault := by
  have hlarge : ¬((ofInt valueint).sub d).absLe epsilon = true ∧
      ¬(d.floor.sub d).absLe epsilon = true := by
    cases d with
    | finite q hq => exact absurd rfl (h q hq)
    | infinite negative =>
      constructor
      · cases ofInt valueint with
        | finite q hq => simp [Double.sub, Double.neg, Double.add, Double.absLe]
        | infinite s =>
          simp only [Double.sub, Double.neg, Double.add]
          split_ifs <;> simp [Double.absLe]
        | nan => simp [Double.sub, Double.add, Double.absLe]
      · cases negative <;> simp [Double.floor, Double.sub, Double.neg, Double.add, Double.absLe]
    | nan =>
      constructor
      · cases ofInt valueint <;> simp [Double.sub, Double.neg, Double.add, Double.absLe]
      · simp [Double.floor, Double.sub, Double.neg, Double.add, Double.absLe]
  rw [printNumber, if_neg fun hc => hlarge.1 hc.1, if_neg hlarge.2]
  split_ifs with hgt
  · have hlen := P.scientific_short d
    rw [Ne, compose_fault_iff (by norm_num)]
    omega
  · have hlen := P.fixed_short d (by simpa using fun hc => hgt (.inr hc))
    rw [Ne, compose_fault_iff (by norm_num)]
    omega

/-- Which numbers a program must not print: the text of a whole number with 64 characters or
more is written outside of its space. -/
theorem number_overflows_iff (P : Platform) (d : Double) :
    cjsonPrint P (cjsonCreateNumber P d) = .fault ↔
      ∃ q h, d = .finite q h ∧ (q ≤ -10^62 ∨ 10^63 ≤ q) := by
  have hprint : cjsonPrint P (cjsonCreateNumber P d) = printNumber P (toInt P d) d := rfl
  rw [hprint]
  cases d with
  | finite q h =>
    rw [printNumber_fault_iff P h]
    exact ⟨fun hq => ⟨q,h,rfl,hq⟩,fun ⟨_,_,he,hq⟩ => by cases he; exact hq⟩
  | infinite negative =>
    have hno := printNumber_unbounded P (toInt P (.infinite negative)) (d := .infinite negative)
      (by simp)
    simp [hno]
  | nan =>
    have hno := printNumber_unbounded P (toInt P .nan) (d := .nan) (by simp)
    simp [hno]

end Printing

end Duda.JsonNumber
