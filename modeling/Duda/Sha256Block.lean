import Duda.FrameCodec

/-!
# The compression of SHA-256

The type `uint32` of the package is `unsigned long int`, which has 64 bits. No
sum is reduced, a rotation leaves the bits it turns out of the word above it,
and only a right shift masks its operand. What the lower halves of the words
hold is nevertheless what the standard computes with words of 32 bits. As in
SHA-1 the registers are named anew in every line instead of being moved.
-/

set_option autoImplicit false

namespace Duda.Sha256Block
open Duda.FrameCodec

inductive Reg where
  | A | B | C | D | E | F | G | H
  deriving DecidableEq, Repr

/-- Eight words of `w` bits. -/
structure Regs (w : ℕ) where
  A : BitVec w
  B : BitVec w
  C : BitVec w
  D : BitVec w
  E : BitVec w
  F : BitVec w
  G : BitVec w
  H : BitVec w
  deriving DecidableEq, Repr

variable {w : ℕ}

def Regs.get (r : Regs w) : Reg → BitVec w
  | .A => r.A
  | .B => r.B
  | .C => r.C
  | .D => r.D
  | .E => r.E
  | .F => r.F
  | .G => r.G
  | .H => r.H

def Regs.set (r : Regs w) (x : BitVec w) : Reg → Regs w
  | .A => { r with A := x }
  | .B => { r with B := x }
  | .C => { r with C := x }
  | .D => { r with D := x }
  | .E => { r with E := x }
  | .F => { r with F := x }
  | .G => { r with G := x }
  | .H => { r with H := x }

def Regs.add (r s : Regs w) : Regs w :=
  ⟨r.A+s.A,r.B+s.B,r.C+s.C,r.D+s.D,r.E+s.E,r.F+s.F,r.G+s.G,r.H+s.H⟩

/-- The constants `K` of the lines. -/
def constants : List ℕ :=
  [0x428a2f98,0x71374491,0xb5c0fbcf,0xe9b5dba5,0x3956c25b,0x59f111f1,0x923f82a4,0xab1c5ed5,
    0xd807aa98,0x12835b01,0x243185be,0x550c7dc3,0x72be5d74,0x80deb1fe,0x9bdc06a7,0xc19bf174,
    0xe49b69c1,0xefbe4786,0x0fc19dc6,0x240ca1cc,0x2de92c6f,0x4a7484aa,0x5cb0a9dc,0x76f988da,
    0x983e5152,0xa831c66d,0xb00327c8,0xbf597fc7,0xc6e00bf3,0xd5a79147,0x06ca6351,0x14292967,
    0x27b70a85,0x2e1b2138,0x4d2c6dfc,0x53380d13,0x650a7354,0x766a0abb,0x81c2c92e,0x92722c85,
    0xa2bfe8a1,0xa81a664b,0xc24b8b70,0xc76c51a3,0xd192e819,0xd6990624,0xf40e3585,0x106aa070,
    0x19a4c116,0x1e376c08,0x2748774c,0x34b0bcb5,0x391c0cb3,0x4ed8aa4a,0x5b9cca4f,0x682e6ff3,
    0x748f82ee,0x78a5636f,0x84c87814,0x8cc70208,0x90befffa,0xa4506ceb,0xbef9a3f7,0xc67178f2]

section Source

/-- `GET_UINT32(n, b, i)`. -/
def getUint32 (b : List UInt8) (i : ℕ) : BitVec 64 :=
  BitVec.ofNat 64 (b.getD i 0).toNat <<< 24 ||| BitVec.ofNat 64 (b.getD (i+1) 0).toNat <<< 16 |||
    BitVec.ofNat 64 (b.getD (i+2) 0).toNat <<< 8 ||| BitVec.ofNat 64 (b.getD (i+3) 0).toNat

def SHR (x : BitVec 64) (n : ℕ) : BitVec 64 := (x &&& 0xffffffff#64) >>> n

def ROTR (x : BitVec 64) (n : ℕ) : BitVec 64 := SHR x n ||| x <<< (32-n)

def S0 (x : BitVec 64) : BitVec 64 := ROTR x 7 ^^^ ROTR x 18 ^^^ SHR x 3

def S1 (x : BitVec 64) : BitVec 64 := ROTR x 17 ^^^ ROTR x 19 ^^^ SHR x 10

def S2 (x : BitVec 64) : BitVec 64 := ROTR x 2 ^^^ ROTR x 13 ^^^ ROTR x 22

def S3 (x : BitVec 64) : BitVec 64 := ROTR x 6 ^^^ ROTR x 11 ^^^ ROTR x 25

def F0 (x y z : BitVec 64) : BitVec 64 := x &&& y ||| z &&& (x ||| y)

def F1 (x y z : BitVec 64) : BitVec 64 := z ^^^ x &&& (y ^^^ z)

/-- The registers and the array `W` between two lines. -/
structure Rounds where
  regs : Regs 64
  W : ℕ → BitVec 64

/-- The assignment of `R(t)`. -/
def R (W : ℕ → BitVec 64) (t : ℕ) : ℕ → BitVec 64 :=
  Function.update W t (S1 (W (t-2))+W (t-7)+S0 (W (t-15))+W (t-16))

/-- `P`: the registers `d` and `h` are assigned. -/
def P (r : Regs 64) (x K : BitVec 64) (a b c d e f g h : Reg) : Regs 64 :=
  let temp1 := r.get h+S3 (r.get e)+F1 (r.get e) (r.get f) (r.get g)+K+x
  let temp2 := S2 (r.get a)+F0 (r.get a) (r.get b) (r.get c)
  (r.set (r.get d+temp1) d).set (temp1+temp2) h

/-- The registers that the line for `t` names. -/
def named (t : ℕ) (call : Reg → Reg → Reg → Reg → Reg → Reg → Reg → Reg → Regs 64) : Regs 64 :=
  match t%8 with
  | 0 => call .A .B .C .D .E .F .G .H
  | 1 => call .H .A .B .C .D .E .F .G
  | 2 => call .G .H .A .B .C .D .E .F
  | 3 => call .F .G .H .A .B .C .D .E
  | 4 => call .E .F .G .H .A .B .C .D
  | 5 => call .D .E .F .G .H .A .B .C
  | 6 => call .C .D .E .F .G .H .A .B
  | _ => call .B .C .D .E .F .G .H .A

def line (t : ℕ) (s : Rounds) : Rounds :=
  let W := if t < 16 then s.W else R s.W t
  ⟨named t (P s.regs (W t) (BitVec.ofNat 64 (constants.getD t 0))),W⟩

def lines (s : Rounds) : ℕ → Rounds
  | 0 => s
  | t+1 => line t (lines s t)

/-- `sha256_process`, where `uninit` is what `W` holds behind the words of the block. -/
def sha256Process (uninit : ℕ → BitVec 64) (state : Regs 64) (data : List UInt8) : Regs 64 :=
  let W := fun i => if i < 16 then getUint32 data (4*i) else uninit i
  state.add (lines ⟨state,W⟩ 64).regs

end Source

section Standard

def choose (x y z : BitVec 32) : BitVec 32 := x &&& y ^^^ ~~~x &&& z

def majority (x y z : BitVec 32) : BitVec 32 := x &&& y ^^^ x &&& z ^^^ y &&& z

def bigSigma0 (x : BitVec 32) : BitVec 32 :=
  x.rotateRight 2 ^^^ x.rotateRight 13 ^^^ x.rotateRight 22

def bigSigma1 (x : BitVec 32) : BitVec 32 :=
  x.rotateRight 6 ^^^ x.rotateRight 11 ^^^ x.rotateRight 25

def smallSigma0 (x : BitVec 32) : BitVec 32 := x.rotateRight 7 ^^^ x.rotateRight 18 ^^^ x >>> 3

def smallSigma1 (x : BitVec 32) : BitVec 32 := x.rotateRight 17 ^^^ x.rotateRight 19 ^^^ x >>> 10

def schedule (data : List UInt8) (t : ℕ) : BitVec 32 :=
  if t < 16 then BitVec.ofNat 32 (fromBigEndian ((data.drop (4*t)).take 4))
  else smallSigma1 (schedule data (t-2))+schedule data (t-7)+smallSigma0 (schedule data (t-15))+
    schedule data (t-16)

def round (data : List UInt8) (t : ℕ) (s : Regs 32) : Regs 32 :=
  let T1 := s.H+bigSigma1 s.E+choose s.E s.F s.G+BitVec.ofNat 32 (constants.getD t 0)+
    schedule data t
  let T2 := bigSigma0 s.A+majority s.A s.B s.C
  ⟨T1+T2,s.A,s.B,s.C,s.D+T1,s.E,s.F,s.G⟩

def rounds (data : List UInt8) (s : Regs 32) : ℕ → Regs 32
  | 0 => s
  | t+1 => round data t (rounds data s t)

def compress (state : Regs 32) (data : List UInt8) : Regs 32 :=
  state.add (rounds data state 64)

end Standard

section Halves

def low (x : BitVec 64) : BitVec 32 := x.setWidth 32

def lows (r : Regs 64) : Regs 32 :=
  ⟨low r.A,low r.B,low r.C,low r.D,low r.E,low r.F,low r.G,low r.H⟩

variable (x y z : BitVec 64)

@[simp] theorem low_add : low (x+y) = low x+low y := BitVec.setWidth_add x y (by decide)

@[simp] theorem low_and : low (x &&& y) = low x &&& low y := BitVec.setWidth_and

@[simp] theorem low_or : low (x ||| y) = low x ||| low y := BitVec.setWidth_or

@[simp] theorem low_xor : low (x ^^^ y) = low x ^^^ low y := BitVec.setWidth_xor

theorem mask_bit (k : ℕ) : (0xffffffff#64).getLsbD k = decide (k < 32) := by
  have hmask : 0xffffffff#64 = (BitVec.allOnes 32).setWidth 64 := by decide
  rw [hmask, BitVec.getLsbD_setWidth, BitVec.getLsbD_allOnes]
  by_cases h : k < 32
  · simp [h, h.trans (by decide : 32 < 64)]
  · simp [h]

/-- The mask keeps the upper half out of a right shift. -/
@[simp] theorem low_SHR (n : ℕ) : low (SHR x n) = low x >>> n := by
  ext i hi
  simp only [low, SHR, BitVec.getElem_setWidth, BitVec.getLsbD_ushiftRight, BitVec.getLsbD_and,
    mask_bit, BitVec.getElem_ushiftRight, BitVec.getLsbD_setWidth]
  rw [Bool.and_comm]

theorem low_shiftLeft (n : ℕ) : low (x <<< n) = low x <<< n := by
  ext i hi
  simp [low]

theorem low_ROTR (n : ℕ) (h : n < 32) : low (ROTR x n) = (low x).rotateRight n := by
  rw [ROTR, low_or, low_SHR, low_shiftLeft, BitVec.rotateRight_def, Nat.mod_eq_of_lt h]

theorem low_S0 : low (S0 x) = smallSigma0 (low x) := by
  simp [S0, smallSigma0, low_ROTR]

theorem low_S1 : low (S1 x) = smallSigma1 (low x) := by
  simp [S1, smallSigma1, low_ROTR]

theorem low_S2 : low (S2 x) = bigSigma0 (low x) := by
  simp [S2, bigSigma0, low_ROTR]

theorem low_S3 : low (S3 x) = bigSigma1 (low x) := by
  simp [S3, bigSigma1, low_ROTR]

theorem low_F0 : low (F0 x y z) = majority (low x) (low y) (low z) := by
  simp only [F0, majority, low_and, low_or]
  ext i hi
  simp only [BitVec.getElem_xor, BitVec.getElem_and, BitVec.getElem_or]
  cases (low x)[i] <;> cases (low y)[i] <;> cases (low z)[i] <;> rfl

theorem low_F1 : low (F1 x y z) = choose (low x) (low y) (low z) := by
  simp only [F1, choose, low_and, low_xor]
  ext i hi
  simp only [BitVec.getElem_xor, BitVec.getElem_and, BitVec.getElem_not]
  cases (low x)[i] <;> cases (low y)[i] <;> cases (low z)[i] <;> rfl

theorem low_ofNat (n : ℕ) : low (BitVec.ofNat 64 n) = BitVec.ofNat 32 n :=
  BitVec.setWidth_ofNat_of_le (by decide) n

end Halves

section Lines

/-- The registers in the order in which the line for `t` names them. -/
def turned (t : ℕ) (r : Regs 64) : Regs 64 :=
  match t%8 with
  | 0 => r
  | 1 => ⟨r.H,r.A,r.B,r.C,r.D,r.E,r.F,r.G⟩
  | 2 => ⟨r.G,r.H,r.A,r.B,r.C,r.D,r.E,r.F⟩
  | 3 => ⟨r.F,r.G,r.H,r.A,r.B,r.C,r.D,r.E⟩
  | 4 => ⟨r.E,r.F,r.G,r.H,r.A,r.B,r.C,r.D⟩
  | 5 => ⟨r.D,r.E,r.F,r.G,r.H,r.A,r.B,r.C⟩
  | 6 => ⟨r.C,r.D,r.E,r.F,r.G,r.H,r.A,r.B⟩
  | _ => ⟨r.B,r.C,r.D,r.E,r.F,r.G,r.H,r.A⟩

/-- The lower halves of the words so far are those of the schedule. -/
def Scheduled (data : List UInt8) (t : ℕ) (W : ℕ → BitVec 64) : Prop :=
  ∀ j, j < 16 ∨ j < t → low (W j) = schedule data j

variable (data : List UInt8) (t : ℕ) (s : Rounds)

/-- With the names turned further, two assignments move all eight registers. -/
theorem line_turned (r : Regs 64) (x K : BitVec 64) :
    lows (turned (t+1) (named t (P r x K))) =
      let q := lows (turned t r)
      let T1 := q.H+bigSigma1 q.E+choose q.E q.F q.G+low K+low x
      ⟨T1+(bigSigma0 q.A+majority q.A q.B q.C),q.A,q.B,q.C,q.D+T1,q.E,q.F,q.G⟩ := by
  have hnext : (t+1)%8 = (t%8+1)%8 := by omega
  have hlt : t%8 < 8 := Nat.mod_lt _ (by decide)
  simp only [turned, named, hnext]
  generalize t%8 = k at hlt
  interval_cases k <;> simp only [Nat.reduceAdd, Nat.reduceMod, P, Regs.get, Regs.set, lows,
    low_add, low_S2, low_S3, low_F0, low_F1]

theorem word_scheduled (h : Scheduled data t s.W) :
    Scheduled data (t+1) (if t < 16 then s.W else R s.W t) := by
  intro j hj
  by_cases ht : t < 16
  · rw [if_pos ht]
    exact h j (by omega)
  · rw [if_neg ht, R]
    by_cases hjt : j = t
    · subst hjt
      rw [Function.update_self, schedule, if_neg ht, low_add, low_add, low_add, low_S1, low_S0,
        h _ (by omega), h _ (by omega), h _ (by omega), h _ (by omega)]
    · rw [Function.update_of_ne hjt]
      exact h j (by omega)

/-- One line is one round of the standard on the lower halves. -/
theorem line_round (h : Scheduled data t s.W) :
    lows (turned (t+1) (line t s).regs) = round data t (lows (turned t s.regs)) := by
  have hword := word_scheduled data t s h t (by omega)
  rw [line, line_turned, round, low_ofNat, hword]

/-- The lines so far are the rounds so far. -/
theorem lines_rounds (h : Scheduled data 0 s.W) :
    lows (turned t (lines s t).regs) = rounds data (lows s.regs) t ∧
      Scheduled data t (lines s t).W := by
  induction t with
  | zero => exact ⟨rfl,h⟩
  | succ t ih =>
    rw [lines, rounds, ← ih.1]
    exact ⟨line_round data t _ ih.2,word_scheduled data t _ ih.2⟩

end Lines

section Block

theorem word_toNat (a b c d : ℕ) (ha : a < 256) (hb : b < 256) (hc : c < 256) (hd : d < 256) :
    (BitVec.ofNat 64 a <<< 24 ||| BitVec.ofNat 64 b <<< 16 ||| BitVec.ofNat 64 c <<< 8 |||
      BitVec.ofNat 64 d).toNat = a*2^24+b*2^16+c*2^8+d := by
  have hput : ∀ n m k : ℕ, m < 2^k → n*2^k ||| m = n*2^k+m := by
    intro n m k h
    rw [← Nat.shiftLeft_eq, ← Nat.shiftLeft_add_eq_or_of_lt h]
  simp only [BitVec.toNat_or, BitVec.toNat_shiftLeft, BitVec.toNat_ofNat, Nat.shiftLeft_eq]
  rw [Nat.mod_eq_of_lt (a := a) (by omega), Nat.mod_eq_of_lt (a := b) (by omega),
    Nat.mod_eq_of_lt (a := c) (by omega), Nat.mod_eq_of_lt (a := d) (by omega),
    Nat.mod_eq_of_lt (by omega), Nat.mod_eq_of_lt (by omega), Nat.mod_eq_of_lt (by omega),
    Nat.or_assoc, Nat.or_assoc, hput c d 8 (by omega), hput b _ 16 (by omega),
    hput a _ 24 (by omega)]
  omega

theorem low_getUint32 (data : List UInt8) (i : ℕ) (h : i+4 ≤ data.length) :
    low (getUint32 data i) = BitVec.ofNat 32 (fromBigEndian ((data.drop i).take 4)) := by
  have hfour : (data.drop i).take 4 =
      [data.getD i 0,data.getD (i+1) 0,data.getD (i+2) 0,data.getD (i+3) 0] := by
    apply List.ext_getElem
    · simp only [List.length_take, List.length_drop, List.length_cons, List.length_nil]
      omega
    · intro k h1 h2
      simp only [List.length_cons, List.length_nil] at h2
      have hget : data.getD (i+k) 0 = data[i+k] := by
        rw [List.getD_eq_getElem?_getD, List.getElem?_eq_getElem (by omega), Option.getD_some]
      rw [List.getElem_take, List.getElem_drop, ← hget]
      interval_cases k <;> rfl
  have hbytes := word_toNat _ _ _ _ (data.getD i 0).toNat_lt (data.getD (i+1) 0).toNat_lt
    (data.getD (i+2) 0).toNat_lt (data.getD (i+3) 0).toNat_lt
  apply BitVec.eq_of_toNat_eq
  rw [hfour, low, BitVec.toNat_setWidth, getUint32, hbytes, BitVec.toNat_ofNat]
  simp only [fromBigEndian, List.length_cons, List.length_nil]
  ring_nf

theorem low_lows (r s : Regs 64) : lows (r.add s) = (lows r).add (lows s) := by
  simp only [lows, Regs.add, low_add]

/-- The lower halves of what the block function computes are the compression of the
standard. -/
theorem process_compress (uninit : ℕ → BitVec 64) (state : Regs 64) (data : List UInt8)
    (h : data.length = 64) :
    lows (sha256Process uninit state data) = compress (lows state) data := by
  have hwords : Scheduled data 0
      (fun i => if i < 16 then getUint32 data (4*i) else uninit i) := by
    intro j hj
    have hj16 : j < 16 := by omega
    simp only [if_pos hj16]
    rw [schedule, if_pos hj16, low_getUint32 data (4*j) (by omega)]
  have hlines := (lines_rounds data 64 ⟨state,_⟩ hwords).1
  rw [sha256Process, low_lows, compress, ← hlines]
  rfl

end Block

end Duda.Sha256Block
