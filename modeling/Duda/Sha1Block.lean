import Duda.FrameCodec

/-!
# The compression of SHA-1

`blk_SHA1_Block` never moves a value from one register to the next. Every one
of its eighty lines calls a macro with the names of the registers turned one
place further, and the sixteen words of the block are overwritten by the words
of the message schedule as they are used up. The standard moves all five
registers in every round and takes its words from a schedule of eighty.
-/

set_option autoImplicit false

namespace Duda.Sha1Block
open Duda.FrameCodec

inductive Reg where
  | A | B | C | D | E
  deriving DecidableEq, Repr

structure Regs where
  A : BitVec 32
  B : BitVec 32
  C : BitVec 32
  D : BitVec 32
  E : BitVec 32
  deriving DecidableEq, Repr

def Regs.get (r : Regs) : Reg → BitVec 32
  | .A => r.A
  | .B => r.B
  | .C => r.C
  | .D => r.D
  | .E => r.E

def Regs.set (r : Regs) (x : BitVec 32) : Reg → Regs
  | .A => { r with A := x }
  | .B => { r with B := x }
  | .C => { r with C := x }
  | .D => { r with D := x }
  | .E => { r with E := x }

def Regs.add (r s : Regs) : Regs := ⟨r.A+s.A,r.B+s.B,r.C+s.C,r.D+s.D,r.E+s.E⟩

/-- The word `get_be32(data + t)`. -/
def getBe32 (data : List UInt8) (t : ℕ) : BitVec 32 :=
  BitVec.ofNat 32 (fromBigEndian ((data.drop (4*t)).take 4))

section Source

def shaRot (x : BitVec 32) (l r : ℕ) : BitVec 32 := x <<< l ||| x >>> r

def shaRol (x : BitVec 32) (n : ℕ) : BitVec 32 := shaRot x n (32-n)

def shaRor (x : BitVec 32) (n : ℕ) : BitVec 32 := shaRot x (32-n) n

/-- The index of `W(x)`, which is `x & 15`. -/
def slot (x : ℕ) : Fin 16 := ⟨x &&& 15,Nat.lt_succ_of_le Nat.and_le_right⟩

/-- The registers and `array` between two lines. -/
structure Rounds where
  regs : Regs
  array : Vector (BitVec 32) 16

def shaMix (array : Vector (BitVec 32) 16) (t : ℕ) : BitVec 32 :=
  shaRol (array.get (slot (t+13)) ^^^ array.get (slot (t+8)) ^^^ array.get (slot (t+2)) ^^^
    array.get (slot t)) 1

/-- `SHA_ROUND`: the registers `e` and `b` are assigned. -/
def shaRound (t : ℕ) (temp : BitVec 32) (fn : BitVec 32 → BitVec 32 → BitVec 32 → BitVec 32)
    (constant : BitVec 32) (s : Rounds) (a b c d e : Reg) : Rounds :=
  let regs := s.regs.set (s.regs.get e+(temp+shaRol (s.regs.get a) 5+
    fn (s.regs.get b) (s.regs.get c) (s.regs.get d)+constant)) e
  ⟨regs.set (shaRor (regs.get b) 2) b,s.array.set (slot t) temp⟩

def T_0_15 (data : List UInt8) (t : ℕ) (s : Rounds) : Reg → Reg → Reg → Reg → Reg → Rounds :=
  shaRound t (getBe32 data t) (fun B C D => (C ^^^ D) &&& B ^^^ D) 0x5a827999 s

def T_16_19 (t : ℕ) (s : Rounds) : Reg → Reg → Reg → Reg → Reg → Rounds :=
  shaRound t (shaMix s.array t) (fun B C D => (C ^^^ D) &&& B ^^^ D) 0x5a827999 s

def T_20_39 (t : ℕ) (s : Rounds) : Reg → Reg → Reg → Reg → Reg → Rounds :=
  shaRound t (shaMix s.array t) (fun B C D => B ^^^ C ^^^ D) 0x6ed9eba1 s

def T_40_59 (t : ℕ) (s : Rounds) : Reg → Reg → Reg → Reg → Reg → Rounds :=
  shaRound t (shaMix s.array t) (fun B C D => (B &&& C)+(D &&& (B ^^^ C))) 0x8f1bbcdc s

def T_60_79 (t : ℕ) (s : Rounds) : Reg → Reg → Reg → Reg → Reg → Rounds :=
  shaRound t (shaMix s.array t) (fun B C D => B ^^^ C ^^^ D) 0xca62c1d6 s

/-- What the line for `t` calls. -/
def callOf (data : List UInt8) (t : ℕ) (s : Rounds) : Reg → Reg → Reg → Reg → Reg → Rounds :=
  if t < 16 then T_0_15 data t s
  else if t < 20 then T_16_19 t s
  else if t < 40 then T_20_39 t s
  else if t < 60 then T_40_59 t s
  else T_60_79 t s

/-- The registers that the line for `t` names. -/
def named (t : ℕ) (call : Reg → Reg → Reg → Reg → Reg → Rounds) : Rounds :=
  match t%5 with
  | 0 => call .A .B .C .D .E
  | 1 => call .E .A .B .C .D
  | 2 => call .D .E .A .B .C
  | 3 => call .C .D .E .A .B
  | _ => call .B .C .D .E .A

def line (data : List UInt8) (t : ℕ) (s : Rounds) : Rounds := named t (callOf data t s)

def lines (data : List UInt8) (s : Rounds) : ℕ → Rounds
  | 0 => s
  | t+1 => line data t (lines data s t)

/-- `blk_SHA1_Block`, where `uninit` is what `array` holds at first. -/
def blkSha1Block (uninit : Vector (BitVec 32) 16) (H : Regs) (data : List UInt8) : Regs :=
  H.add (lines data ⟨H,uninit⟩ 80).regs

end Source

section Standard

/-- The function of the round, which chooses, adds up or takes the majority. -/
def roundFunction (t : ℕ) (b c d : BitVec 32) : BitVec 32 :=
  if t < 20 then b &&& c ^^^ ~~~b &&& d
  else if t < 40 then b ^^^ c ^^^ d
  else if t < 60 then b &&& c ^^^ b &&& d ^^^ c &&& d
  else b ^^^ c ^^^ d

def roundConstant (t : ℕ) : BitVec 32 :=
  if t < 20 then 0x5a827999
  else if t < 40 then 0x6ed9eba1
  else if t < 60 then 0x8f1bbcdc
  else 0xca62c1d6

def schedule (data : List UInt8) (t : ℕ) : BitVec 32 :=
  if t < 16 then getBe32 data t
  else (schedule data (t-3) ^^^ schedule data (t-8) ^^^ schedule data (t-14) ^^^
    schedule data (t-16)).rotateLeft 1

def round (data : List UInt8) (t : ℕ) (s : Regs) : Regs :=
  ⟨s.A.rotateLeft 5+roundFunction t s.B s.C s.D+s.E+roundConstant t+schedule data t,s.A,
    s.B.rotateLeft 30,s.C,s.D⟩

def rounds (data : List UInt8) (s : Regs) : ℕ → Regs
  | 0 => s
  | t+1 => round data t (rounds data s t)

def compress (H : Regs) (data : List UInt8) : Regs := H.add (rounds data H 80)

end Standard

section Words

variable (x y z : BitVec 32)

theorem choose_eq : (y ^^^ z) &&& x ^^^ z = x &&& y ^^^ ~~~x &&& z := by
  ext i hi
  simp only [BitVec.getElem_xor, BitVec.getElem_and, BitVec.getElem_not]
  cases x[i] <;> cases y[i] <;> cases z[i] <;> rfl

/-- The two summands of the macro have no bit in common. -/
theorem majority_eq : (x &&& y)+(z &&& (x ^^^ y)) = x &&& y ^^^ x &&& z ^^^ y &&& z := by
  have hdisjoint : (x &&& y) &&& (z &&& (x ^^^ y)) = 0#32 := by
    ext i hi
    simp only [BitVec.getElem_xor, BitVec.getElem_and, BitVec.getElem_zero]
    cases x[i] <;> cases y[i] <;> cases z[i] <;> rfl
  rw [BitVec.add_eq_or_of_and_eq_zero _ _ hdisjoint]
  ext i hi
  simp only [BitVec.getElem_xor, BitVec.getElem_and, BitVec.getElem_or]
  cases x[i] <;> cases y[i] <;> cases z[i] <;> rfl

theorem shaRol_one : shaRol x 1 = x.rotateLeft 1 := rfl

theorem shaRol_five : shaRol x 5 = x.rotateLeft 5 := rfl

theorem shaRor_two : shaRor x 2 = x.rotateLeft 30 := rfl

theorem slot_mod (t : ℕ) : (slot t).val = t%16 := Nat.and_two_pow_sub_one_eq_mod t 4

end Words

section Lines

/-- The registers in the order in which the line for `t` names them. -/
def turned (t : ℕ) (r : Regs) : Regs :=
  match t%5 with
  | 0 => r
  | 1 => ⟨r.E,r.A,r.B,r.C,r.D⟩
  | 2 => ⟨r.D,r.E,r.A,r.B,r.C⟩
  | 3 => ⟨r.C,r.D,r.E,r.A,r.B⟩
  | _ => ⟨r.B,r.C,r.D,r.E,r.A⟩

/-- The last sixteen words of the schedule before `t` are in the array. -/
def Rolling (data : List UInt8) (t : ℕ) (array : Vector (BitVec 32) 16) : Prop :=
  ∀ j, j < t → t ≤ j+16 → array.get (slot j) = schedule data j

variable (data : List UInt8) (t : ℕ) (s : Rounds)

/-- With the names turned further, two assignments move all five registers. -/
theorem round_turned (temp constant : BitVec 32)
    (fn : BitVec 32 → BitVec 32 → BitVec 32 → BitVec 32) :
    turned (t+1) (named t (shaRound t temp fn constant s)).regs =
      ⟨(turned t s.regs).E+(temp+shaRol (turned t s.regs).A 5+
        fn (turned t s.regs).B (turned t s.regs).C (turned t s.regs).D+constant),
        (turned t s.regs).A,shaRor (turned t s.regs).B 2,(turned t s.regs).C,
        (turned t s.regs).D⟩ := by
  have hturn : t%5 = 0 ∧ (t+1)%5 = 1 ∨ t%5 = 1 ∧ (t+1)%5 = 2 ∨ t%5 = 2 ∧ (t+1)%5 = 3 ∨
      t%5 = 3 ∧ (t+1)%5 = 4 ∨ t%5 = 4 ∧ (t+1)%5 = 0 := by omega
  rcases hturn with ⟨h,hn⟩ | ⟨h,hn⟩ | ⟨h,hn⟩ | ⟨h,hn⟩ | ⟨h,hn⟩
  all_goals simp only [turned, named, h, hn, shaRound, Regs.get, Regs.set]

theorem round_array (temp constant : BitVec 32)
    (fn : BitVec 32 → BitVec 32 → BitVec 32 → BitVec 32) :
    (named t (shaRound t temp fn constant s)).array = s.array.set (slot t) temp := by
  rw [named]
  split <;> rfl

theorem slot_eq (x y : ℕ) (h : x%16 = y%16) : slot x = slot y :=
  Fin.ext (by rw [slot_mod, slot_mod, h])

theorem mix_schedule (h : Rolling data t s.array) (ht : 16 ≤ t) :
    shaMix s.array t = schedule data t := by
  rw [shaMix, schedule, if_neg (by omega), shaRol_one, slot_eq (t+13) (t-3) (by omega),
    slot_eq (t+8) (t-8) (by omega), slot_eq (t+2) (t-14) (by omega),
    slot_eq t (t-16) (by omega), h _ (by omega) (by omega), h _ (by omega) (by omega),
    h _ (by omega) (by omega), h _ (by omega) (by omega)]

/-- Every line calls for the word, the function and the constant of its round. -/
theorem call_eq (h : Rolling data t s.array) :
    callOf data t s =
      shaRound t (schedule data t) (roundFunction t) (roundConstant t) s := by
  have hword : t < 16 → getBe32 data t = schedule data t := by
    intro ht
    rw [schedule, if_pos ht]
  have hmix := mix_schedule data t s h
  rw [callOf]
  split_ifs with h16 h20 h40 h60
  · have hfn : roundFunction t = fun B C D => (C ^^^ D) &&& B ^^^ D := by
      funext b c d
      rw [roundFunction, if_pos (by omega), choose_eq]
    rw [T_0_15, hword h16, hfn, roundConstant, if_pos (by omega)]
  · have hfn : roundFunction t = fun B C D => (C ^^^ D) &&& B ^^^ D := by
      funext b c d
      rw [roundFunction, if_pos h20, choose_eq]
    rw [T_16_19, hmix (by omega), hfn, roundConstant, if_pos h20]
  · have hfn : roundFunction t = fun B C D => B ^^^ C ^^^ D := by
      funext b c d
      rw [roundFunction, if_neg h20, if_pos h40]
    rw [T_20_39, hmix (by omega), hfn, roundConstant, if_neg h20, if_pos h40]
  · have hfn : roundFunction t = fun B C D => (B &&& C)+(D &&& (B ^^^ C)) := by
      funext b c d
      rw [roundFunction, if_neg h20, if_neg h40, if_pos h60, majority_eq]
    rw [T_40_59, hmix (by omega), hfn, roundConstant, if_neg h20, if_neg h40, if_pos h60]
  · have hfn : roundFunction t = fun B C D => B ^^^ C ^^^ D := by
      funext b c d
      rw [roundFunction, if_neg h20, if_neg h40, if_neg h60]
    rw [T_60_79, hmix (by omega), hfn, roundConstant, if_neg h20, if_neg h40, if_neg h60]

/-- One line is one round of the standard on the registers in their new order. -/
theorem line_round (h : Rolling data t s.array) :
    turned (t+1) (line data t s).regs = round data t (turned t s.regs) := by
  rw [line, call_eq data t s h, round_turned, round, shaRol_five, shaRor_two]
  congr 1
  ac_rfl

theorem line_rolling (h : Rolling data t s.array) : Rolling data (t+1) (line data t s).array := by
  intro j hj hnear
  rw [line, call_eq data t s h, round_array]
  by_cases hjt : j = t
  · subst hjt
    exact Vector.getElem_set_self _
  · have hne : slot t ≠ slot j := by
      intro he
      have hv := congrArg Fin.val he
      rw [slot_mod, slot_mod] at hv
      omega
    have hkeep := h j (by omega) (by omega)
    rw [← hkeep]
    exact Vector.getElem_set_ne _ _ fun he => hne (Fin.ext he)

/-- The lines so far are the rounds so far. -/
theorem lines_rounds (H : Regs) (uninit : Vector (BitVec 32) 16) :
    turned t (lines data ⟨H,uninit⟩ t).regs = rounds data H t ∧
      Rolling data t (lines data ⟨H,uninit⟩ t).array := by
  induction t with
  | zero => exact ⟨rfl,fun j hj => absurd hj (Nat.not_lt_zero j)⟩
  | succ t ih =>
    rw [lines, rounds, ← ih.1]
    exact ⟨line_round data t _ ih.2,line_rolling data t _ ih.2⟩

end Lines

/-- The block function computes the compression of the standard, whatever was in
its array. -/
theorem block_compress (uninit : Vector (BitVec 32) 16) (H : Regs) (data : List UInt8) :
    blkSha1Block uninit H data = compress H data := by
  have hlines := (lines_rounds data 80 H uninit).1
  rw [blkSha1Block, compress, ← hlines]
  rfl

end Duda.Sha1Block
