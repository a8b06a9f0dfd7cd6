import Duda.CheckedMemory
import Duda.MachineInt

/-!
# Base64 as the websocket package encodes it

`base64_encode` writes the characters of every group of three bytes into a
block of its own, then a line feed and a terminator. It counts the line feed in
the length and overwrites it by a second terminator. The text it should write
is given by the digits of the groups to the base 64.
-/

set_option autoImplicit false

namespace Duda.Base64
open Duda.CheckedMemory Duda.MachineInt

/-- `base64_table`: upper case letters, lower case letters, figures, `+` and `/`. -/
def base64Table : List UInt8 :=
  (List.range' 65 26++List.range' 97 26++List.range' 48 10++[43,47]).map UInt8.ofNat

def tableAt (i : ℕ) : UInt8 := base64Table.getD i 0

/-- The character `=`. -/
def padding : UInt8 := 61

def lineFeed : UInt8 := 10

section Groups

variable (a b c : UInt8)

def wholeGroup : List UInt8 :=
  [tableAt (a.toNat >>> 2),tableAt ((a.toNat &&& 3) <<< 4 ||| b.toNat >>> 4),
    tableAt ((b.toNat &&& 15) <<< 2 ||| c.toNat >>> 6),tableAt (c.toNat &&& 63)]

def lastTwo : List UInt8 :=
  [tableAt (a.toNat >>> 2),tableAt ((a.toNat &&& 3) <<< 4 ||| b.toNat >>> 4),
    tableAt ((b.toNat &&& 15) <<< 2),padding]

def lastOne : List UInt8 :=
  [tableAt (a.toNat >>> 2),tableAt ((a.toNat &&& 3) <<< 4),padding,padding]

def groupValue : ℕ := a.toNat*65536+b.toNat*256+c.toNat

end Groups

/-- The digit of `v` before the last `k`, to the base 64. -/
def digit (v k : ℕ) : UInt8 := tableAt (v/64^k%64)

/-- The base64 text of a list of bytes. -/
def base64Text : List UInt8 → List UInt8
  | a::b::c::src =>
    [digit (groupValue a b c) 3,digit (groupValue a b c) 2,digit (groupValue a b c) 1,
      digit (groupValue a b c) 0]++base64Text src
  | [a,b] =>
    [digit (groupValue a b 0) 3,digit (groupValue a b 0) 2,digit (groupValue a b 0) 1,padding]
  | [a] => [digit (groupValue a 0 0) 3,digit (groupValue a 0 0) 2,padding,padding]
  | [] => []

/-- Some assignments `*pos++ = x`, one after the other. -/
def put {n : ℕ} (xs : List UInt8) (pos : ℕ) (out : Vector UInt8 n) :
    Except Access (Vector UInt8 n) :=
  fill xs pos xs.length 0 out

/-- The loop with the end of an incomplete group; `line_len` is an `int`. -/
def encodeLoop {n : ℕ} :
    List UInt8 → ℕ → ℤ → Vector UInt8 n → Except Access (ℕ × ℤ × Vector UInt8 n)
  | a::b::c::src, pos, line_len, out =>
    (put (wholeGroup a b c) pos out).bind (encodeLoop src (pos+4) (i32 (line_len+4)))
  | [a,b], pos, line_len, out =>
    (put (lastTwo a b) pos out).map fun out => (pos+4,i32 (line_len+4),out)
  | [a], pos, line_len, out =>
    (put (lastOne a) pos out).map fun out => (pos+4,i32 (line_len+4),out)
  | [], pos, line_len, out => .ok (pos,line_len,out)

/-- The size of the block, computed as a `size_t`. -/
def outSize (len : ℕ) : ℕ :=
  let olen := u64 ((u64 (len*4)/3+4:ℕ):ℤ)
  u64 ((u64 ((olen+olen/72:ℕ):ℤ)+1:ℕ):ℤ)

/-- The line feed, which follows unless `line_len` is 0. -/
def endLine {n : ℕ} (line_len : ℤ) (pos : ℕ) (out : Vector UInt8 n) :
    Except Access (ℕ × Vector UInt8 n) :=
  if line_len = 0 then .ok (pos,out) else (store out pos lineFeed).map fun out => (pos+1,out)

/-- `base64_encode`: the block and `out_len`. -/
def base64Encode (uninit : ℕ → UInt8) (src : List UInt8) :
    Except Access (Vector UInt8 (outSize src.length) × ℕ) :=
  (encodeLoop src 0 0 (Vector.ofFn (fun i => uninit i))).bind fun (pos,line_len,out) =>
    (endLine line_len pos out).bind fun (pos,out) =>
      (store out pos 0).bind fun out =>
        (store out (u64 ((pos:ℤ)-1)) 0).map fun out => (out,pos)

section Digits

variable (a b c : UInt8)

theorem byte_lt : a.toNat < 256 := a.toNat_lt

theorem shift_or (n m k : ℕ) (h : m < 2^k) : n <<< k ||| m = n*2^k+m := by
  rw [← Nat.shiftLeft_add_eq_or_of_lt h, Nat.shiftLeft_eq]

theorem second_digit : (a.toNat &&& 3) <<< 4 ||| b.toNat >>> 4 = a.toNat%4*16+b.toNat/16 := by
  have hb := byte_lt b
  have hlow := Nat.and_two_pow_sub_one_eq_mod a.toNat 2
  have hshift : b.toNat >>> 4 = b.toNat/16 := Nat.shiftRight_eq_div_pow _ _
  rw [hshift, shift_or _ _ 4 (by omega)]
  simp only [Nat.reducePow, Nat.reduceSub] at hlow ⊢
  rw [hlow]

theorem third_digit : (b.toNat &&& 15) <<< 2 ||| c.toNat >>> 6 = b.toNat%16*4+c.toNat/64 := by
  have hc := byte_lt c
  have hlow := Nat.and_two_pow_sub_one_eq_mod b.toNat 4
  have hshift : c.toNat >>> 6 = c.toNat/64 := Nat.shiftRight_eq_div_pow _ _
  rw [hshift, shift_or _ _ 2 (by omega)]
  simp only [Nat.reducePow, Nat.reduceSub] at hlow ⊢
  rw [hlow]

theorem first_digit : a.toNat >>> 2 = a.toNat/4 := Nat.shiftRight_eq_div_pow _ _

theorem fourth_digit : c.toNat &&& 63 = c.toNat%64 := Nat.and_two_pow_sub_one_eq_mod c.toNat 6

theorem groupValue_digits :
    groupValue a b c/64^3%64 = a.toNat/4 ∧
      groupValue a b c/64^2%64 = a.toNat%4*16+b.toNat/16 ∧
      groupValue a b c/64^1%64 = b.toNat%16*4+c.toNat/64 ∧
      groupValue a b c/64^0%64 = c.toNat%64 := by
  have ha := byte_lt a
  have hb := byte_lt b
  have hc := byte_lt c
  simp only [groupValue, Nat.reducePow]
  omega

/-- The shifts and masks of the loop yield the digits. -/
theorem wholeGroup_eq :
    wholeGroup a b c =
      [digit (groupValue a b c) 3,digit (groupValue a b c) 2,digit (groupValue a b c) 1,
        digit (groupValue a b c) 0] := by
  obtain ⟨h3,h2,h1,h0⟩ := groupValue_digits a b c
  simp only [wholeGroup, digit, h3, h2, h1, h0, first_digit, second_digit, third_digit,
    fourth_digit]

theorem lastTwo_eq :
    lastTwo a b =
      [digit (groupValue a b 0) 3,digit (groupValue a b 0) 2,digit (groupValue a b 0) 1,
        padding] := by
  obtain ⟨h3,h2,h1,_⟩ := groupValue_digits a b 0
  have hthird := third_digit b 0
  simp only [UInt8.toNat_zero, Nat.zero_shiftRight, Nat.or_zero] at hthird
  simp only [lastTwo, digit, h3, h2, h1, first_digit, second_digit, hthird, UInt8.toNat_zero]

theorem lastOne_eq :
    lastOne a =
      [digit (groupValue a 0 0) 3,digit (groupValue a 0 0) 2,padding,padding] := by
  obtain ⟨h3,h2,_,_⟩ := groupValue_digits a 0 0
  have hsecond := second_digit a 0
  simp only [UInt8.toNat_zero, Nat.zero_shiftRight, Nat.or_zero] at hsecond
  simp only [lastOne, digit, h3, h2, first_digit, hsecond, UInt8.toNat_zero]

end Digits

theorem digit_mem (v k : ℕ) : digit v k ∈ base64Table := by
  have hlen : base64Table.length = 64 := by decide
  have hlt : v/64^k%64 < base64Table.length := by
    rw [hlen]
    exact Nat.mod_lt _ (by decide)
  rw [digit, tableAt, List.getD_eq_getElem?_getD, List.getElem?_eq_getElem hlt]
  exact List.getElem_mem hlt

theorem text_length (src : List UInt8) : (base64Text src).length = 4*((src.length+2)/3) := by
  induction src using base64Text.induct with
  | case1 a b c src ih =>
    simp only [base64Text, List.length_append, List.length_cons, List.length_nil, ih]
    omega
  | case2 a b => simp [base64Text]
  | case3 a => simp [base64Text]
  | case4 => simp [base64Text]

theorem text_chars (src : List UInt8) :
    ∀ x ∈ base64Text src, x ∈ base64Table ∨ x = padding := by
  induction src using base64Text.induct with
  | case1 a b c src ih => simpa [base64Text, digit_mem] using ih
  | case2 a b => simp [base64Text, digit_mem]
  | case3 a => simp [base64Text, digit_mem]
  | case4 => simp [base64Text]

theorem text_clean (src : List UInt8) : ∀ x ∈ base64Text src, x ≠ 0 ∧ x ≠ lineFeed := by
  have htable : ∀ x ∈ base64Table, x ≠ 0 ∧ x ≠ lineFeed := by decide +kernel
  intro x hx
  rcases text_chars src x hx with h | rfl
  · exact htable x h
  · decide

section Blocks

variable {n : ℕ}

theorem put_ok (xs : List UInt8) (pos : ℕ) (out : Vector UInt8 n) (h : pos+xs.length ≤ n) :
    ∃ o, put xs pos out = .ok o ∧
      o.toList.take (pos+xs.length) = out.toList.take pos++xs := by
  obtain ⟨o,ho⟩ := (fill_ok_iff xs pos xs.length 0 out).mpr (.inr ⟨by omega,by omega⟩)
  have htake := fill_take xs pos xs.length 0 out o (by omega) (by omega) ho
  refine ⟨o,ho,?_⟩
  simpa using htake

/-- The loop writes the text of the bytes, behind what stands before `pos`, and
counts it in `line_len`. -/
theorem encodeLoop_spec (src : List UInt8) (pos l : ℕ) (out : Vector UInt8 n)
    (h : pos+(base64Text src).length ≤ n) (hl : l+(base64Text src).length < 2^31) :
    ∃ o, encodeLoop src pos l out =
        .ok (pos+(base64Text src).length,(l+(base64Text src).length:ℕ),o) ∧
      o.toList.take (pos+(base64Text src).length) = out.toList.take pos++base64Text src := by
  have hstep : l+4 < 2^31 → i32 ((l:ℤ)+4) = ((l+4:ℕ):ℤ) := i32_natCast (l+4)
  induction src using base64Text.induct generalizing pos l out with
  | case1 a b c src ih =>
    have hlen : (base64Text (a::b::c::src)).length = 4+(base64Text src).length := by
      simp only [base64Text, List.length_append, List.length_cons, List.length_nil]
    obtain ⟨mid,hmid,hfirst⟩ := put_ok (wholeGroup a b c) pos out
      (by simp only [wholeGroup, List.length_cons, List.length_nil]; omega)
    obtain ⟨o,ho,hrest⟩ := ih (pos+4) (l+4) mid (by omega) (by omega) (i32_natCast (l+4+4))
    refine ⟨o,?_,?_⟩
    · rw [encodeLoop, hmid, hlen, ← add_assoc, ← add_assoc, hstep (by omega)]
      exact ho
    · rw [hlen, ← add_assoc, hrest, base64Text, ← wholeGroup_eq, ← List.append_assoc]
      exact congrArg (·++base64Text src) hfirst
  | case2 a b =>
    have htext : base64Text [a,b] = lastTwo a b := by rw [base64Text, lastTwo_eq]
    rw [htext] at h hl ⊢
    obtain ⟨o,ho,htake⟩ := put_ok (lastTwo a b) pos out h
    refine ⟨o,?_,htake⟩
    rw [encodeLoop, ho, hstep hl]
    rfl
  | case3 a =>
    have htext : base64Text [a] = lastOne a := by rw [base64Text, lastOne_eq]
    rw [htext] at h hl ⊢
    obtain ⟨o,ho,htake⟩ := put_ok (lastOne a) pos out h
    refine ⟨o,?_,htake⟩
    rw [encodeLoop, ho, hstep hl]
    rfl
  | case4 => exact ⟨out,rfl,by simp [base64Text]⟩

end Blocks

theorem outSize_eq (len : ℕ) (h : len < 2^61) :
    outSize len = len*4/3+4+(len*4/3+4)/72+1 := by
  have hmul : u64 ((len:ℤ)*4) = len*4 := u64_natCast (len*4) (by omega)
  rw [outSize, hmul, u64_natCast (len*4/3+4) (by omega),
    u64_natCast (len*4/3+4+(len*4/3+4)/72) (by omega), u64_natCast _ (by omega)]

theorem text_fits (src : List UInt8) (h : src.length < 2^61) :
    (base64Text src).length+1 < outSize src.length := by
  have hgroups : 4*((src.length+2)/3)+1 < src.length*4/3+4+1 := by omega
  rw [text_length, outSize_eq _ h]
  exact hgroups.trans_le (Nat.succ_le_succ (Nat.le_add_right _ _))

/-- Of every non-empty input whose text `line_len` can count the block holds the
base64 text and a terminator, which `out_len` counts. -/
theorem encode_spec (uninit : ℕ → UInt8) (src : List UInt8) (hne : src ≠ [])
    (hs : (base64Text src).length < 2^31) :
    ∃ out, base64Encode uninit src = .ok (out,(base64Text src).length+1) ∧
      out.toList.take ((base64Text src).length+1) = base64Text src++[0] := by
  have htext := text_length src
  have hpos : 0 < src.length := List.length_pos_of_ne_nil hne
  have hfit := text_fits src (by omega)
  obtain ⟨out,hloop,htake⟩ := encodeLoop_spec src 0 0
    (Vector.ofFn (fun i : Fin (outSize src.length) => uninit i)) (by omega) (by omega)
  rw [zero_add] at hloop htake
  have hlast : u64 ((((base64Text src).length+1:ℕ):ℤ)-1) = (base64Text src).length := by
    rw [Nat.cast_succ, add_sub_cancel_right, u64_natCast _ (hs.trans (by decide))]
  have hline : (((base64Text src).length:ℕ):ℤ) ≠ 0 := by omega
  have hin : (base64Text src).length < outSize src.length := by omega
  refine ⟨((out.set (base64Text src).length lineFeed).set ((base64Text src).length+1) 0).set
    (base64Text src).length 0,?_,?_⟩
  · rw [base64Encode, show (0:ℤ) = ((0:ℕ):ℤ) from rfl, hloop]
    simp only [Except.bind, endLine, if_neg hline, Except.map, hlast, store_ok hin, store_ok hfit]
  · rw [set_take_succ _ _ _ hin, set_take _ _ _ _ hfit (by omega), set_take _ _ _ _ hin le_rfl,
      htake]
    simp

end Duda.Base64
