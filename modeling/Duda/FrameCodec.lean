import Mathlib.Tactic

/-!
# The base framing of the websocket protocol

A frame is one byte of flags and opcode, the payload length in one of three
big-endian forms with the mask bit in front, the masking key when the bit is
set, and the payload. The decoder insists on the shortest form of the length,
and it gives back exactly the frame that was encoded.
-/

set_option autoImplicit false

namespace Duda.FrameCodec

/-- The last `k` big-endian digits of a number in base 256. -/
def bigEndian : ℕ → ℕ → List UInt8
  | 0, _ => []
  | k+1, n => UInt8.ofNat (n/256^k)::bigEndian k n

def fromBigEndian : List UInt8 → ℕ
  | [] => 0
  | b::bs => b.toNat*256^bs.length+fromBigEndian bs

theorem bigEndian_length (k n : ℕ) : (bigEndian k n).length = k := by
  induction k with
  | zero => rfl
  | succ k ih => simp [bigEndian, ih]

theorem fromBigEndian_bigEndian (k n : ℕ) : fromBigEndian (bigEndian k n) = n % 256^k := by
  induction k with
  | zero => simp [bigEndian, fromBigEndian, Nat.mod_one]
  | succ k ih =>
    have hdigit := Nat.mod_pow_succ (x := n) (b := 256) (k := k)
    rw [bigEndian, fromBigEndian, ih, bigEndian_length, UInt8.toNat_ofNat', hdigit]
    ring

structure Frame where
  fin : Bool
  rsv : Fin 8
  opcode : Fin 16
  key : Option (Vector UInt8 4)
  payload : List UInt8
  deriving DecidableEq, Repr

def applyMask (key : Option (Vector UInt8 4)) (bs : List UInt8) : List UInt8 :=
  match key with
  | none => bs
  | some k => bs.mapIdx (fun i b => b ^^^ k[i % 4])

def keyBytes : Option (Vector UInt8 4) → List UInt8
  | none => []
  | some k => [k[0],k[1],k[2],k[3]]

def maskBit (key : Option (Vector UInt8 4)) : ℕ := if key.isSome then 128 else 0

def lengthField (mask n : ℕ) : List UInt8 :=
  if n < 126 then [UInt8.ofNat (mask+n)]
  else if n < 65536 then UInt8.ofNat (mask+126)::bigEndian 2 n
  else UInt8.ofNat (mask+127)::bigEndian 8 n

def firstByte (f : Frame) : ℕ := (if f.fin then 128 else 0)+16*f.rsv.val+f.opcode.val

def encode (f : Frame) : List UInt8 :=
  UInt8.ofNat (firstByte f)::(lengthField (maskBit f.key) f.payload.length++
    (keyBytes f.key++applyMask f.key f.payload))

def takeExact (n : ℕ) (bs : List UInt8) : Option (List UInt8 × List UInt8) :=
  if n ≤ bs.length then some (bs.take n,bs.drop n) else none

/-- A length in the extended form of `k` bytes, between its bounds. -/
def decodeExtended (k low high : ℕ) (bs : List UInt8) : Option (ℕ × List UInt8) :=
  (takeExact k bs).bind (fun (ext,bs) =>
    if low ≤ fromBigEndian ext ∧ fromBigEndian ext < high then some (fromBigEndian ext,bs)
    else none)

def decodeLength (n : ℕ) (bs : List UInt8) : Option (ℕ × List UInt8) :=
  if n < 126 then some (n,bs)
  else if n = 126 then decodeExtended 2 126 65536 bs
  else decodeExtended 8 65536 (2^63) bs

def decodeKey (mask : Bool) (bs : List UInt8) : Option (Option (Vector UInt8 4) × List UInt8) :=
  if mask then
    match bs with
    | a::b::c::d::bs => some (some #v[a,b,c,d],bs)
    | _ => none
  else some (none,bs)

/-- The first frame of a stream and the bytes after it. -/
def decode : List UInt8 → Option (Frame × List UInt8)
  | b0::b1::bs =>
    (decodeLength (b1.toNat % 128) bs).bind (fun (n,bs) =>
    (decodeKey (decide (128 ≤ b1.toNat)) bs).bind (fun (key,bs) =>
    (takeExact n bs).map (fun (masked,rest) =>
      (⟨decide (128 ≤ b0.toNat),Fin.ofNat 8 (b0.toNat/16),Fin.ofNat 16 b0.toNat,key,
        applyMask key masked⟩,rest))))
  | _ => none

theorem takeExact_append (a b : List UInt8) : takeExact a.length (a++b) = some (a,b) := by
  simp [takeExact]

theorem applyMask_length (key : Option (Vector UInt8 4)) (bs : List UInt8) :
    (applyMask key bs).length = bs.length := by
  cases key with
  | none => rfl
  | some k => simp [applyMask]

theorem applyMask_twice (key : Option (Vector UInt8 4)) (bs : List UInt8) :
    applyMask key (applyMask key bs) = bs := by
  cases key with
  | none => rfl
  | some k =>
    apply List.ext_getElem
    · simp [applyMask]
    · intro i h h'
      simp only [applyMask, List.getElem_mapIdx]
      rw [UInt8.xor_assoc, UInt8.xor_self, UInt8.xor_zero]

theorem decodeKey_bytes (key : Option (Vector UInt8 4)) (bs : List UInt8) :
    decodeKey key.isSome (keyBytes key++bs) = some (key,bs) := by
  cases key with
  | none => rfl
  | some k =>
    simp only [decodeKey, keyBytes, Option.isSome_some, if_true, List.cons_append, List.nil_append,
      Option.some.injEq, Prod.mk.injEq, and_true]
    apply Vector.ext
    intro i hi
    interval_cases i <;> rfl

theorem decodeExtended_bigEndian (k low high n : ℕ) (bs : List UInt8) (hk : n < 256^k)
    (hl : low ≤ n) (hh : n < high) :
    decodeExtended k low high (bigEndian k n++bs) = some (n,bs) := by
  have ht := takeExact_append (bigEndian k n) bs
  rw [bigEndian_length] at ht
  have hr : fromBigEndian (bigEndian k n) = n := by
    rw [fromBigEndian_bigEndian, Nat.mod_eq_of_lt hk]
  rw [decodeExtended, ht, Option.bind_some]
  simp only [hr, hl, hh, and_self, if_true]

theorem decodeLength_field (key : Option (Vector UInt8 4)) (n : ℕ) (bs : List UInt8)
    (h : n < 2^63) :
    ∃ b ext, lengthField (maskBit key) n = b::ext ∧ key.isSome = decide (128 ≤ b.toNat) ∧
      decodeLength (b.toNat % 128) (ext++bs) = some (n,bs) := by
  have hbit : ∀ x, x < 128 → (UInt8.ofNat (maskBit key+x)).toNat = maskBit key+x ∧
      (maskBit key+x) % 128 = x ∧ key.isSome = decide (128 ≤ maskBit key+x) := by
    intro x hx
    cases key with
    | none =>
      simp only [maskBit, Option.isSome_none, Bool.false_eq_true, if_false, UInt8.toNat_ofNat']
      exact ⟨by omega,by omega,by simp; omega⟩
    | some k =>
      simp only [maskBit, Option.isSome_some, if_true, UInt8.toNat_ofNat']
      exact ⟨by omega,by omega,by simp⟩
  by_cases h1 : n < 126
  · obtain ⟨hb,hm,hk⟩ := hbit n (by omega)
    refine ⟨_,[],if_pos h1,by rw [hb]; exact hk,?_⟩
    rw [hb, hm, decodeLength, if_pos h1, List.nil_append]
  · by_cases h2 : n < 65536
    · obtain ⟨hb,hm,hk⟩ := hbit 126 (by omega)
      refine ⟨_,bigEndian 2 n,by rw [lengthField, if_neg h1, if_pos h2],by rw [hb]; exact hk,?_⟩
      rw [hb, hm, decodeLength, if_neg (by omega), if_pos rfl]
      exact decodeExtended_bigEndian 2 126 65536 n bs h2 (by omega) h2
    · obtain ⟨hb,hm,hk⟩ := hbit 127 (by omega)
      refine ⟨_,bigEndian 8 n,by rw [lengthField, if_neg h1, if_neg h2],by rw [hb]; exact hk,?_⟩
      rw [hb, hm, decodeLength, if_neg (by omega), if_neg (by omega)]
      exact decodeExtended_bigEndian 8 65536 (2^63) n bs (by omega) (by omega) h

theorem firstByte_fields (f : Frame) :
    decide (128 ≤ (UInt8.ofNat (firstByte f)).toNat) = f.fin ∧
      Fin.ofNat 8 ((UInt8.ofNat (firstByte f)).toNat/16) = f.rsv ∧
      Fin.ofNat 16 (UInt8.ofNat (firstByte f)).toNat = f.opcode := by
  have hr := f.rsv.isLt
  have ho := f.opcode.isLt
  have hb : (UInt8.ofNat (firstByte f)).toNat = firstByte f := by
    rw [UInt8.toNat_ofNat', firstByte]
    split_ifs <;> omega
  rw [hb]
  refine ⟨?_,Fin.ext ?_,Fin.ext ?_⟩
  · cases hf : f.fin with
    | false => simp [firstByte, hf]; omega
    | true => simp [firstByte, hf]; omega
  · simp only [Fin.ofNat, firstByte]
    split_ifs <;> omega
  · simp only [Fin.ofNat, firstByte]
    split_ifs <;> omega

theorem decode_encode (f : Frame) (rest : List UInt8) (h : f.payload.length < 2^63) :
    decode (encode f++rest) = some (f,rest) := by
  obtain ⟨b,ext,hfield,hmask,hlen⟩ := decodeLength_field f.key f.payload.length
    (keyBytes f.key++(applyMask f.key f.payload++rest)) h
  obtain ⟨hfin,hrsv,hop⟩ := firstByte_fields f
  have hpay := takeExact_append (applyMask f.key f.payload) rest
  rw [applyMask_length] at hpay
  simp only [encode, hfield, List.cons_append, List.append_assoc, decode, hlen, Option.bind_some,
    ← hmask, decodeKey_bytes, hpay, Option.map_some, applyMask_twice, hfin, hrsv, hop]

end Duda.FrameCodec
