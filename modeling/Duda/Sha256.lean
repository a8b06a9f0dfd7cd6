import Duda.BufferedHash
import Duda.MachineInt
import Duda.Runs
import Duda.Sha256Block

/-!
# SHA-256 over a message in pieces

The context counts the bytes in two words, of which the first is kept below
`2^32` and the second counts its overflows. The buffer is filled first, then the
whole blocks of the input are processed in place, and the padding is given to the
same function. A piece of `2^32` bytes or more would overflow more than once.
-/

set_option autoImplicit false

namespace Duda.Sha256
open Duda.BlockStream Duda.BufferedHash Duda.CheckedMemory Duda.FrameCodec Duda.MachineInt
open Duda.Runs Duda.Sha256Block

structure Sha256Context where
  total0 : ℕ
  total1 : ℕ
  state : Regs 64
  buffer : Vector UInt8 64

/-- The words that both `state` and the standard start with. -/
def initial (w : ℕ) : Regs w :=
  ⟨0x6a09e667,0xbb67ae85,0x3c6ef372,0xa54ff53a,0x510e527f,0x9b05688c,0x1f83d9ab,0x5be0cd19⟩

/-- The words of the hash, each with its highest byte first. -/
def hashBytes (r : Regs 32) : List UInt8 :=
  bigEndian 4 r.A.toNat++bigEndian 4 r.B.toNat++bigEndian 4 r.C.toNat++bigEndian 4 r.D.toNat++
    bigEndian 4 r.E.toNat++bigEndian 4 r.F.toNat++bigEndian 4 r.G.toNat++bigEndian 4 r.H.toNat

def sha256 (m : List UInt8) : List UInt8 := hashBytes (digest compress (initial 32) m)

section Source

variable (uninit : ℕ → BitVec 64)

/-- `PUT_UINT32(n, b, i)`: the four bytes at `b + i`. -/
def putUint32 (n : BitVec 64) : List UInt8 :=
  [UInt8.ofNat (n >>> 24).toNat,UInt8.ofNat (n >>> 16).toNat,UInt8.ofNat (n >>> 8).toNat,
    UInt8.ofNat n.toNat]

/-- `sha256_starts`, which leaves the buffer as it is. -/
def sha256Starts (buffer : Vector UInt8 64) : Sha256Context := ⟨0,0,initial 64,buffer⟩

/-- The end of `sha256_update`, from its loop on. -/
def updateBlocks (total0 total1 : ℕ) (state : Regs 64) (buffer : Vector UInt8 64) (left : ℕ)
    (input : List UInt8) : Except Access Sha256Context :=
  (takeBlocks (sha256Process uninit) state buffer left input).map fun (state,buffer) =>
    ⟨total0,total1,state,buffer⟩

def sha256Update (ctx : Sha256Context) (input : List UInt8) : Except Access Sha256Context :=
  let length := input.length
  if length = 0 then .ok ctx
  else
    let left := ctx.total0 &&& 63
    let fillLen := 64-left
    let total0 := u64 (ctx.total0+length) &&& 0xffffffff
    let total1 := if total0 < length then u64 (ctx.total1+1) else ctx.total1
    if left ≠ 0 ∧ length ≥ fillLen then
      (fill input left fillLen 0 ctx.buffer).bind fun buffer =>
        updateBlocks uninit total0 total1 (sha256Process uninit ctx.state buffer.toList) buffer 0
          (input.drop fillLen)
    else updateBlocks uninit total0 total1 ctx.state ctx.buffer left input

/-- The array `sha256_padding`. -/
def sha256Padding : List UInt8 := 128::List.replicate 63 0

/-- `sha256_finish`: the bytes of `digest`. -/
def sha256Finish (ctx : Sha256Context) : Except Access (List UInt8) :=
  let high := BitVec.ofNat 64 ctx.total0 >>> 29 ||| BitVec.ofNat 64 ctx.total1 <<< 3
  let low := BitVec.ofNat 64 ctx.total0 <<< 3
  let msglen := putUint32 high++putUint32 low
  let last := ctx.total0 &&& 63
  let padn := if last < 56 then 56-last else 120-last
  (sha256Update uninit ctx (sha256Padding.take padn)).bind fun ctx =>
    (sha256Update uninit ctx msglen).map fun ctx =>
      putUint32 ctx.state.A++putUint32 ctx.state.B++putUint32 ctx.state.C++putUint32 ctx.state.D++
        putUint32 ctx.state.E++putUint32 ctx.state.F++putUint32 ctx.state.G++putUint32 ctx.state.H

/-- `sha256_encode`. -/
def sha256Encode (buffer : Vector UInt8 64) (data_in : List UInt8) : Except Access (List UInt8) :=
  (sha256Update uninit (sha256Starts buffer) data_in).bind (sha256Finish uninit)

end Source

section Words

/-- The bytes that are put down are those of the lower half. -/
theorem putUint32_low (n : BitVec 64) : putUint32 n = bigEndian 4 (low n).toNat := by
  simp only [putUint32, bigEndian, low, BitVec.toNat_setWidth, BitVec.toNat_ushiftRight,
    Nat.shiftRight_eq_div_pow, List.cons.injEq, and_true]
  refine ⟨?_,?_,?_,?_⟩ <;> apply byte_congr <;> omega

theorem put_hashBytes (r : Regs 64) :
    putUint32 r.A++putUint32 r.B++putUint32 r.C++putUint32 r.D++putUint32 r.E++putUint32 r.F++
      putUint32 r.G++putUint32 r.H = hashBytes (lows r) := by
  simp only [putUint32_low, hashBytes, lows]

theorem initial_lows : lows (initial 64) = initial 32 := by decide

end Words

section Contexts

variable {uninit : ℕ → BitVec 64} {ctx : Sha256Context} {m : List UInt8}

/-- The context after the bytes of `m`. -/
structure Absorbed (uninit : ℕ → BitVec 64) (ctx : Sha256Context) (m : List UInt8) : Prop where
  counted : ctx.total0+2^32*ctx.total1 = m.length
  below : ctx.total0 < 2^32
  holds : Holds (sha256Process uninit) (initial 64) ctx.state ctx.buffer m

theorem starts_absorbed (buffer : Vector UInt8 64) : Absorbed uninit (sha256Starts buffer) [] :=
  ⟨rfl,Nat.two_pow_pos 32,holds_empty buffer⟩

theorem total_low (h : Absorbed uninit ctx m) : ctx.total0 &&& 63 = m.length%64 := by
  have hcount := h.counted
  rw [low_bits]
  omega

/-- The two words count on: the comparison with the length finds the overflow. -/
theorem total_added (h : Absorbed uninit ctx m) (input : List UInt8) (hd : input.length < 2^32)
    (hm : (m++input).length < 2^62) :
    let total0 := u64 (ctx.total0+input.length) &&& 0xffffffff
    let total1 := if total0 < input.length then u64 (ctx.total1+1) else ctx.total1
    total0+2^32*total1 = (m++input).length ∧ total0 < 2^32 := by
  have hcount := h.counted
  have hbelow := h.below
  rw [List.length_append] at hm ⊢
  have hmask : u64 (ctx.total0+input.length) &&& 0xffffffff =
      (ctx.total0+input.length)%2^32 := by
    have hmod := Nat.and_two_pow_sub_one_eq_mod (u64 (ctx.total0+input.length)) 32
    have hu : u64 (ctx.total0+input.length) = ctx.total0+input.length := by
      exact_mod_cast u64_natCast (ctx.total0+input.length) (by omega)
    rw [hu] at hmod ⊢
    exact hmod
  have hnext : u64 (ctx.total1+1) = ctx.total1+1 := by
    exact_mod_cast u64_natCast (ctx.total1+1) (by omega)
  simp only [hmask, hnext]
  split_ifs <;> omega

theorem blocks_absorbed {total0 total1 : ℕ} {state : Regs 64} {buffer : Vector UInt8 64}
    {input : List UInt8} (h : Holds (sha256Process uninit) (initial 64) state buffer m)
    (ha : m.length%64 = 0) (hc : total0+2^32*total1 = (m++input).length) (hb : total0 < 2^32) :
    ∃ ctx, updateBlocks uninit total0 total1 state buffer 0 input = .ok ctx ∧
      Absorbed uninit ctx (m++input) := by
  obtain ⟨H',W',hrun,hholds⟩ := holds_blocks h ha input
  refine ⟨⟨total0,total1,H',W'⟩,?_,hc,hb,hholds⟩
  rw [updateBlocks, hrun]
  rfl

/-- Every piece of less than `2^32` bytes is absorbed. -/
theorem update_absorbed (h : Absorbed uninit ctx m) (input : List UInt8)
    (hd : input.length < 2^32) (hm : (m++input).length < 2^62) :
    ∃ next, sha256Update uninit ctx input = .ok next ∧ Absorbed uninit next (m++input) := by
  obtain ⟨hc,hb⟩ := total_added h input hd hm
  by_cases hnil : input = []
  · subst hnil
    exact ⟨ctx,rfl,by simpa using h⟩
  · have hpos : input.length ≠ 0 := by simpa using hnil
    simp only [sha256Update, if_neg hpos, total_low h]
    by_cases hempty : m.length%64 = 0
    · rw [if_neg (by simp [hempty]), hempty]
      exact blocks_absorbed h.holds hempty hc hb
    · by_cases hshort : input.length < 64-m.length%64
      · obtain ⟨W,hfill,hholds⟩ := holds_within h.holds input (by omega)
        rw [if_neg (by omega), updateBlocks, takeBlocks_short _ _ (by omega) hnil, hfill]
        exact ⟨_,rfl,hc,hb,hholds⟩
      · obtain ⟨W,hfill,hholds⟩ := holds_filled h.holds input (by omega)
        have hparts : m++input =
            m++input.take (64-m.length%64)++input.drop (64-m.length%64) := by
          rw [List.append_assoc, List.take_append_drop]
        rw [if_pos ⟨hempty,by omega⟩, hfill]
        rw [hparts] at hc ⊢
        exact blocks_absorbed hholds (by simp; omega) hc hb

/-- The padding that is taken from `sha256_padding` ends where the length has to
begin. -/
theorem padding_zeros (h : Absorbed uninit ctx m) :
    sha256Padding.take (if ctx.total0 &&& 63 < 56 then 56-(ctx.total0 &&& 63)
      else 120-(ctx.total0 &&& 63)) = 128::List.replicate (zeros m.length) 0 := by
  have hcount : (if m.length%64 < 56 then 56-m.length%64 else 120-m.length%64) =
      zeros m.length+1 := by
    rw [zeros]
    split_ifs <;> omega
  have hfit : zeros m.length ≤ 63 := by
    rw [zeros]
    omega
  rw [total_low h, hcount, sha256Padding, List.take_succ_cons, List.take_replicate,
    Nat.min_eq_left hfit]

theorem msglen_length (h : Absorbed uninit ctx m) (hm : m.length < 2^61) :
    putUint32 (BitVec.ofNat 64 ctx.total0 >>> 29 ||| BitVec.ofNat 64 ctx.total1 <<< 3)++
      putUint32 (BitVec.ofNat 64 ctx.total0 <<< 3) = bigEndian 8 (8*m.length) := by
  have hcount := h.counted
  have hbelow := h.below
  have hput : ctx.total0/2^29 ||| ctx.total1*2^3 = ctx.total1*2^3+ctx.total0/2^29 := by
    rw [Nat.or_comm, ← Nat.shiftLeft_eq, Nat.shiftLeft_add_eq_or_of_lt (by omega)]
  have h0 : ctx.total0%2^64 = ctx.total0 := Nat.mod_eq_of_lt (by omega)
  have h1 : ctx.total1*2^3%2^64 = ctx.total1*2^3 := Nat.mod_eq_of_lt (by omega)
  have h1' : ctx.total1%2^64 = ctx.total1 := Nat.mod_eq_of_lt (by omega)
  rw [putUint32_low, putUint32_low, length_words]
  simp only [low, BitVec.toNat_setWidth, BitVec.toNat_or, BitVec.toNat_ushiftRight,
    BitVec.toNat_shiftLeft, BitVec.toNat_ofNat, Nat.shiftRight_eq_div_pow, Nat.shiftLeft_eq, h0, h1',
    h1, hput]
  congr 2 <;> omega

/-- A context that holds a message yields the digest of the standard. -/
theorem finish_digest (h : Absorbed uninit ctx m) (hm : m.length < 2^61) :
    sha256Finish uninit ctx = .ok (sha256 m) := by
  have hzeros : zeros m.length < 64 := Nat.mod_lt _ (by decide)
  have hmsglen := msglen_length h hm
  obtain ⟨padded,hpad,hone⟩ := update_absorbed h (128::List.replicate (zeros m.length) 0)
    (by simp; omega) (by simp; omega)
  obtain ⟨last,hlast,htwo⟩ := update_absorbed hone (bigEndian 8 (8*m.length))
    (by rw [bigEndian_length]; decide) (by simp [bigEndian_length]; omega)
  rw [padding_pieces] at htwo
  have hdigest : lows last.state = digest compress (initial 32) m := by
    rw [htwo.holds.chained, folded_map 64 _ compress lows (fun s xs hx =>
      process_compress uninit s xs hx) (by decide), initial_lows, digest]
  simp only [sha256Finish, padding_zeros h, hpad, Except.bind, hmsglen, hlast, Except.map,
    put_hashBytes, sha256, hdigest]

theorem run_absorbed (pieces : List (List UInt8)) (h : Absorbed uninit ctx m)
    (hp : ∀ p ∈ pieces, p.length < 2^32) (hm : (m++pieces.flatten).length < 2^62) :
    ∃ next, run (sha256Update uninit) pieces ctx = .ok next ∧
      Absorbed uninit next (m++pieces.flatten) := by
  induction pieces generalizing ctx m with
  | nil => exact ⟨ctx,rfl,by simpa using h⟩
  | cons input pieces ih =>
    rw [List.flatten_cons, ← List.append_assoc] at hm ⊢
    obtain ⟨mid,hmid,hone⟩ := update_absorbed h input (hp input (List.mem_cons_self ..))
      (by rw [List.length_append] at hm; omega)
    obtain ⟨next,hnext,hall⟩ := ih hone (fun p hin => hp p (List.mem_cons_of_mem _ hin)) hm
    exact ⟨next,by rw [run_cons_ok hmid, hnext],hall⟩

end Contexts

/-- However a message is cut into pieces of less than `2^32` bytes, the words of 64
bits yield the digest of the standard. -/
theorem pieces_sha256 (uninit : ℕ → BitVec 64) (buffer : Vector UInt8 64)
    (pieces : List (List UInt8)) (hp : ∀ p ∈ pieces, p.length < 2^32)
    (h : pieces.flatten.length < 2^61) :
    (run (sha256Update uninit) pieces (sha256Starts buffer)).bind (sha256Finish uninit) =
      .ok (sha256 pieces.flatten) := by
  obtain ⟨ctx,hrun,habs⟩ := run_absorbed pieces
    (starts_absorbed buffer : Absorbed uninit (sha256Starts buffer) []) hp
    (by rw [List.nil_append]; omega)
  rw [hrun]
  exact finish_digest habs h

/-- The test vector of the standard, in two pieces. -/
theorem abc_sha256 :
    sha256 [97,98,99] =
      [0xba,0x78,0x16,0xbf,0x8f,0x01,0xcf,0xea,0x41,0x41,0x40,0xde,0x5d,0xae,0x22,0x23,
        0xb0,0x03,0x61,0xa3,0x96,0x17,0x7a,0x9c,0xb4,0x10,0xff,0x61,0xf2,0x00,0x15,0xad] :=
  Except.ok.inj ((pieces_sha256 (fun _ => 0) (Vector.replicate 64 0) [[97],[98,99]]
    (by decide) (by decide)).symm.trans (by decide +kernel))

end Duda.Sha256
