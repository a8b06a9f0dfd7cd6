import Duda.BufferedHash
import Duda.MachineInt
import Duda.Runs
import Duda.Sha1Block

/-!
# SHA-1 over a message in pieces

A context counts the bytes it was given and keeps the incomplete block in `W`.
`blk_SHA1_Update` fills that block, then takes whole blocks straight from its
input, and `blk_SHA1_Final` hands the padding to the same function. The digest
is that of the standard, however the message is cut.
-/

set_option autoImplicit false

namespace Duda.Sha1
open Duda.BlockStream Duda.BufferedHash Duda.CheckedMemory Duda.FrameCodec Duda.MachineInt
open Duda.Runs Duda.Sha1Block

structure BlkShaCtx where
  size : ℕ
  H : Regs
  W : Vector UInt8 64

def initial : Regs := ⟨0x67452301,0xefcdab89,0x98badcfe,0x10325476,0xc3d2e1f0⟩

/-- The words of the hash, each with its highest byte first. -/
def hashBytes (r : Regs) : List UInt8 :=
  bigEndian 4 r.A.toNat++bigEndian 4 r.B.toNat++bigEndian 4 r.C.toNat++bigEndian 4 r.D.toNat++
    bigEndian 4 r.E.toNat

def sha1 (m : List UInt8) : List UInt8 := hashBytes (digest compress initial m)

section Source

variable (uninit : Vector (BitVec 32) 16)

/-- `blk_SHA1_Init`, which leaves `W` as it is. -/
def blkSha1Init (W : Vector UInt8 64) : BlkShaCtx := ⟨0,initial,W⟩

/-- The end of `blk_SHA1_Update`, from its loop on. -/
def updateBlocks (size : ℕ) (H : Regs) (W : Vector UInt8 64) (data : List UInt8) :
    Except Access BlkShaCtx :=
  (takeBlocks (blkSha1Block uninit) H W 0 data).map fun (H,W) => ⟨size,H,W⟩

def blkSha1Update (ctx : BlkShaCtx) (data : List UInt8) : Except Access BlkShaCtx :=
  let lenW := ctx.size &&& 63
  let size := u64 (ctx.size+data.length)
  if lenW ≠ 0 then
    let left := if data.length < 64-lenW then data.length else 64-lenW
    (fill data lenW left 0 ctx.W).bind fun W =>
      if (lenW+left) &&& 63 ≠ 0 then .ok ⟨size,ctx.H,W⟩
      else updateBlocks uninit size (blkSha1Block uninit ctx.H W.toList) W (data.drop left)
  else updateBlocks uninit size ctx.H ctx.W data

/-- The array `pad`. -/
def pad : List UInt8 := 128::List.replicate 63 0

/-- `blk_SHA1_Final`: the bytes of `hashout`. -/
def blkSha1Final (ctx : BlkShaCtx) : Except Access (List UInt8) :=
  let padlen := bigEndian 4 (u32 (ctx.size >>> 29:ℕ))++bigEndian 4 (u32 (ctx.size <<< 3:ℕ))
  let i : ℤ := ((ctx.size &&& 63:ℕ):ℤ)
  (blkSha1Update uninit ctx (pad.take (1+(63 &&& u32 (55-i))))).bind fun ctx =>
    (blkSha1Update uninit ctx padlen).map fun ctx => hashBytes ctx.H

/-- `sha1_encode`, and the three calls of the websocket handshake. -/
def sha1Encode (W : Vector UInt8 64) (data : List UInt8) : Except Access (List UInt8) :=
  (blkSha1Update uninit (blkSha1Init W) data).bind (blkSha1Final uninit)

end Source

section Contexts

variable {uninit : Vector (BitVec 32) 16} {ctx : BlkShaCtx} {m : List UInt8}

/-- The context after the bytes of `m`. -/
structure Absorbed (uninit : Vector (BitVec 32) 16) (ctx : BlkShaCtx) (m : List UInt8) : Prop where
  counted : ctx.size = m.length%2^64
  holds : Holds (blkSha1Block uninit) initial ctx.H ctx.W m

theorem init_absorbed (W : Vector UInt8 64) : Absorbed uninit (blkSha1Init W) [] :=
  ⟨rfl,holds_empty W⟩

theorem size_low (h : Absorbed uninit ctx m) : ctx.size &&& 63 = m.length%64 := by
  rw [low_bits, h.counted]
  omega

theorem size_added (h : Absorbed uninit ctx m) (data : List UInt8) :
    u64 (ctx.size+data.length) = (m++data).length%2^64 := by
  rw [h.counted, List.length_append, u64]
  omega

theorem blocks_absorbed {size : ℕ} {H : Regs} {W : Vector UInt8 64} {data : List UInt8}
    (h : Holds (blkSha1Block uninit) initial H W m) (ha : m.length%64 = 0)
    (hs : size = (m++data).length%2^64) :
    ∃ ctx, updateBlocks uninit size H W data = .ok ctx ∧ Absorbed uninit ctx (m++data) := by
  obtain ⟨H',W',hrun,hholds⟩ := holds_blocks h ha data
  refine ⟨⟨size,H',W'⟩,?_,hs,hholds⟩
  rw [updateBlocks, hrun]
  rfl

/-- Every piece is absorbed. -/
theorem update_absorbed (h : Absorbed uninit ctx m) (data : List UInt8) :
    ∃ next, blkSha1Update uninit ctx data = .ok next ∧ Absorbed uninit next (m++data) := by
  have hlow := size_low h
  have hsize := size_added h data
  simp only [blkSha1Update, hlow]
  by_cases hempty : m.length%64 = 0
  · rw [if_neg (by simp [hempty])]
    exact blocks_absorbed h.holds hempty hsize
  · rw [if_pos hempty]
    by_cases hshort : data.length < 64-m.length%64
    · obtain ⟨W,hfill,hholds⟩ := holds_within h.holds data (by omega)
      have hopen : m.length%64+data.length &&& 63 ≠ 0 := by
        rw [low_bits]
        omega
      rw [if_pos hshort, hfill]
      simp only [Except.bind, if_pos hopen]
      exact ⟨_,rfl,hsize,hholds⟩
    · obtain ⟨W,hfill,hholds⟩ := holds_filled h.holds data (by omega)
      have hclosed : m.length%64+(64-m.length%64) &&& 63 = 0 := by
        rw [low_bits]
        omega
      have hparts : m++data = m++data.take (64-m.length%64)++data.drop (64-m.length%64) := by
        rw [List.append_assoc, List.take_append_drop]
      rw [if_neg hshort, hfill]
      simp only [Except.bind, hclosed, ne_eq, not_true_eq_false, if_false]
      rw [hparts] at hsize ⊢
      exact blocks_absorbed hholds (by simp; omega) hsize

/-- The padding that is taken from `pad` ends where the length has to begin. -/
theorem pad_zeros (h : Absorbed uninit ctx m) :
    pad.take (1+(63 &&& u32 (55-((ctx.size &&& 63:ℕ):ℤ)))) =
      128::List.replicate (zeros m.length) 0 := by
  have hcount : 63 &&& u32 (55-((m.length%64:ℕ):ℤ)) = zeros m.length := by
    rw [Nat.and_comm, low_bits, zeros, u32]
    omega
  have hfit : zeros m.length ≤ 63 := by
    rw [zeros]
    omega
  rw [size_low h, hcount, pad, Nat.add_comm, List.take_succ_cons, List.take_replicate,
    Nat.min_eq_left hfit]

theorem padlen_length (h : Absorbed uninit ctx m) (hm : m.length < 2^61) :
    bigEndian 4 (u32 (ctx.size >>> 29:ℕ))++bigEndian 4 (u32 (ctx.size <<< 3:ℕ)) =
      bigEndian 8 (8*m.length) := by
  have hsize : ctx.size = m.length := by
    rw [h.counted]
    omega
  have hhigh : u32 ((m.length >>> 29:ℕ):ℤ) = 8*m.length/2^32%2^32 := by
    rw [Nat.shiftRight_eq_div_pow, u32]
    omega
  have hlow : u32 ((m.length <<< 3:ℕ):ℤ) = 8*m.length%2^32 := by
    rw [Nat.shiftLeft_eq, u32]
    omega
  rw [hsize, length_words, hhigh, hlow]

/-- A context that holds a message yields the digest of the standard. -/
theorem final_digest (h : Absorbed uninit ctx m) (hm : m.length < 2^61) :
    blkSha1Final uninit ctx = .ok (sha1 m) := by
  have hpadlen := padlen_length h hm
  obtain ⟨padded,hpad,hone⟩ := update_absorbed h (128::List.replicate (zeros m.length) 0)
  obtain ⟨last,hlast,htwo⟩ := update_absorbed hone (bigEndian 8 (8*m.length))
  rw [padding_pieces] at htwo
  have hcompress : blkSha1Block uninit = compress := by
    funext H data
    exact block_compress uninit H data
  have hdigest : last.H = digest compress initial m := hcompress ▸ htwo.holds.chained
  simp only [blkSha1Final, pad_zeros h, hpad, Except.bind, hpadlen, hlast, Except.map, sha1,
    hdigest]

theorem run_absorbed (pieces : List (List UInt8)) (h : Absorbed uninit ctx m) :
    ∃ next, run (blkSha1Update uninit) pieces ctx = .ok next ∧
      Absorbed uninit next (m++pieces.flatten) := by
  induction pieces generalizing ctx m with
  | nil => exact ⟨ctx,rfl,by simpa using h⟩
  | cons data pieces ih =>
    obtain ⟨mid,hmid,hone⟩ := update_absorbed h data
    obtain ⟨next,hnext,hall⟩ := ih hone
    refine ⟨next,by rw [run_cons_ok hmid, hnext],?_⟩
    rwa [List.flatten_cons, ← List.append_assoc]

end Contexts

/-- However a message is cut into pieces, none of the writes leaves the buffer, and
the result is the digest of the standard. -/
theorem pieces_digest (uninit : Vector (BitVec 32) 16) (W : Vector UInt8 64)
    (pieces : List (List UInt8)) (h : pieces.flatten.length < 2^61) :
    (run (blkSha1Update uninit) pieces (blkSha1Init W)).bind (blkSha1Final uninit) =
      .ok (sha1 pieces.flatten) := by
  obtain ⟨ctx,hrun,habs⟩ := run_absorbed pieces (init_absorbed W : Absorbed uninit (blkSha1Init W) [])
  rw [hrun]
  exact final_digest habs h

/-- The test vector of the standard, in two pieces. -/
theorem abc_digest :
    sha1 [97,98,99] =
      [169,153,62,54,71,6,129,106,186,62,37,113,120,80,194,108,156,208,216,157] :=
  Except.ok.inj ((pieces_digest (Vector.replicate 16 0) (Vector.replicate 64 0) [[97],[98,99]]
    (by decide)).symm.trans (by decide +kernel))

end Duda.Sha1
