import Duda.BlockStream
import Duda.CheckedMemory
import Duda.FrameCodec

/-!
# Hash functions that buffer an incomplete block

The message is padded to whole blocks of 64 bytes, the length in bits at the
end, and the compression function is folded over the blocks. A hash function
that is given the message in pieces keeps the chaining value of the whole blocks
and the bytes that do not fill a block yet. The rules say what a piece does to
them when it stays within the block, fills it, or arrives at an empty one.
-/

set_option autoImplicit false

namespace Duda.BufferedHash
open Duda.BlockStream Duda.CheckedMemory Duda.FrameCodec

/-- The zeros behind the final bit of a message of `n` bytes. -/
def zeros (n : ℕ) : ℕ := (119-n%64)%64

def padding (n : ℕ) : List UInt8 := 128::(List.replicate (zeros n) 0++bigEndian 8 (8*n))

theorem padding_pieces (m : List UInt8) :
    m++128::List.replicate (zeros m.length) 0++bigEndian 8 (8*m.length) =
      m++padding m.length := by
  rw [padding, List.append_assoc, List.cons_append]

theorem low_bits (n : ℕ) : n &&& 63 = n%64 := Nat.and_two_pow_sub_one_eq_mod n 6

theorem byte_congr (x y : ℕ) (h : x%256 = y%256) : UInt8.ofNat x = UInt8.ofNat y := by
  rw [← UInt8.toNat_inj, UInt8.toNat_ofNat', UInt8.toNat_ofNat']
  exact h

theorem length_words (n : ℕ) :
    bigEndian 8 n = bigEndian 4 (n/2^32%2^32)++bigEndian 4 (n%2^32) := by
  simp only [bigEndian, List.cons_append, List.nil_append, List.cons.injEq, and_true,
    Nat.reducePow, Nat.div_one]
  refine ⟨?_,?_,?_,?_,?_,?_,?_,?_⟩ <;> apply byte_congr <;> omega

section Context

variable {σ : Type*} (f : σ → List UInt8 → σ) (init : σ)

def digest (m : List UInt8) : σ := folded 64 f init (m++padding m.length)

/-- A chaining value and a buffer after the bytes of `m`. -/
structure Holds (H : σ) (W : Vector UInt8 64) (m : List UInt8) : Prop where
  chained : H = folded 64 f init m
  buffered : W.toList.take (m.length%64) = residue 64 m

/-- The loop over the whole blocks of a piece, and the copy of what is left. -/
def takeBlocks (H : σ) (W : Vector UInt8 64) (off : ℕ) (data : List UInt8) :
    Except Access (σ × Vector UInt8 64) :=
  let (H,rest) := drain 64 f H data
  if rest = [] then .ok (H,W) else (fill rest off rest.length 0 W).map fun W => (H,W)

variable {f init} {H : σ} {W : Vector UInt8 64} {m : List UInt8}

theorem holds_empty (W : Vector UInt8 64) : Holds f init init W [] where
  chained := by rw [folded_short 64 f init [] (by decide)]
  buffered := by rw [residue_short 64 [] (by decide)]; rfl

theorem residue_bound (m : List UInt8) : (residue 64 m).length < 64 := by
  rw [residue_length]
  omega

theorem holds_within (h : Holds f init H W m) (data : List UInt8)
    (hd : m.length%64+data.length < 64) :
    ∃ W', fill data (m.length%64) data.length 0 W = .ok W' ∧ Holds f init H W' (m++data) := by
  obtain ⟨W',hW⟩ := (fill_ok_iff data (m.length%64) data.length 0 W).mpr
    (.inr ⟨by omega,by omega⟩)
  have htake := fill_take data _ _ _ _ _ (by omega) (by omega) hW
  have hshort : (residue 64 m++data).length < 64 := by
    rw [List.length_append, residue_length]
    omega
  refine ⟨W',hW,?_,?_⟩
  · rw [folded_append 64 f (by decide), folded_short 64 f _ _ hshort]
    exact h.chained
  · rw [residue_append 64 (by decide), residue_short 64 _ hshort, List.length_append,
      Nat.add_mod, Nat.mod_eq_of_lt (a := data.length) (by omega), Nat.mod_eq_of_lt hd]
    rw [Nat.add_zero, List.drop_zero, List.take_length, h.buffered] at htake
    exact htake

theorem holds_filled (h : Holds f init H W m) (data : List UInt8)
    (hd : 64 ≤ m.length%64+data.length) :
    ∃ W', fill data (m.length%64) (64-m.length%64) 0 W = .ok W' ∧
      Holds f init (f H W'.toList) W' (m++data.take (64-m.length%64)) := by
  obtain ⟨W',hW⟩ := (fill_ok_iff data (m.length%64) (64-m.length%64) 0 W).mpr
    (.inr ⟨by omega,by omega⟩)
  have htake := fill_take data _ _ _ _ _ (by omega) (by omega) hW
  have hfull : m.length%64+0+(64-m.length%64) = 64 := by omega
  rw [hfull, Nat.add_zero, List.drop_zero, h.buffered,
    List.take_of_length_le (by rw [Vector.length_toList])] at htake
  have hlen : (residue 64 m++data.take (64-m.length%64)).length = 64 := by
    rw [← htake, Vector.length_toList]
  refine ⟨W',hW,?_,?_⟩
  · rw [folded_append 64 f (by decide), folded_block 64 f _ _ (by decide) hlen.ge,
      List.take_of_length_le hlen.le, List.drop_of_length_le hlen.le, htake, h.chained,
      folded_short 64 f _ [] (by decide)]
  · have haligned : (m++data.take (64-m.length%64)).length%64 = 0 := by
      rw [List.length_append, List.length_take]
      omega
    rw [haligned, residue_aligned 64 _ haligned, List.take_zero]

theorem holds_blocks (h : Holds f init H W m) (ha : m.length%64 = 0) (data : List UInt8) :
    ∃ H' W', takeBlocks f H W 0 data = .ok (H',W') ∧ Holds f init H' W' (m++data) := by
  have hres : residue 64 (m++data) = residue 64 data := by
    rw [residue_append 64 (by decide), residue_aligned 64 m ha, List.nil_append]
  have hfold : folded 64 f init (m++data) = folded 64 f H data := by
    rw [folded_append 64 f (by decide), residue_aligned 64 m ha, List.nil_append, ← h.chained]
  have hlen := residue_length 64 (m++data)
  rw [hres] at hlen
  simp only [takeBlocks, drain_eq 64 f (by decide : 0 < 64)]
  by_cases hrest : residue 64 data = []
  · rw [if_pos hrest]
    refine ⟨_,_,rfl,hfold.symm,?_⟩
    rw [hres, ← hlen, hrest]
    rfl
  · obtain ⟨W',hW⟩ := (fill_ok_iff (residue 64 data) 0 (residue 64 data).length 0 W).mpr
      (.inr ⟨by omega,by have := residue_bound data; omega⟩)
    have htake := fill_take _ _ _ _ _ _ (by omega)
      (by have := residue_bound data; omega) hW
    rw [if_neg hrest, hW]
    refine ⟨_,W',rfl,hfold.symm,?_⟩
    rw [hres, ← hlen]
    simpa using htake

theorem takeBlocks_short (off : ℕ) (data : List UInt8) (h : data.length < 64) (hne : data ≠ []) :
    takeBlocks f H W off data = (fill data off data.length 0 W).map fun W => (H,W) := by
  simp only [takeBlocks, drain_eq 64 f (by decide : 0 < 64), folded_short 64 f H data h,
    residue_short 64 data h, if_neg hne]

end Context

end Duda.BufferedHash
