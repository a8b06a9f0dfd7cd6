import Duda.MachineInt
import Duda.Runs

/-!
# Flushing a response body through partial writes

One call of `duda_body_buffer_flush` hands the whole vector to `writev`, trims
the entries that the kernel accepted and decreases the total. The result of
the kernel is an input of the model, so a sequence of calls is a run whose
inputs are the accepted sizes. The conversions of the source are kept: the
accepted size is an `unsigned int`, the scan counter an `int`.
-/

set_option autoImplicit false

namespace Duda.BodyBuffer
open Duda.MachineInt Duda.Runs

/-- `struct iovec`: the entry addresses `block` from `iovBase` on. -/
structure Iovec where
  block : List UInt8
  iovBase : ℕ
  iovLen : ℕ
  deriving DecidableEq, Repr

/-- Monkey's `struct mk_iov`; `iov_idx` is the number of entries in `io`. -/
structure MkIov where
  io : List Iovec
  totalLen : ℕ
  deriving DecidableEq, Repr

inductive Fault where
  | exitFailure
  | notPending
  deriving DecidableEq, Repr

def iovMax : ℕ := 1024

def Iovec.bytes (v : Iovec) : List UInt8 := (v.block.drop v.iovBase).take v.iovLen

def Iovec.Inside (v : Iovec) : Prop := v.iovBase+v.iovLen ≤ v.block.length

def MkIov.iovIdx (buf : MkIov) : ℕ := buf.io.length

/-- What `writev` sends when it accepts everything. -/
def gather (io : List Iovec) : List UInt8 := io.flatMap Iovec.bytes

def lengths (io : List Iovec) : ℕ := (io.map Iovec.iovLen).sum

/-- The first marking loop: the entry where the accepted bytes end, as the
source's `reset_to`, and the vector with that entry advanced. -/
def mark (bytesSent : ℕ) : ℤ → ℤ → List Iovec → ℤ × List Iovec
  | _, _, [] => (-1, [])
  | i, count, v::vs =>
    if u64 (count+v.iovLen) = bytesSent then (i, v::vs)
    else if bytesSent < u64 (count+v.iovLen) then
      let bytesTo := u32 (bytesSent-count)
      (i-1, { v with iovBase := v.iovBase+bytesTo, iovLen := u64 (v.iovLen-bytesTo) }::vs)
    else
      let r := mark bytesSent (i+1) (i32 (count+v.iovLen)) vs
      (r.1, v::r.2)

/-- The second loop: entries up to and including `reset_to` get length zero. -/
def resetEntries (resetTo : ℤ) (io : List Iovec) : List Iovec :=
  (io.take (resetTo+1).toNat).map (fun v => { v with iovLen := 0 }) ++
    io.drop (resetTo+1).toNat

def trim (bytesSent : ℕ) (io : List Iovec) : List Iovec :=
  let r := mark bytesSent 0 0 io
  resetEntries r.1 r.2

/-- `duda_body_buffer_flush` for the given result of `writev`. The completion
test reads the total after it was decreased. -/
def bodyBufferFlush (written : ℤ) (buf : MkIov) : Except Fault (ℤ × MkIov) :=
  if iovMax < buf.iovIdx then .error .exitFailure
  else
    let bytesSent := u32 written
    let buf := if bytesSent < buf.totalLen then
        { io := trim bytesSent buf.io, totalLen := u64 (buf.totalLen-bytesSent) }
      else buf
    if bytesSent = buf.totalLen then .ok (0, { buf with totalLen := 0 })
    else .ok (i32 bytesSent, buf)

variable (v : Iovec) (b : ℕ) (io : List Iovec) (body : List UInt8) (vs : List Iovec)

theorem reset_neg : resetEntries (-1) io = io := by
  simp [resetEntries]

theorem reset_cons (r : ℤ) (hr : 0 ≤ r) (v : Iovec) (vs : List Iovec) :
    resetEntries r (v::vs) = { v with iovLen := 0 }::resetEntries (r-1) vs := by
  obtain ⟨n,rfl⟩ := Int.eq_ofNat_of_zero_le hr
  have h : ((n:ℤ)+1).toNat = n+1 := by omega
  simp [resetEntries, h]

theorem bytes_length (h : v.Inside) : v.bytes.length = v.iovLen := by
  unfold Iovec.Inside at h
  simp only [Iovec.bytes, List.length_take, List.length_drop]
  omega

theorem gather_length (h : ∀ v ∈ io, v.Inside) : (gather io).length = lengths io := by
  induction io with
  | nil => rfl
  | cons v vs ih =>
    have hv := bytes_length v (h v (by simp))
    have hs := ih (fun w hw => h w (by simp [hw]))
    simp only [gather, lengths, List.flatMap_cons, List.length_append, List.map_cons,
      List.sum_cons] at *
    omega

theorem advance_bytes :
    Iovec.bytes { v with iovBase := v.iovBase+b, iovLen := v.iovLen-b } = v.bytes.drop b := by
  simp only [Iovec.bytes, List.drop_take, List.drop_drop]

/-- The vector is well formed and `rest` is what it still has to send. -/
def Remains (io : List Iovec) (rest : List UInt8) : Prop :=
  gather io = rest ∧ ∀ v ∈ io, v.Inside

theorem gather_cons : gather (v::vs) = v.bytes++gather vs := by
  simp [gather]

theorem remains_reset (rest : List UInt8) (hv : v.Inside) (h : Remains vs rest) :
    Remains ({ v with iovLen := 0 }::vs) rest := by
  constructor
  · rw [gather_cons, h.1]
    simp [Iovec.bytes]
  · intro w hw
    rcases List.mem_cons.mp hw with rfl | hw
    · simp only [Iovec.Inside] at *
      omega
    · exact h.2 w hw

theorem remains_advance (n : ℕ) (hin : ∀ w ∈ v::vs, w.Inside) (hn : n ≤ v.iovLen) :
    Remains ({ v with iovBase := v.iovBase+n, iovLen := v.iovLen-n }::vs)
      ((gather (v::vs)).drop n) := by
  have hv := hin v (by simp)
  have hlen := bytes_length v hv
  constructor
  · rw [gather_cons, gather_cons, advance_bytes, List.drop_append_of_le_length (by omega)]
  · intro w hw
    rcases List.mem_cons.mp hw with rfl | hw
    · simp only [Iovec.Inside] at *
      omega
    · exact hin w (by simp [hw])

theorem drop_entry (n : ℕ) (hv : v.Inside) :
    (gather (v::vs)).drop (v.iovLen+n) = (gather vs).drop n := by
  rw [gather_cons, ← List.drop_drop, ← bytes_length v hv, List.drop_left]

/-- One round of the scan, in the range where the conversions change nothing. -/
theorem mark_cons (c : ℕ) (i : ℤ) (v : Iovec) (vs : List Iovec) (hc : c ≤ b)
    (hs : c+v.iovLen < 2^31) :
    mark b i c (v::vs) =
      if c+v.iovLen = b then (i, v::vs)
      else if b < c+v.iovLen then
        (i-1, { v with iovBase := v.iovBase+(b-c), iovLen := v.iovLen-(b-c) }::vs)
      else
        ((mark b (i+1) ((c+v.iovLen:ℕ):ℤ) vs).1, v::(mark b (i+1) ((c+v.iovLen:ℕ):ℤ) vs).2) := by
  have hu : u64 ((c:ℤ)+v.iovLen) = c+v.iovLen := by
    rw [← Nat.cast_add, u64_natCast _ (by omega)]
  have hi : i32 ((c:ℤ)+v.iovLen) = ((c+v.iovLen:ℕ):ℤ) := by
    rw [← Nat.cast_add, i32_natCast _ (by omega)]
  rw [mark, hu, hi]
  split_ifs with he hlt
  · rfl
  · have hto : u32 ((b:ℤ)-c) = b-c := by
      rw [← Nat.cast_sub hc, u32_natCast _ (by omega)]
    have hle : u64 ((v.iovLen:ℤ)-((b-c:ℕ):ℤ)) = v.iovLen-(b-c) := by
      rw [← Nat.cast_sub (by omega), u64_natCast _ (by omega)]
    simp only [hto, hle]
  · rfl

theorem lengths_cons : lengths (v::vs) = v.iovLen+lengths vs := by
  simp [lengths]

/-- The two marking loops from an entry on: `c` bytes of the accepted `b` lie
in earlier entries. The induction follows the scan; resetting is relative to
the current entry, so the index of the source cancels. -/
theorem mark_spec (i : ℤ) (c : ℕ) (hin : ∀ v ∈ io, v.Inside) (hc : c ≤ b) (hb : b < c+lengths io)
    (hs : c+lengths io < 2^31) :
    i-1 ≤ (mark b i c io).1 ∧
      Remains (resetEntries ((mark b i c io).1-i) (mark b i c io).2) ((gather io).drop (b-c)) := by
  induction io generalizing i c with
  | nil => simp [lengths] at hb; omega
  | cons v vs ih =>
    have hl := lengths_cons v vs
    have hv := hin v (by simp)
    have hrest : ∀ w ∈ vs, w.Inside := fun w hw => hin w (by simp [hw])
    rw [mark_cons b c i v vs hc (by omega)]
    split_ifs with he hlt
    · rw [sub_self, reset_cons 0 le_rfl, zero_sub, reset_neg,
        show b-c = v.iovLen+0 by omega, drop_entry v vs 0 hv]
      exact ⟨by omega,remains_reset v vs _ hv ⟨rfl,hrest⟩⟩
    · rw [show i-1-i = -1 by ring, reset_neg]
      exact ⟨le_rfl,remains_advance v vs (b-c) hin (by omega)⟩
    · have hstep := ih (i+1) (c+v.iovLen) hrest (by omega) (by omega) (by omega)
      have hr : (mark b (i+1) ((c+v.iovLen:ℕ):ℤ) vs).1-i-1 =
          (mark b (i+1) ((c+v.iovLen:ℕ):ℤ) vs).1-(i+1) := by ring
      rw [reset_cons _ (by omega), hr, show b-c = v.iovLen+(b-(c+v.iovLen)) by omega,
        drop_entry v vs _ hv]
      exact ⟨by omega,remains_reset v _ _ hv hstep.2⟩

theorem entry_le_lengths {io : List Iovec} {j : ℕ} {v : Iovec} (h : io[j]? = some v) :
    v.iovLen ≤ lengths (io.take (j+1)) := by
  induction io generalizing j with
  | nil => simp at h
  | cons w ws ih =>
    rw [List.take_succ_cons, lengths_cons]
    cases j with
    | zero => cases h; omega
    | succ j =>
      have hj := ih (j := j) (by simpa using h)
      omega

/-- The entries that lie in the accepted bytes have length zero after the two
loops. Behind an exact boundary these are the ones that were empty before. -/
theorem mark_sent (i : ℤ) (c : ℕ) (hin : ∀ v ∈ io, v.Inside) (hc : c ≤ b) (hb : b < c+lengths io)
    (hs : c+lengths io < 2^31) (j : ℕ) (v : Iovec) (hj : io[j]? = some v)
    (hsent : c+lengths (io.take (j+1)) ≤ b) :
    ∃ w, (resetEntries ((mark b i c io).1-i) (mark b i c io).2)[j]? = some w ∧ w.iovLen = 0 := by
  induction io generalizing i c j with
  | nil => simp at hj
  | cons u us ih =>
    have hl := lengths_cons u us
    have hrest : ∀ w ∈ us, w.Inside := fun w hw => hin w (by simp [hw])
    rw [List.take_succ_cons, lengths_cons] at hsent
    rw [mark_cons b c i u us hc (by omega)]
    split_ifs with he hlt
    · rw [sub_self, reset_cons 0 le_rfl, zero_sub, reset_neg]
      cases j with
      | zero => exact ⟨_,rfl,rfl⟩
      | succ j =>
        have hempty : v.iovLen ≤ lengths (us.take (j+1)) := entry_le_lengths (by simpa using hj)
        exact ⟨v,by simpa using hj,by omega⟩
    · omega
    · have hstep := (mark_spec b us (i+1) (c+u.iovLen) hrest (by omega) (by omega) (by omega)).1
      have hr : (mark b (i+1) ((c+u.iovLen:ℕ):ℤ) us).1-i-1 =
          (mark b (i+1) ((c+u.iovLen:ℕ):ℤ) us).1-(i+1) := by ring
      rw [reset_cons _ (by omega), hr]
      cases j with
      | zero => exact ⟨_,rfl,rfl⟩
      | succ j =>
        exact ih (i+1) (c+u.iovLen) hrest (by omega) (by omega) (by omega) j (by simpa using hj)
          (by omega)

theorem trim_spec (hin : ∀ v ∈ io, v.Inside) (hb : b < lengths io) (hs : lengths io < 2^31) :
    Remains (trim b io) ((gather io).drop b) := by
  have h := mark_spec b io 0 0 hin (by omega) (by omega) (by omega)
  simpa [trim] using h.2

/-- After a partial write the vector holds the bytes that were not accepted, in
slices of the same blocks, and the entries that lie in the accepted bytes are
empty. The entries may have been emptied by earlier calls. -/
theorem trim_exact (b : ℕ) (io : List Iovec) (hin : ∀ v ∈ io, v.Inside)
    (hb : b < lengths io) (hs : lengths io < 2^31) :
    gather (trim b io) = (gather io).drop b ∧ (∀ v ∈ trim b io, v.Inside) ∧
      ∀ j v, io[j]? = some v → lengths (io.take (j+1)) ≤ b →
        ∃ w, (trim b io)[j]? = some w ∧ w.iovLen = 0 := by
  obtain ⟨hg,hins⟩ := trim_spec b io hin hb hs
  refine ⟨hg,hins,?_⟩
  intro j v hj hsent
  have h := mark_sent b io 0 0 hin (by omega) (by omega) (by omega) j v hj (by omega)
  simpa [trim] using h

/-- Two entries are empty from earlier writes, one of them in front of the
entry where the accepted bytes end. -/
theorem trim_exact_emptied :
    trim 3 [⟨[1,2],2,0⟩,⟨[3,4],0,2⟩,⟨[5],1,0⟩,⟨[6,7,8],0,3⟩] =
        [⟨[1,2],2,0⟩,⟨[3,4],0,0⟩,⟨[5],1,0⟩,⟨[6,7,8],1,2⟩] ∧
      gather (trim 3 [⟨[1,2],2,0⟩,⟨[3,4],0,2⟩,⟨[5],1,0⟩,⟨[6,7,8],0,3⟩]) = [7,8] := by
  constructor
  · decide
  · exact (trim_exact 3 [⟨[1,2],2,0⟩,⟨[3,4],0,2⟩,⟨[5],1,0⟩,⟨[6,7,8],0,3⟩]
      (by simp [Iovec.Inside]) (by decide) (by decide)).1

/-- What one call does when the kernel accepts `k` of at most `totalLen`
bytes: half of the total passes the completion test as well. -/
theorem flush_spec (k : ℕ) (buf : MkIov) (hidx : buf.iovIdx ≤ iovMax) (h0 : 1 ≤ k)
    (hk : k ≤ buf.totalLen) (hs : buf.totalLen < 2^31) :
    bodyBufferFlush k buf =
      if k = buf.totalLen then .ok (0, { buf with totalLen := 0 })
      else if 2*k = buf.totalLen then .ok (0, ⟨trim k buf.io,0⟩)
      else .ok (k, ⟨trim k buf.io,buf.totalLen-k⟩) := by
  have hu : u32 (k:ℤ) = k := u32_natCast k (by omega)
  have hd : u64 ((buf.totalLen:ℤ)-k) = buf.totalLen-k := by
    rw [← Nat.cast_sub hk, u64_natCast _ (by omega)]
  have hi : i32 (k:ℤ) = k := i32_natCast k (by omega)
  simp only [bodyBufferFlush, hu, hd, hi, if_neg (Nat.not_lt.mpr hidx)]
  by_cases hlt : k < buf.totalLen
  · simp only [if_pos hlt, if_neg (Nat.ne_of_lt hlt)]
    by_cases h2 : 2*k = buf.totalLen
    · rw [if_pos (by omega), if_pos h2]
    · rw [if_neg (by omega), if_neg h2]
  · simp only [if_neg hlt, if_pos (show k = buf.totalLen by omega)]

/-- A body as the response code enqueues it. -/
structure Body where
  buf : MkIov
  inside : ∀ v ∈ buf.io, v.Inside
  total : buf.totalLen = lengths buf.io
  small : buf.totalLen < 2^31

def Body.content (b : Body) : List UInt8 := gather b.buf.io

/-- Sending one body: the vector, the bytes the kernel accepted so far and the
last return value. -/
structure Progress where
  buf : MkIov
  sent : List UInt8
  ret : Option ℤ
  deriving DecidableEq, Repr

/-- One call in which `writev` accepts `k` bytes, from one up to what is still
pending of the body. -/
def call (body : List UInt8) (s : Progress) (k : ℕ) : Except Fault Progress :=
  if 1 ≤ k ∧ s.sent.length+k ≤ body.length then
    match bodyBufferFlush k s.buf with
    | .error e => .error e
    | .ok (ret,buf) => .ok ⟨buf,s.sent ++ (gather s.buf.io).take k,some ret⟩
  else .error .notPending

def start (b : Body) : Progress := ⟨b.buf,[],none⟩

def Delivered (body : List UInt8) (t : Progress) : Prop :=
  t.sent <+: body ∧ (t.ret = some 0 ↔ t.sent = body)

/-- The call does not accept exactly half of what is pending. -/
def NotHalf (s : Progress) (k : ℕ) : Prop := 2*k ≠ s.buf.totalLen

/-- The vector holds what is left of the body, until the body is complete: the
last call leaves the entries untrimmed. -/
structure Inv (body : List UInt8) (s : Progress) : Prop where
  sent : s.sent <+: body
  total : s.buf.totalLen+s.sent.length = body.length
  small : body.length < 2^31
  inside : s.buf.totalLen ≠ 0 → ∀ v ∈ s.buf.io, v.Inside
  pending : s.buf.totalLen ≠ 0 → gather s.buf.io = body.drop s.sent.length

theorem start_inv (b : Body) : Inv b.content (start b) where
  sent := List.nil_prefix
  total := by simp [start, Body.content, gather_length _ b.inside, b.total]
  small := by
    rw [Body.content, gather_length _ b.inside, ← b.total]
    exact b.small
  inside := fun _ => b.inside
  pending := fun _ => by simp [start, Body.content]

theorem call_sent (s t : Progress) (k : ℕ) (hi : Inv body s) (h : call body s k = .ok t) :
    1 ≤ k ∧ k ≤ s.buf.totalLen ∧ s.buf.iovIdx ≤ iovMax ∧
      t.sent = body.take (s.sent.length+k) := by
  unfold call at h
  split_ifs at h with hk
  have ht := hi.total
  have hidx : s.buf.iovIdx ≤ iovMax := by
    by_contra hc
    simp [bodyBufferFlush, if_pos (Nat.lt_of_not_le hc)] at h
  refine ⟨hk.1, by omega, hidx, ?_⟩
  have hs : s.sent = body.take s.sent.length := List.prefix_iff_eq_take.mp hi.sent
  have he : t.sent = s.sent ++ (gather s.buf.io).take k := by
    revert h
    cases bodyBufferFlush k s.buf with
    | error e => simp
    | ok r => intro h; exact (Except.ok.inj h) ▸ rfl
  rw [he, hi.pending (by omega), List.take_add]
  congr 1

/-- The three ways a call can go: the rest is accepted, exactly half of it, or
any other part. -/
theorem call_cases (s t : Progress) (k : ℕ) (hi : Inv body s) (h : call body s k = .ok t) :
    (k = s.buf.totalLen ∧ t.buf.totalLen = 0 ∧ t.ret = some 0) ∨
    (2*k = s.buf.totalLen ∧ t.ret = some 0) ∨
    (k < s.buf.totalLen ∧ 2*k ≠ s.buf.totalLen ∧
      t.buf = ⟨trim k s.buf.io,s.buf.totalLen-k⟩ ∧ t.ret = some (k:ℤ)) := by
  obtain ⟨h0,hk,hidx,_⟩ := call_sent body s t k hi h
  have hsmall : s.buf.totalLen < 2^31 := by
    have := hi.small
    have := hi.total
    omega
  unfold call at h
  rw [flush_spec k s.buf hidx h0 hk hsmall] at h
  split_ifs at h with hp hf hh
  · exact Or.inl ⟨hf, by cases h; exact ⟨rfl,rfl⟩⟩
  · exact Or.inr (Or.inl ⟨hh, by cases h; rfl⟩)
  · exact Or.inr (Or.inr ⟨by omega, hh, by cases h; exact ⟨rfl,rfl⟩⟩)

theorem call_keeps (s t : Progress) (k : ℕ) (hi : Inv body s) (hh : NotHalf s k)
    (h : call body s k = .ok t) : Inv body t := by
  obtain ⟨h0,hk,_,hsent⟩ := call_sent body s t k hi h
  have htot := hi.total
  have hlen : t.sent.length = s.sent.length+k := by
    rw [hsent, List.length_take]
    omega
  have hpre : t.sent <+: body := hsent ▸ List.take_prefix _ _
  rcases call_cases body s t k hi h with ⟨hf,hz,_⟩ | ⟨hf,_⟩ | ⟨hlt,_,hb,_⟩
  · exact ⟨hpre, by omega, hi.small, fun hn => absurd hz hn, fun hn => absurd hz hn⟩
  · exact absurd hf hh
  · have hpos : s.buf.totalLen ≠ 0 := by omega
    have hl : lengths s.buf.io = s.buf.totalLen := by
      rw [← gather_length _ (hi.inside hpos), hi.pending hpos, List.length_drop]
      omega
    obtain ⟨hg,hin⟩ := trim_spec k s.buf.io (hi.inside hpos) (by omega)
      (by have := hi.small; omega)
    refine ⟨hpre, by rw [hb]; simp only; omega, hi.small, fun _ => by rw [hb]; exact hin,
      fun _ => ?_⟩
    rw [hb, hg, hi.pending hpos, List.drop_drop, hlen]

theorem call_delivered_iff (s t : Progress) (k : ℕ) (hi : Inv body s) (h : call body s k = .ok t) :
    Delivered body t ↔ NotHalf s k := by
  obtain ⟨h0,hk,_,hsent⟩ := call_sent body s t k hi h
  have htot := hi.total
  have hpre : t.sent <+: body := hsent ▸ List.take_prefix _ _
  have hfull : t.sent = body ↔ k = s.buf.totalLen := by
    rw [hsent, List.take_eq_self_iff]
    omega
  unfold Delivered NotHalf
  rw [hfull]
  rcases call_cases body s t k hi h with ⟨hf,_,hr⟩ | ⟨hf,hr⟩ | ⟨hlt,hne,_,hr⟩
  · simp only [hpre, hr, hf, true_and, true_iff]
    omega
  · simp only [hpre, hr, true_and, true_iff]
    omega
  · simp only [hpre, hr, true_and, Option.some.injEq]
    omega

/-- Over any sequence of partial writes the accepted bytes are a prefix of the
body and zero reports completion, exactly when no call accepts half of what is
pending: that call returns zero, and later ones repeat bytes. -/
theorem flush_delivers_iff (b : Body) (ks : List ℕ) :
    Along (call b.content) (After (Delivered b.content)) ks (start b) ↔
      Along (call b.content) (Taken NotHalf) ks (start b) := by
  apply along_iff (I := Inv b.content)
  · intro s k t hi hg ht
    exact call_keeps _ s t k hi (hg t rfl) ht
  · intro s k hi
    exact forall₂_congr (fun t ht => call_delivered_iff _ s t k hi ht)
  · exact start_inv b

def fourBytes : Body where
  buf := ⟨[⟨[1,2,3,4],0,4⟩],4⟩
  inside := by simp [Iovec.Inside]
  total := rfl
  small := by decide

/-- Two of four bytes are accepted and the call returns zero; then the third
byte is sent twice. -/
theorem flush_half_repeats :
    ¬ Along (call fourBytes.content) (After (Delivered fourBytes.content)) [2,1,1]
        (start fourBytes) ∧
      run (call fourBytes.content) [2,1,1] (start fourBytes) =
        .ok ⟨⟨[⟨[1,2,3,4],2,2⟩],0⟩,[1,2,3,3],some 1⟩ := by
  refine ⟨fun h => ?_, by rfl⟩
  have hd : Delivered fourBytes.content ⟨⟨[⟨[1,2,3,4],2,2⟩],0⟩,[1,2],some 0⟩ := h.1 _ (by rfl)
  exact absurd (hd.2.mp rfl) (by decide)

end Duda.BodyBuffer
