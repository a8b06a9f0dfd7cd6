import Duda.Queue

/-!
# The range of a file to send

`duda_sendfile_new` tests the offset after a conversion to 32 bits, and a sum
that wraps at 64 bits. The bytes to send are then taken from the offset as it
was given. Arguments and file size have the widths of the C types.
-/

set_option autoImplicit false

namespace Duda.FileRange
open Duda.MachineInt Duda.Queue

/-- What `file_get_info` reports. -/
structure FileInfo where
  size : UInt64
  readAccess : Bool
  deriving DecidableEq, Repr

structure DudaSendfile where
  fd : ℤ
  offset : ℤ
  pendingBytes : ℕ
  deriving DecidableEq, Repr

/-- `duda_sendfile_new`, for the file's information and the descriptor that
`open` returns. -/
def sendfileNew (info : Option FileInfo) (fd : ℤ) (offset : Int64) (count : UInt64) :
    Option DudaSendfile :=
  if offset.toInt < 0 then none
  else
    match info with
    | none => none
    | some info =>
      let fsize := info.size.toNat
      let unsigned := u32 offset.toInt
      if fsize < unsigned ∨ fsize < count.toNat ∨ fsize < u64 (unsigned+count.toNat) then none
      else if info.readAccess = false then none
      else if fd < 0 then none
      else some ⟨fd,offset.toInt,
        if count.toNat = 0 then u64 (fsize-offset.toInt) else count.toNat⟩

/-- `duda_response_sendfile_range`: the code and the output queue. -/
def responseSendfileRange (info : Option FileInfo) (fd : ℤ) (offset : Int64) (count : UInt64)
    (queue : List QueueItem) : ℤ × List QueueItem :=
  match sendfileNew info fd offset count with
  | none => (-1,queue)
  | some sf => (0,queueAdd (queueItemNew (.sendfile sf.pendingBytes)) queue)

section Range

variable (size : UInt64) (offset : Int64) (count : UInt64)

def requested : ℤ := if count.toNat = 0 then size.toNat-offset.toInt else count.toNat

def ValidRange : Prop :=
  0 ≤ offset.toInt ∧ offset.toInt ≤ size.toNat ∧
    offset.toInt+requested size offset count ≤ size.toNat

/-- The range with the lower 32 bits of its offset goes beyond the file, with
its end inside 64 bits. -/
def CutBeyond : Prop :=
  offset.toInt < 0 ∨ size.toNat < u32 offset.toInt ∨ size.toNat < count.toNat ∨
    (size.toNat < u32 offset.toInt+count.toNat ∧ u32 offset.toInt+count.toNat < 2^64)

instance : Decidable (ValidRange size offset count) :=
  inferInstanceAs (Decidable (_ ∧ _ ∧ offset.toInt+requested size offset count ≤ size.toNat))

instance : Decidable (CutBeyond size offset count) :=
  inferInstanceAs (Decidable (offset.toInt < 0 ∨ _ ∨ size.toNat < count.toNat ∨ _))

theorem cut_lt (x : ℤ) : u32 x < 2^32 := by
  simp only [u32]
  omega

theorem cut_le (x : ℤ) (h : 0 ≤ x) : (u32 x:ℤ) ≤ x := by
  simp only [u32]
  omega

/-- The sum wraps when the end is beyond 64 bits. -/
theorem sum_test (x : ℕ) (hx : x < 2^32) (hc : count.toNat ≤ size.toNat) :
    size.toNat < u64 (x+count.toNat) ↔ size.toNat < x+count.toNat ∧ x+count.toNat < 2^64 := by
  have hs := size.toNat_lt
  simp only [u64]
  omega

variable (fd : ℤ) (hfd : 0 ≤ fd)

include hfd in
theorem sendfileNew_eq : sendfileNew (some ⟨size,true⟩) fd offset count =
    if CutBeyond size offset count then none
    else some ⟨fd,offset.toInt,
      if count.toNat = 0 then u64 (size.toNat-offset.toInt) else count.toNat⟩ := by
  have htest : (offset.toInt < 0 ∨ size.toNat < u32 offset.toInt ∨ size.toNat < count.toNat ∨
      size.toNat < u64 (u32 offset.toInt+count.toNat)) ↔ CutBeyond size offset count := by
    rw [CutBeyond]
    by_cases hc : size.toNat < count.toNat
    · simp only [hc, true_or, or_true]
    · rw [sum_test size count _ (cut_lt _) (not_lt.mp hc)]
  have hopen : ¬fd < 0 := not_lt.mpr hfd
  by_cases hneg : offset.toInt < 0
  · rw [if_pos (htest.mp (.inl hneg)), sendfileNew, if_pos hneg]
  · simp only [hneg, false_or] at htest
    simp only [sendfileNew, if_neg hneg, Bool.true_eq_false, if_false, if_neg hopen]
    by_cases hcut : CutBeyond size offset count
    · rw [if_pos (htest.mpr hcut), if_pos hcut]
    · rw [if_neg (mt htest.mp hcut), if_neg hcut]

theorem valid_not_cut (h : ValidRange size offset count) : ¬CutBeyond size offset count := by
  obtain ⟨h0,hle,hend⟩ := h
  have hcut := cut_le offset.toInt h0
  have hs := size.toNat_lt
  simp only [requested] at hend
  rw [CutBeyond]
  split_ifs at hend <;> omega

theorem short_offset (hoff : offset.toInt < 2^32) (hsize : size.toNat+2^32 ≤ 2^64) :
    CutBeyond size offset count ∨ ValidRange size offset count := by
  by_cases h : CutBeyond size offset count
  · exact .inl h
  · right
    simp only [CutBeyond, not_or, not_and, not_lt] at h
    obtain ⟨h0,hle,hcount,hsum⟩ := h
    have hcut : u32 offset.toInt = offset.toInt.toNat := u32_of_range _ h0 hoff
    have hoff' := cut_lt offset.toInt
    refine ⟨h0,by omega,?_⟩
    simp only [requested]
    split_ifs <;> omega

end Range

/-- A valid range is accepted, and what is accepted is valid exactly when the
range is valid or goes beyond the file also with its offset cut to 32 bits. -/
theorem sendfile_range_iff (size : UInt64) (fd : ℤ) (hfd : 0 ≤ fd) (offset : Int64)
    (count : UInt64) (queue : List QueueItem) :
    (ValidRange size offset count →
      sendfileNew (some ⟨size,true⟩) fd offset count =
          some ⟨fd,offset.toInt,(requested size offset count).toNat⟩ ∧
        responseSendfileRange (some ⟨size,true⟩) fd offset count queue =
          (0,queue++[⟨.sendfile (requested size offset count).toNat,.active⟩])) ∧
    ((∀ sf, sendfileNew (some ⟨size,true⟩) fd offset count = some sf →
        ValidRange size offset count) ↔
      CutBeyond size offset count ∨ ValidRange size offset count) ∧
    (offset.toInt < 2^32 → size.toNat+2^32 ≤ 2^64 →
      CutBeyond size offset count ∨ ValidRange size offset count) := by
  have hnew := sendfileNew_eq size offset count fd hfd
  refine ⟨fun hvalid => ?_,?_,short_offset size offset count⟩
  · have hpending : (if count.toNat = 0 then u64 (size.toNat-offset.toInt) else count.toNat) =
        (requested size offset count).toNat := by
      have hs := size.toNat_lt
      obtain ⟨h0,hle,_⟩ := hvalid
      simp only [requested]
      split_ifs
      · exact u64_of_range _ (by omega) (by omega)
      · rfl
    rw [if_neg (valid_not_cut size offset count hvalid), hpending] at hnew
    refine ⟨hnew,?_⟩
    rw [responseSendfileRange, hnew]
    rfl
  · by_cases hcut : CutBeyond size offset count
    · rw [hnew, if_pos hcut]
      simp [hcut]
    · rw [hnew, if_neg hcut]
      simp [hcut]

/-- Ten bytes from the fifth on. -/
theorem sendfile_range_small :
    sendfileNew (some ⟨100,true⟩) 3 5 10 = some ⟨3,5,10⟩ :=
  ((sendfile_range_iff 100 3 (by decide) 5 10 []).1 (by decide)).1

/-- An offset of 2^32 in a file of one byte: the range is accepted, and the
bytes to send wrap. -/
theorem large_offset_accepted :
    sendfileNew (some ⟨1,true⟩) 3 4294967296 0 = some ⟨3,4294967296,18446744069414584321⟩ ∧
      ¬ValidRange 1 4294967296 0 := by
  constructor
  · decide
  · decide

end Duda.FileRange
