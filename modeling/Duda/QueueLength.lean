import Duda.Queue

/-!
# Pending bytes through four integer types

The bytes that an item still has to send are counted in 64 bits, the result of
the kernel is cut to 32 bits for a body, and the length of the queue is
returned through an `int`. The sign and the zero of that `int` decide whether
the request is finished, so a flush is exact only for lengths on which the
conversions agree.
-/

set_option autoImplicit false

namespace Duda.QueueLength
open Duda.BodyBuffer Duda.MachineInt Duda.Queue

/-- For each item the bytes it has to send after the flush; an item whose
write failed in this call counts as having none. -/
def unsent (result : ℤ) : List QueueItem → List ℕ
  | [] => []
  | item::queue =>
    if item.status = .inactive then item.pending::unsent result queue
    else (if result = -1 then 0 else item.pending-result.toNat)::queue.map QueueItem.pending

def AllSent (result : ℤ) (queue : List QueueItem) : Prop := ∀ n ∈ unsent result queue, n = 0

/-- An item that became inactive has nothing pending, neither by its own
account nor by what the kernel accepted. -/
def Completed (result : ℤ) (queue after : List QueueItem) : Prop :=
  ∀ (i : ℕ) (item new : QueueItem), queue[i]? = some item → after[i]? = some new →
    item.status = .active → new.status = .inactive →
      new.pending = 0 ∧ (unsent result queue)[i]? = some 0

structure FlushExact (queue : List QueueItem) (result : ℤ) : Prop where
  length : ∀ t dr f, (t.requests dr).queueOut = queue → queueFlush t dr result = .ok f →
    (0 < f.ret ↔ 0 < queueLength (f.thread.requests dr).queueOut)
  completed : ∀ t dr f, (t.requests dr).queueOut = queue → queueFlush t dr result = .ok f →
    Completed result queue (f.thread.requests dr).queueOut
  ended : ∀ t dr sockfd endRet e, (t.requests dr).queueOut = queue →
    writeCallback t sockfd result endRet = .ok e → e.ended = some dr → AllSent result queue

/-- What `writev` and `socket_send_file` may return for an item. -/
def Offered : QData → ℤ → Prop
  | .bodyBuffer buf, result => result = -1 ∨ (0 ≤ result ∧ result ≤ buf.totalLen)
  | .sendfile p, result => result = -1 ∨ (0 ≤ result ∧ result ≤ p ∧ result < 2^31)

/-- The bytes that the item accounts for after the call, by its size and the
result of the kernel. -/
def remaining : QData → ℤ → ℕ
  | .bodyBuffer buf, result =>
    if buf.totalLen = u32 result ∨ buf.totalLen = 2*u32 result then 0
    else if buf.totalLen < u32 result then buf.totalLen
    else buf.totalLen-u32 result
  | .sendfile p, result => if result = -1 then 0 else p-result.toNat

/-- The kernel took part of a body, neither half of it nor a multiple of `2^32`
bytes; a file has no multiple of `2^32` bytes left. -/
def ItemSafe : QData → ℤ → Prop
  | .bodyBuffer buf, result =>
    buf.totalLen = 0 ∨ result = -1 ∨ (u32 result ≠ 0 ∧ buf.totalLen ≠ 2*u32 result)
  | .sendfile p, result => result = -1 ∨ p = result.toNat ∨ ¬2^32 ∣ p-result.toNat

/-- A positive length stays positive as an `int`. -/
def FitsInt (n : ℕ) : Prop := n = 0 ∨ (0 < n % 2^32 ∧ n % 2^32 < 2^31)

/-- The condition on a queue and the result of the kernel. -/
def FlushSafe (queue : List QueueItem) (result : ℤ) : Prop :=
  match queue.dropWhile (fun item => item.status = .inactive) with
  | [] => total queue = 0
  | item::_ => ItemSafe item.data result ∧
      FitsInt (total queue-item.pending+remaining item.data result)

def Marked : QData → ℤ → Prop
  | .bodyBuffer buf, result =>
    buf.totalLen = u32 result ∨ buf.totalLen = 2*u32 result ∨ u32 result = 0
  | .sendfile p, result => result = -1 ∨ 2^32 ∣ p-result.toNat

theorem u32_lt (x : ℤ) : u32 x < 2^32 := by
  simp only [u32]
  omega

theorem u32_accepted (x : ℤ) (h : 0 ≤ x) : u32 x = x.toNat % 2^32 := by
  simp only [u32]
  omega

theorem i32_zero_iff (n : ℕ) : i32 n = 0 ↔ n % 2^32 = 0 := by
  simp only [i32, u32]
  split_ifs <;> omega

theorem i32_pos_iff (n : ℕ) : 0 < i32 n ↔ 0 < n % 2^32 ∧ n % 2^32 < 2^31 := by
  simp only [i32, u32]
  split_ifs <;> omega

theorem body_service (buf buf' : MkIov) (result ret : ℤ) (hw : buf.totalLen < 2^64)
    (h : bodyBufferFlush result buf = .ok (ret,buf')) :
    buf'.totalLen = remaining (.bodyBuffer buf) result ∧
      (ret = 0 ↔ Marked (.bodyBuffer buf) result) := by
  have hb := u32_lt result
  have hret : i32 (u32 result) = 0 ↔ u32 result = 0 := by
    rw [i32_zero_iff, Nat.mod_eq_of_lt hb]
  have hexit : ¬iovMax < buf.iovIdx := by
    intro hexit
    simp [bodyBufferFlush, if_pos hexit] at h
  by_cases hlt : u32 result < buf.totalLen
  · have hsub : u64 ((buf.totalLen:ℤ)-u32 result) = buf.totalLen-u32 result := by
      rw [← Nat.cast_sub hlt.le, u64_natCast _ (by omega)]
    simp only [bodyBufferFlush, if_neg hexit, if_pos hlt, hsub] at h
    by_cases he : u32 result = buf.totalLen-u32 result
    · have hhalf : buf.totalLen = 2*u32 result := by omega
      rw [if_pos he] at h
      cases h
      simp [remaining, Marked, hhalf]
    · have hne : buf.totalLen ≠ u32 result := by omega
      have hnot : buf.totalLen ≠ 2*u32 result := by omega
      rw [if_neg he] at h
      cases h
      simp [remaining, Marked, hne, hnot, hret, not_lt.mpr hlt.le]
  · simp only [bodyBufferFlush, if_neg hexit, if_neg hlt] at h
    by_cases he : u32 result = buf.totalLen
    · rw [if_pos he] at h
      cases h
      simp [remaining, Marked, he]
    · have hgt : buf.totalLen < u32 result := by omega
      have hne : buf.totalLen ≠ u32 result := by omega
      have hnot : buf.totalLen ≠ 2*u32 result := by omega
      rw [if_neg he] at h
      cases h
      simp [remaining, Marked, hne, hnot, hret, hgt]

theorem sendfile_service (p : ℕ) (result : ℤ) (hw : p < 2^64) (ho : Offered (.sendfile p) result) :
    (sendfileFlush result p).2 = remaining (.sendfile p) result ∧
      ((sendfileFlush result p).1 = 0 ↔ Marked (.sendfile p) result) := by
  simp only [Offered] at ho
  simp only [sendfileFlush, remaining, Marked]
  by_cases hpos : 0 < result
  · have hsub : u64 ((p:ℤ)-result) = p-result.toNat := by
      rw [u64_of_range _ (by omega) (by omega)]
      omega
    have hne : result ≠ -1 := by omega
    simp only [hpos, if_true, hsub, hne, if_false, i32_zero_iff, false_or, true_and]
    omega
  · by_cases hfail : result = -1
    · simp [hfail]
    · have hzero : result = 0 := by omega
      have hne : (0:ℤ) ≠ -1 := by omega
      simp only [hzero, lt_irrefl, hne, if_false, Int.toNat_zero, Nat.sub_zero, i32_zero_iff,
        false_or, true_and]
      omega

theorem service_spec (result : ℤ) (item new : QueueItem) (hw : item.pending < 2^64)
    (ho : Offered item.data result) (ha : item.status = .active)
    (h : serviceItem result item = .ok new) :
    new.pending = remaining item.data result ∧
      (new.status = .inactive ↔ Marked item.data result) := by
  obtain ⟨data,status⟩ := item
  obtain rfl : status = .active := ha
  have hmark : ∀ ret : ℤ,
      (if ret = 0 then QStatus.inactive else .active) = .inactive ↔ ret = 0 := by
    intro ret
    by_cases hr : ret = 0
    · simp [hr]
    · simp [hr]
  cases data with
  | bodyBuffer buf =>
    obtain ⟨⟨ret,buf'⟩,hf,rfl⟩ := Runs.map_ok h
    obtain ⟨hp,hm⟩ := body_service buf buf' result ret hw hf
    exact ⟨hp,(hmark ret).trans hm⟩
  | sendfile p =>
    obtain ⟨hp,hm⟩ := sendfile_service p result hw ho
    simp only [serviceItem, Except.ok.injEq] at h
    rw [← h]
    exact ⟨hp,(hmark _).trans hm⟩

def rest (pending : ℕ) (result : ℤ) : ℕ := if result = -1 then 0 else pending-result.toNat

/-- The condition on an item says that a marked one is complete. -/
theorem itemSafe_iff (item : QueueItem) (result : ℤ) (ho : Offered item.data result) :
    ItemSafe item.data result ↔
      (Marked item.data result →
        remaining item.data result = 0 ∧ rest item.pending result = 0) := by
  obtain ⟨data,status⟩ := item
  cases data with
  | bodyBuffer buf =>
    simp only [Offered, ItemSafe, Marked, remaining, rest, QueueItem.pending] at *
    by_cases hf : result = -1
    · simp only [hf, true_or, or_true, if_true, and_true, true_iff]
      intro hm
      have h1 : u32 (-1) ≠ 0 := by decide
      rw [if_pos (by omega)]
    · have hb := u32_accepted result (by omega)
      simp only [hf, if_false, false_or]
      constructor
      · intro hs hm
        have hall : buf.totalLen = u32 result := by omega
        exact ⟨by rw [if_pos (.inl hall)],by omega⟩
      · intro h
        by_cases hz : u32 result = 0
        · obtain ⟨h1,h2⟩ := h (by omega)
          left
          split_ifs at h1 <;> omega
        · by_cases h2 : buf.totalLen = 2*u32 result
          · obtain ⟨_,h3⟩ := h (by omega)
            omega
          · exact .inr ⟨hz,h2⟩
  | sendfile p =>
    simp only [Offered, ItemSafe, Marked, remaining, rest, QueueItem.pending] at *
    by_cases hf : result = -1
    · simp [hf]
    · simp only [hf, if_false, false_or, and_self]
      omega

/-- An item that accounts for nothing has been taken by the kernel, or its
write failed. -/
theorem remaining_rest (item : QueueItem) (result : ℤ) (ho : Offered item.data result)
    (hs : ItemSafe item.data result) (h : remaining item.data result = 0) :
    rest item.pending result = 0 := by
  obtain ⟨data,status⟩ := item
  cases data with
  | bodyBuffer buf =>
    simp only [Offered, ItemSafe, remaining, rest, QueueItem.pending] at *
    by_cases hf : result = -1
    · rw [if_pos hf]
    · have hb := u32_accepted result (by omega)
      rw [if_neg hf]
      split_ifs at h <;> omega
  | sendfile p => exact h

theorem dropWhile_skipped (done queue : List QueueItem) (hd : Skipped done) :
    (done++queue).dropWhile (fun item => item.status = .inactive) =
      queue.dropWhile (fun item => item.status = .inactive) := by
  induction done with
  | nil => rfl
  | cons item done ih =>
    have hi := hd item (by simp)
    rw [List.cons_append, List.dropWhile_cons_of_pos (by simpa using hi)]
    exact ih (fun x hx => hd x (by simp [hx]))

theorem unsent_skipped (result : ℤ) (done queue : List QueueItem) (hd : Skipped done) :
    unsent result (done++queue) = done.map QueueItem.pending++unsent result queue := by
  induction done with
  | nil => rfl
  | cons item done ih =>
    have hi := hd item (by simp)
    rw [List.cons_append, unsent, if_pos hi, ih (fun x hx => hd x (by simp [hx]))]
    rfl

theorem unsent_served (result : ℤ) (item : QueueItem) (queue : List QueueItem)
    (ha : item.status = .active) :
    unsent result (item::queue) =
      rest item.pending result::queue.map QueueItem.pending := by
  rw [unsent, if_neg (by simp [ha])]
  rfl

theorem total_zero_iff (queue : List QueueItem) :
    total queue = 0 ↔ ∀ n ∈ queue.map QueueItem.pending, n = 0 := by
  rw [total, List.sum_eq_zero_iff]

def answer (served : Option ℕ) (after : List QueueItem) : ℤ :=
  match served with
  | none => 0
  | some _ => i32 (queueLength after)

theorem flush_answer (t : Thread) (dr : ℕ) (result : ℤ) (f : Flushed) (served : Option ℕ)
    (after : List QueueItem)
    (hl : flushLoop result (t.requests dr).queueOut = .ok (served,after))
    (h : queueFlush t dr result = .ok f) :
    f.ret = answer served after ∧ (f.thread.requests dr).queueOut = after := by
  obtain ⟨after',hl',hcase⟩ := flush_cases t dr result f h
  obtain ⟨hserved,rfl⟩ : served = f.served ∧ after = after' := by
    simpa using hl.symm.trans hl'
  rcases hcase with ⟨hnone,hret,ht⟩ | ⟨hsome,hret,hreq,_⟩
  · rw [hnone] at hserved
    rw [hserved] at hl ⊢
    cases flushLoop_served result _ after none hl
    exact ⟨hret,by rw [ht]⟩
  · obtain ⟨i,hi⟩ := Option.ne_none_iff_exists'.mp hsome
    rw [hserved, hi]
    exact ⟨hret,by rw [hreq, setQueue_queue]⟩

/-- The statement about all threads, reduced to the loop over the queue. -/
theorem exact_iff_answer (queue after : List QueueItem) (result : ℤ) (served : Option ℕ)
    (hl : flushLoop result queue = .ok (served,after)) :
    FlushExact queue result ↔
      (0 < answer served after ↔ 0 < queueLength after) ∧ Completed result queue after ∧
        (answer served after ≤ 0 → AllSent result queue) := by
  constructor
  · intro h
    obtain ⟨f,hf⟩ : ∃ f, queueFlush ⟨fun _ => ⟨0,queue⟩,[0]⟩ 0 result = .ok f := by
      simp only [queueFlush, hl, Except.map]
      exact ⟨_,rfl⟩
    obtain ⟨hret,hafter⟩ := flush_answer _ 0 result f served after hl hf
    have hlength := h.length _ 0 f rfl hf
    have hcompleted := h.completed _ 0 f rfl hf
    rw [hafter] at hlength hcompleted
    rw [hret] at hlength
    refine ⟨hlength,hcompleted,?_⟩
    intro hle
    apply h.ended ⟨fun _ => ⟨0,queue⟩,[0]⟩ 0 0 0 ⟨setQueue f.thread 0 [],some 0,.owned⟩ rfl _ rfl
    have hnot : ¬0 < f.ret := by omega
    simp [writeCallback, hf, Except.map, hnot]
  · rintro ⟨hlength,hcompleted,hended⟩
    constructor
    · intro t dr f hq hf
      obtain ⟨hret,hafter⟩ := flush_answer t dr result f served after (by rw [hq, hl]) hf
      rw [hret, hafter]
      exact hlength
    · intro t dr f hq hf
      obtain ⟨_,hafter⟩ := flush_answer t dr result f served after (by rw [hq, hl]) hf
      rw [hafter]
      exact hcompleted
    · intro t dr sockfd endRet e hq he hend
      simp only [writeCallback] at he
      split at he
      · cases he
        cases hend
      · next x hx =>
        obtain ⟨f,hf,rfl⟩ := Runs.map_ok he
        by_cases hpos : 0 < f.ret
        · simp [hpos] at hend
        · simp only [hpos, if_false, Option.some.injEq] at hend
          subst hend
          obtain ⟨hret,_⟩ := flush_answer t x result f served after (by rw [hq, hl]) hf
          exact hended (by omega)

theorem exact_nothing (queue : List QueueItem) (result : ℤ) (hq : Skipped queue)
    (hl : flushLoop result queue = .ok (none,queue)) :
    FlushExact queue result ↔ FlushSafe queue result := by
  have hsafe : FlushSafe queue result ↔ total queue = 0 := by
    have hdrop := dropWhile_skipped queue [] hq
    rw [List.append_nil] at hdrop
    rw [FlushSafe, hdrop]
    rfl
  have hall : AllSent result queue ↔ total queue = 0 := by
    have hunsent := unsent_skipped result queue [] hq
    rw [List.append_nil, unsent, List.append_nil] at hunsent
    rw [AllSent, hunsent, total_zero_iff]
  rw [exact_iff_answer queue queue result none hl, hsafe, hall]
  constructor
  · rintro ⟨_,_,hended⟩
    exact hended le_rfl
  · intro hz
    refine ⟨?_,?_,fun _ => hz⟩
    · rw [queueLength_eq, hz]
      simp [answer]
    · intro i item new hi _ ha
      have := hq item (List.mem_of_getElem? hi)
      rw [ha] at this
      cases this

section Serving

variable {done rest' : List QueueItem} {item new : QueueItem} {result : ℤ}

theorem completed_served (ha : item.status = .active) (hd : Skipped done)
    (ho : Offered item.data result)
    (hn : new.pending = remaining item.data result ∧
      (new.status = .inactive ↔ Marked item.data result)) :
    Completed result (done++item::rest') (done++new::rest') ↔ ItemSafe item.data result := by
  have hunsent : (unsent result (done++item::rest'))[done.length]? =
      some (rest item.pending result) := by
    rw [unsent_skipped result done _ hd, unsent_served result item rest' ha]
    simp
  rw [itemSafe_iff item result ho]
  constructor
  · intro h hm
    obtain ⟨hp,hu⟩ := h done.length item new (by simp) (by simp) ha (hn.2.mpr hm)
    rw [hunsent, Option.some.injEq] at hu
    exact ⟨hn.1.symm.trans hp,hu⟩
  · intro h i x y hx hy hxa hyi
    by_cases hi : i = done.length
    · subst hi
      obtain rfl : item = x := by simpa using hx
      obtain rfl : new = y := by simpa using hy
      obtain ⟨hp,hu⟩ := h (hn.2.mp hyi)
      exact ⟨hn.1.trans hp,by rw [hunsent, hu]⟩
    · rw [replaced_elsewhere done rest' item new i hi, hx, Option.some.injEq] at hy
      rw [← hy, hxa] at hyi
      cases hyi

theorem allSent_served (ha : item.status = .active) (hd : Skipped done) :
    AllSent result (done++item::rest') ↔
      total done = 0 ∧ rest item.pending result = 0 ∧ total rest' = 0 := by
  rw [AllSent, unsent_skipped result done _ hd, unsent_served result item rest' ha,
    total_zero_iff, total_zero_iff]
  simp only [List.mem_append, List.mem_cons]
  constructor
  · intro h
    exact ⟨fun n hn => h n (.inl hn),h _ (.inr (.inl rfl)),fun n hn => h n (.inr (.inr hn))⟩
  · rintro ⟨h1,h2,h3⟩ n (hn | hn | hn)
    · exact h1 n hn
    · exact hn.trans h2
    · exact h3 n hn

theorem answer_iff (d m r e : ℕ) (hm : m < 2^64) (he : m = 0 → e = 0) :
    ((0 < i32 ((d+m+r) % 2^64 : ℕ) ↔ 0 < (d+m+r) % 2^64) ∧
        (i32 ((d+m+r) % 2^64 : ℕ) ≤ 0 → d = 0 ∧ e = 0 ∧ r = 0)) ↔ FitsInt (d+m+r) := by
  have hlow : (d+m+r) % 2^64 % 2^32 = (d+m+r) % 2^32 := Nat.mod_mod_of_dvd _ (by norm_num)
  have hsign := i32_pos_iff ((d+m+r) % 2^64)
  rw [hlow] at hsign
  rw [FitsInt, ← hsign, ← not_lt]
  constructor
  · rintro ⟨hlen,hsent⟩
    by_cases hpos : 0 < i32 ((d+m+r) % 2^64 : ℕ)
    · exact .inr hpos
    · obtain ⟨hd,_,hr⟩ := hsent hpos
      have hzero := hlen.not.mp hpos
      left
      omega
  · rintro (hz | hpos)
    · have hzero : (d+m+r) % 2^64 = 0 := by rw [hz, Nat.zero_mod]
      rw [hzero]
      refine ⟨by simp [i32, u32],fun _ => ⟨by omega,he (by omega),by omega⟩⟩
    · have hlen : 0 < (d+m+r) % 2^64 := by
        have := hsign.mp hpos
        omega
      exact ⟨iff_of_true hpos hlen,fun hnot => absurd hpos hnot⟩

theorem remaining_le : remaining item.data result ≤ item.pending := by
  obtain ⟨data,status⟩ := item
  cases data with
  | bodyBuffer buf =>
    simp only [remaining, QueueItem.pending]
    split_ifs <;> omega
  | sendfile p =>
    simp only [remaining, QueueItem.pending]
    split_ifs <;> omega

theorem total_served : total (done++item::rest') = total done+item.pending+total rest' := by
  simp [total, add_assoc]

end Serving

/-- For every queue and every result of the kernel: the answer of the flush
tells whether bytes are left, items end complete and the request is not
finished early, exactly under the condition on sizes and result. -/
theorem flush_exact_iff (queue : List QueueItem) (result : ℤ)
    (hw : ∀ item ∈ queue, item.pending < 2^64)
    (ho : ∀ item rest, queue.dropWhile (fun item => item.status = .inactive) = item::rest →
      Offered item.data result)
    (hr : ∃ x, flushLoop result queue = .ok x) :
    FlushExact queue result ↔ FlushSafe queue result := by
  obtain ⟨⟨served,after⟩,hl⟩ := hr
  cases flushLoop_served result queue after served hl with
  | nothing hq => exact exact_nothing queue result hq hl
  | item done item new rest' hq hd ha hs =>
    subst hq
    have hdrop : (done++item::rest').dropWhile (fun item => item.status = .inactive) =
        item::rest' := by
      rw [dropWhile_skipped done _ hd, List.dropWhile_cons_of_neg (by simp [ha])]
    have hoff := ho item rest' hdrop
    have hlt := hw item (by simp)
    have hnew := service_spec result item new hlt hoff ha hs
    have hrem : remaining item.data result < 2^64 := lt_of_le_of_lt remaining_le hlt
    have hsum : total done+item.pending+total rest'-item.pending+remaining item.data result =
        total done+remaining item.data result+total rest' := by omega
    rw [exact_iff_answer _ _ result _ hl, completed_served ha hd hoff hnew, allSent_served ha hd,
      FlushSafe, hdrop]
    simp only [answer, queueLength_eq, total_served, hnew.1, hsum]
    rw [and_left_comm]
    apply and_congr_right
    intro hsafe
    exact answer_iff _ _ _ _ hrem (remaining_rest item result hoff hsafe)

/-- A file of five bytes of which the kernel takes three. -/
theorem small_file_exact :
    ((∀ item ∈ [queueItemNew (.sendfile 5)], item.pending < 2^64) ∧
        ∃ x, flushLoop 3 [queueItemNew (.sendfile 5)] = .ok x) ∧
      (FlushExact [queueItemNew (.sendfile 5)] 3 ↔ FlushSafe [queueItemNew (.sendfile 5)] 3) := by
  have hw : ∀ item ∈ [queueItemNew (.sendfile 5)], item.pending < 2^64 := by
    intro item hi
    rw [List.mem_singleton.mp hi]
    decide
  have hr : ∃ x, flushLoop 3 [queueItemNew (.sendfile 5)] = .ok x := ⟨_,rfl⟩
  refine ⟨⟨hw,hr⟩,flush_exact_iff _ 3 hw ?_ hr⟩
  intro item rest h
  cases h
  exact .inr ⟨by decide,by decide,by decide⟩

/-- A file of `2^32+5` bytes of which the kernel takes five: the rest is
`2^32`, which is zero as an `int`. The item ends and the request is finished. -/
theorem large_file_ends_early :
    ∃ f, queueFlush ⟨fun _ => ⟨7,[queueItemNew (.sendfile (2^32+5))]⟩,[0]⟩ 0 5 = .ok f ∧
      f.ret = 0 ∧ (f.thread.requests 0).queueOut = [⟨.sendfile (2^32),.inactive⟩] ∧
      queueLength (f.thread.requests 0).queueOut = 2^32 ∧
      ¬FlushExact [queueItemNew (.sendfile (2^32+5))] 5 := by
  refine ⟨_,rfl,by decide,by decide,by decide,?_⟩
  intro h
  have hlength := h.length ⟨fun _ => ⟨7,[queueItemNew (.sendfile (2^32+5))]⟩,[0]⟩ 0 _ rfl rfl
  revert hlength
  decide

end Duda.QueueLength
