import Duda.BodyBuffer
import Mathlib.Data.List.Nodup

/-!
# The output queue of a request

A flush hands one item of the queue to the kernel, the first that is not yet
inactive, and then keeps the request on the write-event list of the thread for
as long as the queue has bytes to send. The result of the kernel is an input.
Several requests share the list.
-/

set_option autoImplicit false

namespace Duda.Queue
open Duda.BodyBuffer Duda.MachineInt Duda.Runs

inductive QStatus where
  | active
  | inactive
  deriving DecidableEq, Repr

/-- What `data` points to, by the type of the item. Of `struct duda_sendfile`
only the accounting is kept. -/
inductive QData where
  | bodyBuffer (buf : MkIov)
  | sendfile (pendingBytes : ℕ)
  deriving DecidableEq, Repr

structure QueueItem where
  data : QData
  status : QStatus
  deriving DecidableEq, Repr

structure Request where
  socket : ℤ
  queueOut : List QueueItem
  deriving DecidableEq, Repr

/-- The requests of a thread, and its list of those that wait for the socket
to become writable. -/
structure Thread where
  requests : ℕ → Request
  eventsWrite : List ℕ

def queueItemNew (data : QData) : QueueItem := ⟨data,.active⟩

def queueAdd (item : QueueItem) (queue : List QueueItem) : List QueueItem := queue++[item]

def QueueItem.pending (item : QueueItem) : ℕ :=
  match item.data with
  | .bodyBuffer buf => buf.totalLen
  | .sendfile pendingBytes => pendingBytes

/-- `duda_queue_length`: the sum wraps at 64 bits. -/
def queueLength (queue : List QueueItem) : ℕ :=
  queue.foldl (fun length item => u64 (length+item.pending)) 0

/-- `duda_sendfile_flush` for the given result of `socket_send_file`. -/
def sendfileFlush (bytes : ℤ) (pendingBytes : ℕ) : ℤ × ℕ :=
  if 0 < bytes then (i32 (u64 (pendingBytes-bytes)),u64 (pendingBytes-bytes))
  else if bytes = -1 then (0,0)
  else (i32 pendingBytes,pendingBytes)

/-- The item handed to the kernel: its flush and the mark of completion. -/
def serviceItem (result : ℤ) (item : QueueItem) : Except Fault QueueItem :=
  let mark (ret : ℤ) : QStatus := if ret = 0 then .inactive else item.status
  match item.data with
  | .bodyBuffer buf =>
    (bodyBufferFlush result buf).map (fun (ret,buf) => ⟨.bodyBuffer buf,mark ret⟩)
  | .sendfile pendingBytes =>
    let (ret,pendingBytes) := sendfileFlush result pendingBytes
    .ok ⟨.sendfile pendingBytes,mark ret⟩

/-- The loop of `duda_queue_flush` up to its `break`, with the position of the
item that it hands to the kernel. -/
def flushLoop (result : ℤ) : List QueueItem → Except Fault (Option ℕ × List QueueItem)
  | [] => .ok (none,[])
  | item::queue =>
    if item.status = .inactive then
      (flushLoop result queue).map (fun (served,queue) => (served.map (·+1),item::queue))
    else (serviceItem result item).map (fun item => (some 0,item::queue))

def isRegisteredWrite (t : Thread) (dr : ℕ) : Bool := t.eventsWrite.contains dr

def registerWrite (t : Thread) (dr : ℕ) : Thread := { t with eventsWrite := t.eventsWrite++[dr] }

def unregisterWrite (t : Thread) (dr : ℕ) : Thread :=
  { t with eventsWrite := t.eventsWrite.erase dr }

def setQueue (t : Thread) (dr : ℕ) (queue : List QueueItem) : Thread :=
  { t with requests := Function.update t.requests dr { t.requests dr with queueOut := queue } }

structure Flushed where
  ret : ℤ
  served : Option ℕ
  thread : Thread

/-- `duda_queue_flush`; the length is returned through an `int`. -/
def queueFlush (t : Thread) (dr : ℕ) (result : ℤ) : Except Fault Flushed :=
  (flushLoop result (t.requests dr).queueOut).map (fun (served,queue) =>
    match served with
    | none => ⟨0,none,t⟩
    | some i =>
      let t := setQueue t dr queue
      let queueLen := queueLength queue
      if 0 < queueLen ∧ isRegisteredWrite t dr = false then ⟨i32 queueLen,some i,registerWrite t dr⟩
      else if queueLen = 0 ∧ isRegisteredWrite t dr = true then
        ⟨i32 queueLen,some i,unregisterWrite t dr⟩
      else ⟨i32 queueLen,some i,t⟩)

inductive EventReturn where
  | owned
  | close
  | continue
  deriving DecidableEq, Repr

structure WriteEvent where
  thread : Thread
  ended : Option ℕ
  ret : EventReturn

/-- `duda_queue_event_write_callback`, with the value that `duda_service_end`
returns; the latter frees the queue of its request. -/
def writeCallback (t : Thread) (sockfd result endRet : ℤ) : Except Fault WriteEvent :=
  match t.eventsWrite.find? (fun dr => (t.requests dr).socket = sockfd) with
  | none => .ok ⟨t,none,.continue⟩
  | some dr =>
    (queueFlush t dr result).map (fun f =>
      if 0 < f.ret then ⟨f.thread,none,.owned⟩
      else ⟨setQueue f.thread dr [],some dr,if endRet = -1 then .close else .owned⟩)

def total (queue : List QueueItem) : ℕ := (queue.map QueueItem.pending).sum

theorem queueLength_from (queue : List QueueItem) (n : ℕ) :
    queue.foldl (fun length item => u64 (length+item.pending)) (n % 2^64) =
      (n+total queue) % 2^64 := by
  induction queue generalizing n with
  | nil => simp [total]
  | cons item queue ih =>
    have hstep : u64 ((n % 2^64 : ℕ)+(item.pending : ℕ)) = (n+item.pending) % 2^64 := by
      simp only [u64]
      omega
    rw [List.foldl_cons, hstep, ih]
    simp [total, add_assoc]

theorem queueLength_eq (queue : List QueueItem) : queueLength queue = total queue % 2^64 := by
  have h := queueLength_from queue 0
  rw [Nat.zero_mod, zero_add] at h
  exact h

def Skipped (queue : List QueueItem) : Prop := ∀ item ∈ queue, item.status = .inactive

/-- A flush serves the first item that is not inactive, and no other. -/
inductive Served (result : ℤ) (queue : List QueueItem) :
    Option ℕ → List QueueItem → Prop where
  | nothing (hq : Skipped queue) : Served result queue none queue
  | item (done : List QueueItem) (item new : QueueItem) (rest : List QueueItem)
      (hq : queue = done++item::rest) (hd : Skipped done) (ha : item.status = .active)
      (hs : serviceItem result item = .ok new) :
      Served result queue (some done.length) (done++new::rest)

theorem flushLoop_served (result : ℤ) (queue after : List QueueItem) (served : Option ℕ)
    (h : flushLoop result queue = .ok (served,after)) : Served result queue served after := by
  induction queue generalizing served after with
  | nil =>
    cases h
    exact .nothing (fun item hi => by cases hi)
  | cons item queue ih =>
    simp only [flushLoop] at h
    split_ifs at h with hi
    · obtain ⟨⟨i,q⟩,hl,he⟩ := map_ok h
      cases he
      cases ih q i hl with
      | nothing hq =>
        apply Served.nothing
        intro x hx
        rcases List.mem_cons.mp hx with rfl | hx
        · exact hi
        · exact hq x hx
      | item done x new rest hq hd ha hs =>
        apply Served.item (item::done) x new rest (by rw [hq]; rfl) _ ha hs
        intro y hy
        rcases List.mem_cons.mp hy with rfl | hy
        · exact hi
        · exact hd y hy
    · obtain ⟨new,hs,he⟩ := map_ok h
      cases he
      have ha : item.status = .active := by
        cases hst : item.status with
        | active => rfl
        | inactive => exact absurd hst hi
      exact .item [] item new queue rfl (fun x hx => by cases hx) ha hs

/-- The three cases of a flush after the loop. -/
theorem flush_cases (t : Thread) (dr : ℕ) (result : ℤ) (f : Flushed)
    (h : queueFlush t dr result = .ok f) :
    ∃ after, flushLoop result (t.requests dr).queueOut = .ok (f.served,after) ∧
      ((f.served = none ∧ f.ret = 0 ∧ f.thread = t) ∨
        (f.served ≠ none ∧ f.ret = i32 (queueLength after) ∧
          f.thread.requests = (setQueue t dr after).requests ∧
          f.thread.eventsWrite =
            if 0 < queueLength after then
              if dr ∈ t.eventsWrite then t.eventsWrite else t.eventsWrite++[dr]
            else t.eventsWrite.erase dr)) := by
  obtain ⟨⟨served,after⟩,hl,he⟩ := map_ok h
  refine ⟨after,?_⟩
  cases served with
  | none =>
    cases he
    exact ⟨hl,.inl ⟨rfl,rfl,rfl⟩⟩
  | some i =>
    simp only [isRegisteredWrite, setQueue] at he
    by_cases hm : dr ∈ t.eventsWrite
    · by_cases hpos : 0 < queueLength after
      · have hne : queueLength after ≠ 0 := by omega
        simp only [hm, hpos, hne, List.contains_eq_mem, decide_true, Bool.true_eq_false, and_false,
          false_and, if_false] at he
        rw [← he]
        exact ⟨hl,.inr ⟨by simp,rfl,rfl,by simp [hpos, hm]⟩⟩
      · have hz : queueLength after = 0 := by omega
        simp only [hm, hz, List.contains_eq_mem, decide_true, Bool.true_eq_false, lt_irrefl,
          and_self, if_false, if_true] at he
        rw [← he]
        exact ⟨hl,.inr ⟨by simp,by simp [hz],rfl,by simp [hz, unregisterWrite]⟩⟩
    · by_cases hpos : 0 < queueLength after
      · simp only [hm, hpos, List.contains_eq_mem, decide_false, and_self, if_true] at he
        rw [← he]
        exact ⟨hl,.inr ⟨by simp,rfl,rfl,by simp [hpos, hm, registerWrite]⟩⟩
      · simp only [hm, hpos, List.contains_eq_mem, decide_false, Bool.false_eq_true, and_false,
          false_and, if_false] at he
        rw [← he]
        exact ⟨hl,.inr ⟨by simp,rfl,rfl,by simp [hpos, List.erase_of_not_mem hm]⟩⟩

inductive Action where
  | add (dr : ℕ) (data : QData)
  | flush (dr : ℕ) (result : ℤ)

def step (t : Thread) : Action → Except Fault Thread
  | .add dr data => .ok (setQueue t dr (queueAdd (queueItemNew data) (t.requests dr).queueOut))
  | .flush dr result => (queueFlush t dr result).map Flushed.thread

/-- A thread whose requests have nothing to send yet. -/
def start (socket : ℕ → ℤ) : Thread := ⟨fun dr => ⟨socket dr,[]⟩,[]⟩

/-- What a flush that served the item `i` did. -/
structure InOrder (before after : List QueueItem) (i : ℕ) : Prop where
  served : ∃ item, before[i]? = some item ∧ item.status = .active
  earlier : ∀ j item, j < i → before[j]? = some item → item.status = .inactive
  others : ∀ j, j ≠ i → after[j]? = before[j]?

/-- A flush serves one item in the order of the queue or leaves everything as
it is, and the request waits for the socket once, or not at all. -/
def FlushOrderly (t : Thread) (a : Action) (_ : Except Fault Thread) : Prop :=
  ∀ dr result f, a = .flush dr result → queueFlush t dr result = .ok f →
    (f.served = none → f.thread = t) ∧
    ∀ i, f.served = some i →
      InOrder (t.requests dr).queueOut (f.thread.requests dr).queueOut i ∧
      f.thread.eventsWrite.count dr =
        if 0 < queueLength (f.thread.requests dr).queueOut then 1 else 0

theorem setQueue_queue (t : Thread) (dr : ℕ) (queue : List QueueItem) :
    ((setQueue t dr queue).requests dr).queueOut = queue := by
  simp [setQueue]

theorem replaced_elsewhere (done rest : List QueueItem) (item new : QueueItem) (i : ℕ)
    (h : i ≠ done.length) : (done++new::rest)[i]? = (done++item::rest)[i]? := by
  rcases Nat.lt_or_gt_of_ne h with hlt | hgt
  · rw [List.getElem?_append_left hlt, List.getElem?_append_left hlt]
  · obtain ⟨k,rfl⟩ := Nat.exists_eq_add_of_lt hgt
    rw [List.getElem?_append_right (by omega), List.getElem?_append_right (by omega),
      show done.length+k+1-done.length = k+1 by omega, List.getElem?_cons_succ,
      List.getElem?_cons_succ]

theorem served_inOrder (result : ℤ) (before after : List QueueItem) (i : ℕ)
    (h : Served result before (some i) after) : InOrder before after i := by
  cases h with
  | item done item new rest hq hd ha hs =>
    subst hq
    constructor
    · exact ⟨item,by simp,ha⟩
    · intro j x hj hx
      rw [List.getElem?_append_left hj] at hx
      exact hd x (List.mem_of_getElem? hx)
    · intro j hj
      exact replaced_elsewhere done rest item new j hj

theorem events_count (events : List ℕ) (dr len : ℕ) (hn : events.Nodup) :
    (if 0 < len then if dr ∈ events then events else events++[dr]
      else events.erase dr).count dr = if 0 < len then 1 else 0 := by
  by_cases hl : 0 < len
  · rw [if_pos hl, if_pos hl]
    by_cases hm : dr ∈ events
    · rw [if_pos hm]
      exact List.count_eq_one_of_mem hn hm
    · rw [if_neg hm, List.count_append, List.count_eq_zero_of_not_mem hm]
      simp
  · rw [if_neg hl, if_neg hl]
    exact List.count_eq_zero_of_not_mem hn.not_mem_erase

theorem events_nodup (events : List ℕ) (dr len : ℕ) (hn : events.Nodup) :
    (if 0 < len then if dr ∈ events then events else events++[dr]
      else events.erase dr).Nodup := by
  split_ifs with hl hm
  · exact hn
  · rw [← List.concat_eq_append]
    exact hn.concat hm
  · exact hn.erase dr

theorem flush_orderly (t : Thread) (a : Action) (hn : t.eventsWrite.Nodup)
    (r : Except Fault Thread) : FlushOrderly t a r := by
  intro dr result f _ h
  obtain ⟨after,hl,⟨hnone,_,ht⟩ | ⟨hne,_,hreq,hev⟩⟩ := flush_cases t dr result f h
  · refine ⟨fun _ => ht,?_⟩
    intro i hi
    rw [hnone] at hi
    cases hi
  · have hqueue : (f.thread.requests dr).queueOut = after := by
      rw [hreq, setQueue_queue]
    constructor
    · intro hnone
      exact absurd hnone hne
    · intro i hi
      have hs := flushLoop_served result _ after _ hl
      rw [hi] at hs
      rw [hqueue, hev]
      exact ⟨served_inOrder result _ after i hs,events_count t.eventsWrite dr _ hn⟩

theorem step_nodup (t t' : Thread) (a : Action) (hn : t.eventsWrite.Nodup)
    (h : step t a = .ok t') : t'.eventsWrite.Nodup := by
  cases a with
  | add dr data =>
    cases h
    exact hn
  | flush dr result =>
    obtain ⟨f,hf,rfl⟩ := map_ok h
    obtain ⟨after,_,⟨_,_,ht⟩ | ⟨_,_,_,hev⟩⟩ := flush_cases t dr result f hf
    · rw [ht]
      exact hn
    · rw [hev]
      exact events_nodup t.eventsWrite dr _ hn

/-- Whatever is enqueued and whatever the kernel accepts, every flush serves
the items in their order and keeps the event list exact. -/
theorem queue_flushes_in_order (socket : ℕ → ℤ) (as : List Action) :
    Along step FlushOrderly as (start socket) := by
  apply along_of_kept (I := fun t => t.eventsWrite.Nodup) _ _ as (start socket) List.nodup_nil
  · intro t a t' hn h
    exact step_nodup t t' a hn h
  · intro t a hn
    exact flush_orderly t a hn _

end Duda.Queue
