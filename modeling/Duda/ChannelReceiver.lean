import Duda.ChannelLinks

/-!
# Who receives from a channel

The history of a run remembers, for each channel, the dthread that was last
set as its receiver. A channel names that dthread for as long as it has not
returned, and the dthread lists the channel, provided that no receiver is set
while another one is still named. A send then finds the channel broken exactly
when it has no such dthread.
-/

set_option autoImplicit false

namespace Duda.ChannelReceiver
open Duda.Channel Duda.ChannelFifo Duda.ChannelLinks Duda.ChannelStep Duda.ControlPlace Duda.Runs
open Duda.SchedulerFrame Duda.SchedulerInvariant
open Duda.Scheduler hiding step

/-- The state with the dthread last set as the receiver of each channel. -/
structure Tracked where
  world : World
  target : ℕ → Option ℕ

def start : Tracked := ⟨initial,fun _ => none⟩

def retarget (s : Tracked) : Call → ℕ → Option ℕ
  | .setReceiver c r => Function.update s.target c (s.world.sched.dt r.toNat)
  | _ => s.target

def trackedStep (s : Tracked) (a : Call) : Except ChanFault Tracked :=
  (step s.world a).map (fun w => ⟨w,retarget s a⟩)

/-- A receiver was set, and its function has not returned. -/
def Receiving (s : Tracked) (c : ℕ) : Prop :=
  ∃ o, s.target c = some o ∧ ¬Finished s.world.sched o

/-- `duda_dthread_channel_send` returns `DTHREAD_CHANNEL_BROKEN`. -/
def SendBroken (w : World) (c v : ℕ) : Prop :=
  Channel.control w (.send c v) = .ok (w,.own .user)

/-- Membership in the lists of the dthreads with `P`, against the field. -/
def ListedWhere (P : Dthread Frame → Prop) (w : World) : Prop :=
  (∀ i o d c, At w.sched i o d → P d → (c ∈ d.chan_list ↔ recvOf w c = some (i:ℤ))) ∧
    ∀ c r, recvOf w c = some r → r ≠ -1 →
      ∃ i o d, r = (i:ℕ) ∧ At w.sched i o d ∧ P d ∧ c ∈ d.chan_list

def Unfinished (d : Dthread Frame) : Prop := d.status ≠ .dead

def ListedUnfinished (s : Tracked) : Prop := ListedWhere Unfinished s.world

def ListedAll (s : Tracked) : Prop := ListedWhere (fun _ => True) s.world

/-- What a step may do to the values of a channel, given its receiver. -/
structure BrokenExact (s : Tracked) (a : Call) (r : Except ChanFault Tracked) : Prop where
  answer : ∀ c v ch x, a = .send c v → s.world.chans c = some ch →
    Channel.control s.world a = .ok x → (SendBroken s.world c v ↔ ¬Receiving s c)
  silent : ∀ c v, a = .send c v → SendBroken s.world c v → r = .ok s
  accepted : ∀ t c, r = .ok t → t.world.accepted c ≠ s.world.accepted c → Receiving t c

/-- A receiver is set only for a channel that names none, and to a dthread
that has not returned. -/
def FreshReceiver (w : World) (a : Call) : Prop :=
  ∀ c r, a = .setReceiver c r →
    (∀ ch, w.chans c = some ch → ch.receiver = -1) ∧ isLive w.sched r.toNat = true

def ReturnsToParent (w : World) (a : Call) : Prop := a = .ret → ParentAlive w.sched

/-- Control is handed to a waiting send only while its channel has a receiver
that does not return by this very call. -/
def ReceiverWaits (w : World) (a : Call) : Prop :=
  ∀ c v ch, callPlace w a = some (.sendTail c v) → w.chans c = some ch →
    ch.receiver ≠ -1 ∧ (a = .ret → c ∉ chanList w.sched)

def Orderly (s : Tracked) (a : Call) : Prop :=
  FreshReceiver s.world a ∧ ReturnsToParent s.world a ∧ ReceiverWaits s.world a

/-- The step leaves no list of channels broken. -/
def ListsKept (r : Except ChanFault Tracked) : Prop := ∀ c, r ≠ .error (.badNode c)

/-- A dthread returns only when it is on the receiving end of no channel. -/
def ReturnsUnlisted (s : Tracked) (a : Call) : Prop := a = .ret → chanList s.world.sched = []

/-- The receiver fields after the first phase of a call. -/
def receivers (w : World) : Call → ℕ → Option ℤ
  | .ret => fun c => if c ∈ chanList w.sched then some (-1) else recvOf w c
  | .chanCreate _ => Function.update (recvOf w) w.next (some (-1))
  | .chanFree c => Function.update (recvOf w) c none
  | .setReceiver c r => Function.update (recvOf w) c (some r)
  | _ => recvOf w

def nextChan (w : World) : Call → ℕ
  | .chanCreate _ => w.next+1
  | _ => w.next

variable (w u : World) (s : Tracked) (a : Call) (t : Sched Frame) (c v : ℕ) (n : Next)

theorem recvOf_update (w' : World) (c : ℕ) (o : Option Chan)
    (h : w'.chans = Function.update w.chans c o) :
    recvOf w' = Function.update (recvOf w) c (o.map Chan.receiver) := by
  ext1 x
  by_cases hx : x = c
  · simp [recvOf, h, hx]
  · simp [recvOf, h, hx]

theorem recvOf_set (w' : World) (c : ℕ) (ch ch' : Chan) (hc : w.chans c = some ch)
    (h : w'.chans = Function.update w.chans c (some ch')) (hr : ch'.receiver = ch.receiver) :
    recvOf w' = recvOf w := by
  have hw : recvOf w c = some ch'.receiver := by rw [recvOf, hc, Option.map_some, hr]
  rw [recvOf_update w w' c _ h, Option.map_some, ← hw, Function.update_eq_self]

/-- The second phase of a call leaves the ends of all channels alone. -/
theorem continueAt_recv (t : World) (k : Frame) (h : continueAt w k = .ok t) :
    t.sched = w.sched ∧ t.next = w.next ∧ recvOf t = recvOf w := by
  cases k with
  | user =>
    cases h
    exact ⟨rfl,rfl,rfl⟩
  | sendTail c v =>
    obtain ⟨ch,hc,rfl⟩ := getChan_map w c _ t h
    exact ⟨rfl,rfl,recvOf_set w _ c ch _ hc rfl rfl⟩
  | recvTail c =>
    obtain ⟨ch,hc,h⟩ := getChan_bind w c _ t h
    cases hb : ch.bufs with
    | nil => simp [hb] at h
    | cons v bufs =>
      simp only [hb, Except.ok.injEq] at h
      rw [← h]
      exact ⟨rfl,rfl,recvOf_set w _ c ch _ hc rfl rfl⟩

theorem goOn_recv (t : World) (n : Next) (h : goOn w n = .ok t) :
    t.sched = w.sched ∧ t.next = w.next ∧ recvOf t = recvOf w := by
  cases n with
  | entered k =>
    cases k with
    | none =>
      cases h
      exact ⟨rfl,rfl,rfl⟩
    | some k => exact continueAt_recv w t k h
  | own k => exact continueAt_recv w t k h

theorem closeReceivers_recv (cs : List ℕ) (w t : World) (h : closeReceivers w cs = .ok t) :
    t.sched = w.sched ∧ t.next = w.next ∧
      recvOf t = fun c => if c ∈ cs then some (-1) else recvOf w c := by
  induction cs generalizing w with
  | nil =>
    cases h
    exact ⟨rfl,rfl,by simp⟩
  | cons c cs ih =>
    obtain ⟨ch,hc,h⟩ := getChan_bind w c _ t h
    obtain ⟨hs,hn,hr⟩ := ih _ h
    refine ⟨hs,hn,?_⟩
    have hset := recvOf_update w (setChan w c { ch with receiver := -1 }) c _ rfl
    rw [hr]
    ext1 x
    by_cases hx : x = c
    · simp [hset, hx]
    · simp [hset, hx]

theorem lift_inv (r : Except Fault (Sched Frame × Option Frame)) (h : lift w r = .ok (u,n)) :
    ∃ s k, r = .ok (s,k) ∧ u = { w with sched := s } := by
  cases r with
  | error f => simp [lift] at h
  | ok p =>
    cases h
    exact ⟨p.1,p.2,rfl,rfl⟩

theorem send_inv (h : transfer w (.send c v) = .ok (u,n)) :
    u = w ∨ ∃ id k s k', dthreadResume w.sched id k = .ok (s,k') ∧ u = { w with sched := s } := by
  obtain ⟨ch,hc,h⟩ := getChan_bind w c _ _ h
  split_ifs at h with hr hf
  · cases h
    exact .inl rfl
  · obtain ⟨s,k,hs,hu⟩ := lift_inv w u n _ h
    exact .inr ⟨_,_,s,k,hs,hu⟩
  · cases h
    exact .inl rfl

theorem recv_inv (h : transfer w (.recv c) = .ok (u,n)) :
    u = w ∨ ∃ id k s k', dthreadResume w.sched id k = .ok (s,k') ∧ u = { w with sched := s } := by
  obtain ⟨ch,hc,h⟩ := getChan_bind w c _ _ h
  split_ifs at h with hd hu
  · obtain ⟨s,k,hs,hu⟩ := lift_inv w u n _ h
    exact .inr ⟨_,_,s,k,hs,hu⟩
  · cases h
    exact .inl rfl

/-- Calls that may leave the scheduler as it is. -/
def Still (w : World) : Call → Prop
  | .chanCreate _ => True
  | .setSender _ _ => True
  | .chanEnd _ => True
  | .send _ _ => True
  | .recv _ => True
  | .chanFree c => recvOf w c = some (-1)
  | _ => False

/-- Calls that may resume a dthread. -/
def Resumes : Call → Prop
  | .resume _ => True
  | .send _ _ => True
  | .recv _ => True
  | _ => False

/-- The scheduler after the first phase of a call. -/
inductive Scheduled (w : World) : Call → Sched Frame → Prop where
  | same (a : Call) (ha : Still w a) : Scheduled w a w.sched
  | create (s : Sched Frame) (id : ℕ) (h : dthreadCreate w.sched = .ok (s,id)) :
      Scheduled w .create s
  | resume (a : Call) (ha : Resumes a) (id : ℤ) (k : Frame) (s : Sched Frame) (r : Option Frame)
      (h : dthreadResume w.sched id k = .ok (s,r)) : Scheduled w a s
  | yield (s : Sched Frame) (r : Option Frame) (h : dthreadYield w.sched .user = .ok (s,r)) :
      Scheduled w .yield s
  | ret (s : Sched Frame) (r : Option Frame) (h : entryReturn w.sched = .ok (s,r)) :
      Scheduled w .ret s
  | unlink (c o : ℕ) (r : ℤ) (d : Dthread Frame) (hr : recvOf w c = some r) (hne : r ≠ -1)
      (hd : At w.sched r.toNat o d) :
      Scheduled w (.chanFree c) (relist w.sched (fun x l => if x = o then l.erase c else l))
  | listed (c o : ℕ) (r : ℤ) (d : Dthread Frame) (hr : recvOf w c = some (-1)) (h0 : 0 ≤ r)
      (hd : At w.sched r.toNat o d) :
      Scheduled w (.setReceiver c r) (relist w.sched (fun x l => if x = o then l++[c] else l))

theorem listAt_inv (s : Sched Frame) (r : ℤ) (o : ℕ) (l : List ℕ) (h : listAt s r = some (o,l)) :
    ∃ d, At s r.toNat o d ∧ d.chan_list = l := by
  obtain ⟨x,hx,h⟩ := Option.bind_eq_some_iff.mp h
  obtain ⟨d,hd,h⟩ := Option.map_eq_some_iff.mp h
  cases h
  exact ⟨d,⟨hx,hd⟩,rfl⟩

theorem listAt_at (s : Sched Frame) (r : ℤ) (o : ℕ) (d : Dthread Frame)
    (h : At s r.toNat o d) : listAt s r = some (o,d.chan_list) := by
  simp only [listAt, h.1, h.2, Option.bind_some, Option.map_some]

theorem setList_inv (s t : Sched Frame) (o : ℕ) (f : List ℕ → List ℕ)
    (h : setList s o f = .ok t) : t = relist s (fun x l => if x = o then f l else l) := by
  simp only [setList] at h
  split at h
  · cases h
  · next u hu =>
    cases h
    obtain ⟨d,hd,rfl⟩ := modifyDt_inv s t o _ hu
    simp only [relist, Sched.mk.injEq, true_and, and_true]
    ext1 x
    by_cases hx : x = o
    · simp [hx, hd]
    · simp [hx]

theorem unlink_inv (ch : Chan) (h : unlink w c ch = .ok t) :
    ∃ o d, At w.sched ch.receiver.toNat o d ∧
      t = relist w.sched (fun x l => if x = o then l.erase c else l) := by
  simp only [unlink] at h
  split at h
  · cases h
  · next o l hl =>
    split_ifs at h
    obtain ⟨d,hd,_⟩ := listAt_inv _ _ o l hl
    exact ⟨o,d,hd,setList_inv _ t o _ h⟩

theorem addChannel_inv (r : ℤ) (c : ℕ) (ch : Chan) (h : addChannel w r c ch = .ok t) :
    ∃ o d, ch.receiver = -1 ∧ 0 ≤ r ∧ At w.sched r.toNat o d ∧
      t = relist w.sched (fun x l => if x = o then l++[c] else l) := by
  simp only [addChannel] at h
  split_ifs at h with hr
  split at h
  · cases h
  · next o l hl =>
    split_ifs at h with hfree
    obtain ⟨d,hd,_⟩ := listAt_inv _ _ o l hl
    exact ⟨o,d,hfree.1,hr.1,hd,setList_inv _ t o _ h⟩

theorem resumed_shape (ha : Resumes a)
    (h : u = w ∨ ∃ id k s k', dthreadResume w.sched id k = .ok (s,k') ∧ u = { w with sched := s })
    (hs : Still w a) : Scheduled w a u.sched ∧ u.next = w.next ∧ recvOf u = recvOf w := by
  rcases h with rfl | ⟨id,k,s,k',hr,rfl⟩
  · exact ⟨.same a hs,rfl,rfl⟩
  · exact ⟨.resume a ha id k s k' hr,rfl,rfl⟩

theorem transfer_shape (h : transfer w a = .ok (u,n)) :
    Scheduled w a u.sched ∧ u.next = nextChan w a ∧ recvOf u = receivers w a := by
  cases a with
  | create =>
    simp only [transfer] at h
    split at h
    · cases h
    · next s id hs =>
      cases h
      exact ⟨.create s id hs,rfl,rfl⟩
  | resume id =>
    obtain ⟨s,k,hs,rfl⟩ := lift_inv w u n _ h
    exact ⟨.resume (.resume id) trivial id _ s k hs,rfl,rfl⟩
  | yield =>
    obtain ⟨s,k,hs,rfl⟩ := lift_inv w u n _ h
    exact ⟨.yield s k hs,rfl,rfl⟩
  | ret =>
    obtain ⟨v,hv,h⟩ := bind_ok h
    obtain ⟨hsched,hnext,hrecv⟩ := closeReceivers_recv _ w v hv
    obtain ⟨s,k,hs,rfl⟩ := lift_inv v u n _ h
    rw [hsched] at hs
    exact ⟨.ret s k hs,hnext,hrecv⟩
  | chanCreate size =>
    cases h
    exact ⟨.same _ trivial,rfl,recvOf_update w _ w.next (some (newChan size)) rfl⟩
  | chanFree c =>
    obtain ⟨ch,t,hc,ht,rfl,_⟩ := chanFree_inv w u c n h
    have hrecv : recvOf w c = some ch.receiver := by rw [recvOf, hc, Option.map_some]
    refine ⟨?_,rfl,recvOf_update w _ c none rfl⟩
    split_ifs at ht with hr
    · cases ht
      exact .same _ (hrecv.trans (congrArg some hr))
    · obtain ⟨o,d,hd,rfl⟩ := unlink_inv w t c ch ht
      exact .unlink c o ch.receiver d hrecv hr hd
  | setSender c sender =>
    obtain ⟨ch,hc,h⟩ := getChan_map w c _ _ h
    cases h
    exact ⟨.same _ trivial,rfl,recvOf_set w _ c ch _ hc rfl rfl⟩
  | setReceiver c r =>
    obtain ⟨ch,t,hc,ht,rfl,_⟩ := setReceiver_inv w u c r n h
    obtain ⟨o,d,hr,h0,hd,rfl⟩ := addChannel_inv w t r c ch ht
    have hrecv : recvOf w c = some (-1) := by rw [recvOf, hc, Option.map_some, hr]
    exact ⟨.listed c o r d hrecv h0 hd,rfl,recvOf_update w _ c
      (some { ch with receiver := r }) rfl⟩
  | chanEnd c =>
    obtain ⟨ch,hc,h⟩ := getChan_map w c _ _ h
    cases h
    exact ⟨.same _ trivial,rfl,recvOf_set w _ c ch _ hc rfl rfl⟩
  | send c v => exact resumed_shape w u _ trivial (send_inv w u c v n h) trivial
  | recv c => exact resumed_shape w u _ trivial (recv_inv w u c n h) trivial

/-- The invariant of a run. -/
def Tied (s : Tracked) : Prop :=
  Links s.world.sched (recvOf s.world) s.target s.world.next

theorem chanList_at (s : Sched Frame) (o : ℕ) (d : Dthread Frame) (hc : s.cur = .dthread o)
    (hd : s.heap o = some d) : chanList s = d.chan_list := by
  simp only [chanList, hc, hd]

theorem isLive_unfinished (s : Sched Frame) (i o : ℕ) (d : Dthread Frame) (hat : At s i o d)
    (h : isLive s i = true) : d.status ≠ .dead := by
  rw [isLive_at s i o d hat] at h
  simpa using h

theorem scheduled_links (hi : Tied s) (hg : FreshReceiver s.world a ∧ ReturnsToParent s.world a)
    (h : Scheduled s.world a t) :
    Links t (receivers s.world a) (retarget s a) (nextChan s.world a) := by
  cases h with
  | same _ ha =>
    cases a with
    | chanCreate size => exact links_new hi
    | chanFree c => exact links_drop hi c ha
    | setSender c r => exact hi
    | chanEnd c => exact hi
    | send c v => exact hi
    | recv c => exact hi
    | create => cases ha
    | resume id => cases ha
    | yield => cases ha
    | ret => cases ha
    | setReceiver c r => cases ha
  | create _ id h => exact links_create hi id (create_created _ t id hi.sched.base h)
  | resume _ ha id k _ r h =>
    have hl := links_carry hi (resume_carries _ id k t r hi.sched h)
      (resume_keeps _ id k t r hi.sched h)
    cases a with
    | resume id => exact hl
    | send c v => exact hl
    | recv c => exact hl
    | chanCreate size => cases ha
    | chanFree c => cases ha
    | setSender c r => cases ha
    | chanEnd c => cases ha
    | create => cases ha
    | yield => cases ha
    | ret => cases ha
    | setReceiver c r => cases ha
  | yield _ r h =>
    exact links_carry hi (yield_carries _ _ t r hi.sched h) (yield_keeps _ _ t r hi.sched h)
  | ret _ r h =>
    obtain ⟨o,hc⟩ := return_current _ t r h
    obtain ⟨i,d,_,hat,he⟩ := current_at _ o hi.sched hc
    have hl := links_return hi i o d r hc hat he h (return_keeps _ t r hi.sched (hg.2 rfl) h)
    rwa [← chanList_at _ o d hc hat.2] at hl
  | unlink c o r d hr hne hd =>
    obtain ⟨i,_,_,rfl,_⟩ := hi.named c r hr hne
    exact links_unlink hi c i o d hd hr
  | listed c o r d hr h0 hd =>
    have hlive := (hg.1 c r rfl).2
    have hl := links_receiver hi c r.toNat o d hd (isLive_unfinished _ _ o d hd hlive) hr
    rw [Int.toNat_of_nonneg h0, ← hd.1] at hl
    exact hl

theorem step_shape (t : Tracked) (a : Call) (h : trackedStep s a = .ok t) :
    Scheduled s.world a t.world.sched ∧ t.world.next = nextChan s.world a ∧
      recvOf t.world = receivers s.world a ∧ t.target = retarget s a := by
  obtain ⟨w,hw,rfl⟩ := map_ok h
  obtain ⟨⟨u,n⟩,hctl,hgo⟩ := bind_ok hw
  obtain ⟨hsched,hnext,hrecv⟩ := transfer_shape _ u a n (control_transfer _ a _ hctl)
  obtain ⟨hs,hn,hr⟩ := goOn_recv u w n hgo
  exact ⟨hs ▸ hsched,hn.trans hnext,hr.trans hrecv,rfl⟩

theorem step_tied (t : Tracked) (a : Call) (hi : Tied s)
    (hg : FreshReceiver s.world a ∧ ReturnsToParent s.world a) (h : trackedStep s a = .ok t) :
    Tied t := by
  obtain ⟨hsched,hnext,hrecv,htarget⟩ := step_shape s t a h
  rw [Tied, hnext, hrecv, htarget]
  exact scheduled_links s a _ hi hg hsched

theorem listed_of_tied (hi : Tied s) : ListedUnfinished s := by
  constructor
  · intro i o d c hat halive
    exact hi.member i o d c hat halive
  · intro c r hr hne
    obtain ⟨i,o,d,rfl,hat,halive,_⟩ := hi.named c r hr hne
    exact ⟨i,o,d,rfl,hat,halive,(hi.member i o d c hat halive).mpr hr⟩

theorem receiving_iff (r : ℤ) (hi : Tied s) (hr : recvOf s.world c = some r) :
    Receiving s c ↔ r ≠ -1 := by
  constructor
  · rintro ⟨o,ho,hnot⟩ rfl
    exact hnot (hi.broken c o hr ho)
  · intro hne
    obtain ⟨i,o,d,_,hat,halive,ho⟩ := hi.named c r hr hne
    exact ⟨o,ho,fun hf => halive (hf d hat.2)⟩

theorem sendBroken_iff (ch : Chan) (x : World × Next) (hc : w.chans c = some ch)
    (hctl : Channel.control w (.send c v) = .ok x) : SendBroken w c v ↔ ch.receiver = -1 := by
  have htr := control_transfer w _ x hctl
  rw [SendBroken, hctl, Except.ok.injEq]
  simp only [transfer, getChan, hc, Except.bind] at htr
  split_ifs at htr with hr hf
  · cases htr
    simp [hr]
  · refine iff_of_false ?_ hr
    rintro rfl
    exact lift_own w w _ _ htr
  · cases htr
    simp [hr]

theorem sendBroken_silent (h : SendBroken s.world c v) : trackedStep s (.send c v) = .ok s := by
  rw [SendBroken] at h
  simp only [trackedStep, step, h, Except.bind, goOn, continueAt, Except.map, retarget]

/-- The call that enqueues leaves the receiver of the channel alone, unless
the receiver returns by it. -/
theorem enqueues_receiver (h : Enqueues w a c v) (hret : a = .ret → c ∉ chanList w.sched) :
    receivers w a c = recvOf w c := by
  cases a with
  | ret => exact if_neg (hret rfl)
  | chanCreate size => rcases h with h | ⟨h,_⟩ <;> cases h
  | chanFree x => rcases h with h | ⟨h,_⟩ <;> cases h
  | setReceiver x r => rcases h with h | ⟨h,_⟩ <;> cases h
  | create => rfl
  | resume id => rfl
  | yield => rfl
  | setSender x r => rfl
  | chanEnd x => rfl
  | send x u => rfl
  | recv x => rfl

theorem enqueues_waits (ch : Chan) (h : Enqueues w a c v) (hc : w.chans c = some ch)
    (hg : ReceiverWaits w a) : ch.receiver ≠ -1 ∧ (a = .ret → c ∉ chanList w.sched) := by
  rcases h with hp | ⟨rfl,e,he,hr,_⟩
  · exact hg c v ch hp hc
  · obtain rfl : e = ch := Option.some.inj (he.symm.trans hc)
    exact ⟨hr,fun h => by cases h⟩

theorem accepted_receiving (t : Tracked) (a : Call) (c : ℕ) (hf : ChannelFifo.Inv s.world)
    (ht : Tied t) (hg : ReceiverWaits s.world a) (h : trackedStep s a = .ok t)
    (hne : t.world.accepted c ≠ s.world.accepted c) : Receiving t c := by
  obtain ⟨_,_,hrecv,_⟩ := step_shape s t a h
  obtain ⟨w,hw,rfl⟩ := map_ok h
  cases step_change s.world w a hf hw with
  | keep _ ha => exact absurd (congrFun ha c) hne
  | create _ _ ha => exact absurd (congrFun ha c) hne
  | free _ _ ha => exact absurd (congrFun ha c) hne
  | finish _ _ _ _ _ ha => exact absurd (congrFun ha c) hne
  | dequeue _ _ _ _ _ _ _ ha => exact absurd (congrFun ha c) hne
  | enqueue x v ch he hc _ ha _ =>
    have hx : c = x := by
      by_contra hx
      apply hne
      simp only [ha, Function.update_of_ne hx]
    subst hx
    obtain ⟨hr,hret⟩ := enqueues_waits s.world a c v ch he hc hg
    have hnow : recvOf w c = some ch.receiver := by
      rw [hrecv, enqueues_receiver s.world a c v he hret, recvOf, hc, Option.map_some]
    exact (receiving_iff _ c _ ht hnow).mpr hr

theorem step_broken (hf : ChannelFifo.Inv s.world) (hi : Tied s) (hg : Orderly s a) :
    BrokenExact s a (trackedStep s a) := by
  constructor
  · rintro c v ch x rfl hc hctl
    have hr : recvOf s.world c = some ch.receiver := by rw [recvOf, hc, Option.map_some]
    rw [sendBroken_iff s.world c v ch x hc hctl, receiving_iff s c _ hi hr, not_not]
  · rintro c v rfl h
    exact sendBroken_silent s c v h
  · intro t c h hne
    obtain ⟨hfresh,hparent,hwaits⟩ := hg
    exact accepted_receiving s t a c hf (step_tied s t a hi ⟨hfresh,hparent⟩ h) hwaits h hne

theorem addChannel_kept (x : ℕ) (r : ℤ) (ch : Chan) (hi : Tied s)
    (hg : FreshReceiver s.world (.setReceiver c r)) (hc : s.world.chans c = some ch) :
    addChannel s.world r c ch ≠ .error (.badNode x) := by
  intro h
  obtain ⟨hfree,hlive⟩ := hg c r rfl
  simp only [addChannel] at h
  split_ifs at h with hr
  · split at h
    · cases h
    · next o l hl =>
      obtain ⟨d,hd,rfl⟩ := listAt_inv _ _ o l hl
      have halive := isLive_unfinished _ _ o d hd hlive
      have hintact : intact s.world r d.chan_list = true := by
        rw [intact, List.all_eq_true]
        intro y hy
        have hy := (hi.member r.toNat o d y hd halive).mp hy
        rw [Int.toNat_of_nonneg hr.1, recvOf, Option.map_eq_some_iff] at hy
        obtain ⟨cy,hcy,hry⟩ := hy
        simp [hcy, hry]
      rw [if_pos ⟨hfree ch hc,hintact⟩] at h
      exact (setList_ordinary _ _ _ _ h).2 x rfl
  · cases h

theorem unlink_kept (x : ℕ) (ch : Chan) (hi : Tied s) (hc : s.world.chans c = some ch)
    (hne : ch.receiver ≠ -1) : unlink s.world c ch ≠ .error (.badNode x) := by
  intro h
  have hrecv : recvOf s.world c = some ch.receiver := by rw [recvOf, hc, Option.map_some]
  obtain ⟨i,o,d,hri,hd,halive,_⟩ := hi.named c _ hrecv hne
  have hmem : c ∈ d.chan_list := (hi.member i o d c hd halive).mpr (hrecv.trans (by rw [hri]))
  have hat : At s.world.sched ch.receiver.toNat o d := by rwa [hri]
  simp only [unlink, listAt_at _ _ o d hat, List.contains_iff_mem, hmem, if_true] at h
  exact (setList_ordinary _ _ _ _ h).2 x rfl

theorem continueAt_kept (k : Frame) (x : ℕ) : continueAt w k ≠ .error (.badNode x) := by
  intro h
  cases k with
  | user => cases h
  | sendTail c v => exact (getChan_ordinary w c _ (map_error h)).2 x rfl
  | recvTail c =>
    rcases bind_error h with hx | ⟨ch,_,hx⟩
    · exact (getChan_ordinary w c _ hx).2 x rfl
    · split at hx <;> cases hx

theorem goOn_kept (x : ℕ) : goOn w n ≠ .error (.badNode x) := by
  cases n with
  | entered k =>
    cases k with
    | none => simp [goOn]
    | some k => exact continueAt_kept w k x
  | own k => exact continueAt_kept w k x

theorem step_lists (hi : Tied s) (hg : FreshReceiver s.world a) : ListsKept (trackedStep s a) := by
  intro x h
  rcases bind_error (map_error h) with hx | ⟨⟨u,n⟩,_,hx⟩
  · simp only [Channel.control] at hx
    split at hx
    · cases hx
    · rcases transfer_fault _ a _ hx with hp | ⟨c,ch,_,hc,hne,hx⟩ | ⟨c,r,ch,rfl,hc,hx⟩
      · exact hp.2 x rfl
      · exact unlink_kept s c x ch hi hc hne hx
      · exact addChannel_kept s c x r ch hi hg hc hx
  · exact goOn_kept u n x hx

/-- No dthread that has returned lists a channel. -/
def Emptied (s : Sched Frame) : Prop :=
  ∀ i o d, At s i o d → d.status = .dead → d.chan_list = []

theorem emptied_carry (s t : Sched Frame) (he : Emptied s) (h : Carries s t) : Emptied t := by
  intro i o e hat hdead
  obtain ⟨d,hd,hlist,hstatus⟩ := h.back i o e hat
  rw [← hlist]
  exact he i o d hd (hstatus.mpr hdead)

theorem scheduled_emptied (hi : SchedulerInvariant.Inv w.sched) (he : Emptied w.sched)
    (hfresh : FreshReceiver w a) (hret : a = .ret → chanList w.sched = []) (h : Scheduled w a t) :
    Emptied t := by
  cases h with
  | same _ ha => exact he
  | create _ id h =>
    intro i o d hat hdead
    have hc := create_created _ t id hi.base h
    rcases (created_at _ t id hi.base hc i o d).mp hat with ⟨_,_,rfl⟩ | ⟨_,hat⟩
    · rfl
    · exact he i o d hat hdead
  | resume _ ha id k _ r h => exact emptied_carry _ t he (resume_carries _ id k t r hi h)
  | yield _ r h => exact emptied_carry _ t he (yield_carries _ _ t r hi h)
  | ret _ r h =>
    obtain ⟨o,hc⟩ := return_current _ t r h
    obtain ⟨i,d,_,hat,_⟩ := current_at _ o hi hc
    have hnil := (chanList_at _ o d hc hat.2).symm.trans (hret rfl)
    intro j x e hj hdead
    obtain ⟨hslot,⟨_,rfl⟩ | ⟨_,hheap⟩⟩ := (return_at _ t o d r hc hat.2 h j x e).mp hj
    · exact hnil
    · exact he j x e ⟨hslot,hheap⟩ hdead
  | unlink c o r d hr hne hd =>
    intro j x e hat hdead
    obtain ⟨f,hf,rfl⟩ := (relist_at _ _ j x e).mp hat
    simp only [he j x f hf hdead, List.erase_nil, ite_self]
  | listed c o r d hr h0 hd =>
    have halive := isLive_unfinished _ _ o d hd (hfresh c r rfl).2
    intro j x e hj hdead
    obtain ⟨f,hf,rfl⟩ := (relist_at _ _ j x e).mp hj
    have hx : x ≠ o := by
      rintro rfl
      obtain rfl : d = f := Option.some.inj (hd.2.symm.trans hf.2)
      exact halive hdead
    simp only [if_neg hx]
    exact he j x f hf hdead

theorem listedAll_of_tied (hi : Tied s) (he : Emptied s.world.sched) : ListedAll s := by
  constructor
  · intro i o d c hat _
    by_cases hdead : d.status = .dead
    · rw [he i o d hat hdead]
      refine iff_of_false List.not_mem_nil ?_
      intro hr
      obtain ⟨j,x,e,hij,hj,halive,_⟩ := hi.named c i hr (by omega)
      obtain rfl : i = j := by omega
      obtain rfl : o = x := Option.some.inj (hat.1.symm.trans hj.1)
      obtain rfl : d = e := Option.some.inj (hat.2.symm.trans hj.2)
      exact halive hdead
    · exact hi.member i o d c hat hdead
  · intro c r hr hne
    obtain ⟨i,o,d,hri,hat,_,hc⟩ := (listed_of_tied s hi).2 c r hr hne
    exact ⟨i,o,d,hri,hat,trivial,hc⟩

theorem start_tied : Tied start := by
  have hempty : ∀ i o d, ¬At start.world.sched i o d := by
    intro i o d hat
    cases hat.1
  refine ⟨open_inv,?_,?_,?_,?_,?_,fun c _ => ⟨rfl,rfl⟩⟩
  · intro i o d c hat
    exact absurd hat (hempty i o d)
  · intro i o d hat
    exact absurd hat (hempty i o d)
  · intro c r hr
    cases hr
  · intro c o hr
    cases hr
  · intro c o ho
    cases ho

theorem step_keeps_fifo (t : Tracked) (a : Call) (hf : ChannelFifo.Inv s.world)
    (h : trackedStep s a = .ok t) : ChannelFifo.Inv t.world := by
  obtain ⟨w,hw,rfl⟩ := map_ok h
  exact step_keeps s.world w a hf hw

theorem orderly_keeps (t : Tracked) (a : Call) (hi : ChannelFifo.Inv s.world ∧ Tied s)
    (hg : Orderly s a) (h : trackedStep s a = .ok t) : ChannelFifo.Inv t.world ∧ Tied t :=
  ⟨step_keeps_fifo s t a hi.1 h,step_tied s t a hi.2 ⟨hg.1,hg.2.1⟩ h⟩

theorem unlisted_keeps (t : Tracked) (a : Call) (hi : Tied s ∧ Emptied s.world.sched)
    (hg : Orderly s a ∧ ReturnsUnlisted s a) (h : trackedStep s a = .ok t) :
    Tied t ∧ Emptied t.world.sched := by
  obtain ⟨⟨hfresh,hparent,_⟩,hunlisted⟩ := hg
  exact ⟨step_tied s t a hi.1 ⟨hfresh,hparent⟩ h,
    scheduled_emptied s.world a _ hi.1.sched hi.2 hfresh hunlisted (step_shape s t a h).1⟩

theorem start_emptied : Emptied start.world.sched := by
  intro i o d hat
  cases hat.1

/-- In an orderly run no list is broken, the lists of the unfinished dthreads
and the receiver fields agree, and a send is broken exactly without a receiver.
When moreover no receiver returns, the lists of all dthreads agree with the
fields. -/
theorem receiver_links_exact (as : List Call) :
    (Along trackedStep (fun s a _ => Orderly s a) as start →
      Along trackedStep (fun s a r => ListsKept r ∧ After ListedUnfinished s a r ∧
        BrokenExact s a r) as start) ∧
    (Along trackedStep (fun s a _ => Orderly s a ∧ ReturnsUnlisted s a) as start →
      Along trackedStep (After ListedAll) as start) := by
  constructor
  · apply along_of_invariant (I := fun s => ChannelFifo.Inv s.world ∧ Tied s)
      (fun s a t hi hg h => orderly_keeps s t a hi hg h) _ as start
      ⟨initial_inv,start_tied⟩
    intro s a hi hg
    refine ⟨step_lists s a hi.2 hg.1,?_,step_broken s a hi.1 hi.2 hg⟩
    intro t h
    exact listed_of_tied t (orderly_keeps s t a hi hg h).2
  · apply along_of_invariant (I := fun s => Tied s ∧ Emptied s.world.sched)
      (fun s a t hi hg h => unlisted_keeps s t a hi hg h) _ as start
      ⟨start_tied,start_emptied⟩
    intro s a hi hg t h
    obtain ⟨ht,he⟩ := unlisted_keeps s t a hi hg h
    exact listedAll_of_tied t ht he

/-- A second receiver takes the channel's only node while the list of the first
still runs through it. A receiver that a send on a full channel has started
returns at once: the value is enqueued for a dthread that has finished, and that
dthread keeps the channel on its list. -/
theorem receiver_replaced_or_gone :
    run step [.chanCreate 0,.create,.create,.setReceiver 0 0,.setReceiver 0 1] initial =
      .error (.badNode 0) ∧
    Yields (run step [.chanCreate 0,.create,.create,.setReceiver 0 1,.resume 0,.send 0 7,.send 0 8,
        .ret] initial)
      (fun w => (w.chans 0).map Chan.receiver = some (-1) ∧ w.accepted 0 = [7,8] ∧
        (w.sched.heap 1).map Dthread.status = some .dead ∧
        (w.sched.heap 1).map Dthread.chan_list = some [0]) := by
  constructor
  · rfl
  · decide

end Duda.ChannelReceiver
