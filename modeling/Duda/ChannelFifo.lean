import Duda.Channel
import Duda.ControlPlace

/-!
# The order of values in a channel

Whatever the scheduler does, a channel's queue is what its sends accepted and
its receives have not returned yet. The only step that breaks a channel is one
that goes on in a waiting receive while the queue is empty.
-/

set_option autoImplicit false

namespace Duda.ChannelFifo
open Duda.Channel Duda.ControlPlace Duda.Runs
open Duda.Scheduler hiding step

/-- The counter is the length of the queue, and the values received so far and
the queued ones are the accepted ones, in order. -/
def Fifo (w : World) : Prop :=
  (∀ c, w.received c <+: w.accepted c) ∧
    ∀ c ch, w.chans c = some ch → ch.used = ch.bufs.length ∧
      w.accepted c = w.received c++ch.bufs

structure Inv (w : World) : Prop where
  fifo : Fifo w
  fresh : ∀ c, w.next ≤ c → w.chans c = none ∧ w.accepted c = [] ∧ w.received c = []

/-- No receive takes an element from an empty queue, and the order is kept. -/
def Sound (_ : World) (_ : Call) (r : Except ChanFault World) : Prop :=
  (∀ c, r ≠ .error (.emptyRecv c)) ∧ ∀ t, r = .ok t → Fifo t

/-- The place that a call hands control to, for the calls that go through the
scheduler. -/
def callPlace (w : World) : Call → Option Frame
  | .resume id => resumePlace w.sched id .user
  | .yield => savedPlace w.sched.main
  | .ret => returnPlace w.sched
  | .send c v =>
    match w.chans c with
    | none => none
    | some ch =>
      if ch.receiver ≠ -1 ∧ ch.used = ch.size then
        resumePlace w.sched ch.receiver (.sendTail c v)
      else none
  | .recv c =>
    match w.chans c with
    | none => none
    | some ch => if ch.used = 0 then resumePlace w.sched ch.sender (.recvTail c) else none
  | _ => none

/-- A call hands control to a waiting receive only if its channel has an
element. -/
def WaitsForData (w : World) (a : Call) : Prop :=
  ∀ c ch, callPlace w a = some (.recvTail c) → w.chans c = some ch → ch.bufs ≠ []

/-- The condition `g` on the state before a call, required where control is
handed over without a fault. -/
def Transferred (g : World → Call → Prop) : World → Call → Except ChanFault World → Prop :=
  fun w a _ => ∀ x, Channel.control w a = .ok x → g w a

theorem initial_inv : Inv initial := by
  refine ⟨⟨fun c => List.nil_prefix,?_⟩,fun c _ => ⟨rfl,rfl,rfl⟩⟩
  intro c ch h
  cases h

variable (w t : World) (s : Sched Frame) (w' : World) (a : Call) (c : ℕ) (n : Next)

theorem fresh_ne (hi : Inv w) (c x : ℕ) (ch : Chan) (h : w.chans c = some ch) (hx : w.next ≤ x) :
    x ≠ c := by
  intro he
  have := (hi.fresh x hx).1
  rw [he, h] at this
  cases this

theorem inv_write (ch ch' : Chan) (accepted received : List ℕ) (hi : Inv w)
    (h : w.chans c = some ch) (hu : ch'.used = ch'.bufs.length)
    (ha : accepted = received++ch'.bufs) :
    Inv { w with
      sched := s
      chans := Function.update w.chans c (some ch')
      accepted := Function.update w.accepted c accepted
      received := Function.update w.received c received } := by
  refine ⟨⟨?_,?_⟩,?_⟩
  · intro x
    by_cases hx : x = c
    · subst hx
      simp [ha]
    · simpa [hx] using hi.fifo.1 x
  · intro x e hx
    by_cases hxc : x = c
    · subst hxc
      simp only [Function.update_self, Option.some.injEq] at hx
      simp [← hx, hu, ha]
    · simp only [Function.update_of_ne hxc] at hx
      simpa [hxc] using hi.fifo.2 x e hx
  · intro x hx
    have hne := fresh_ne w hi c x ch h hx
    simpa [hne] using hi.fresh x hx

theorem inv_setChan (ch ch' : Chan) (hi : Inv w) (h : w.chans c = some ch)
    (hb : ch'.bufs = ch.bufs) (hu : ch'.used = ch.used) :
    Inv { setChan w c ch' with sched := s } := by
  obtain ⟨hused,ha⟩ := hi.fifo.2 c ch h
  have hw := inv_write w s c ch ch' (w.accepted c) (w.received c) hi h (by rw [hu, hb, hused])
    (by rw [hb, ha])
  rw [Function.update_eq_self, Function.update_eq_self] at hw
  exact hw

theorem inv_sched (hi : Inv w) : Inv { w with sched := s } :=
  ⟨hi.fifo,hi.fresh⟩

theorem inv_create (size : ℤ) (hi : Inv w) :
    Inv { w with
      chans := Function.update w.chans w.next (some ⟨size+1,0,[],-1,-1,false,false⟩)
      next := w.next+1 } := by
  refine ⟨⟨hi.fifo.1,?_⟩,?_⟩
  · intro x e hx
    by_cases hxn : x = w.next
    · subst hxn
      obtain ⟨_,ha,hr⟩ := hi.fresh w.next le_rfl
      simp only [Function.update_self, Option.some.injEq] at hx
      simp [← hx, ha, hr]
    · simp only [Function.update_of_ne hxn] at hx
      exact hi.fifo.2 x e hx
  · intro x hx
    have hx' : w.next+1 ≤ x := hx
    have hne : x ≠ w.next := by omega
    simpa [hne] using hi.fresh x (by omega)

theorem inv_free (hi : Inv w) :
    Inv { w with chans := Function.update w.chans c none, sched := s } := by
  refine ⟨⟨hi.fifo.1,?_⟩,?_⟩
  · intro x e hx
    by_cases hxc : x = c
    · subst hxc
      simp at hx
    · simp only [Function.update_of_ne hxc] at hx
      exact hi.fifo.2 x e hx
  · intro x hx
    obtain ⟨hc,har⟩ := hi.fresh x hx
    refine ⟨?_,har⟩
    by_cases hxc : x = c
    · simp [hxc]
    · simp [hxc, hc]

theorem getChan_ok (ch : Chan) (h : getChan w c = .ok ch) : w.chans c = some ch := by
  cases hc : w.chans c with
  | none => simp [getChan, hc] at h
  | some e => simpa [getChan, hc] using h

theorem getChan_map {β : Type} (w : World) (c : ℕ) (f : Chan → β) (r : β)
    (h : (getChan w c).map f = .ok r) : ∃ ch, w.chans c = some ch ∧ f ch = r := by
  obtain ⟨ch,hc,he⟩ := map_ok h
  exact ⟨ch,getChan_ok w c ch hc,he⟩

theorem getChan_bind {β : Type} (w : World) (c : ℕ) (f : Chan → Except ChanFault β) (r : β)
    (h : (getChan w c).bind f = .ok r) : ∃ ch, w.chans c = some ch ∧ f ch = .ok r := by
  obtain ⟨ch,hc,he⟩ := bind_ok h
  exact ⟨ch,getChan_ok w c ch hc,he⟩

theorem sendTail_keeps (v : ℕ) (hi : Inv w) (h : sendTail w c v = .ok t) : Inv t := by
  obtain ⟨ch,hc,rfl⟩ := getChan_map w c _ t h
  obtain ⟨hu,ha⟩ := hi.fifo.2 c ch hc
  have hw := inv_write w w.sched c ch { ch with bufs := ch.bufs++[v], used := ch.used+1 }
    (w.accepted c++[v]) (w.received c) hi hc (by simp [hu]) (by simp [ha])
  rw [Function.update_eq_self] at hw
  exact hw

theorem recvTail_keeps (hi : Inv w) (h : recvTail w c = .ok t) : Inv t := by
  obtain ⟨ch,hc,he⟩ := getChan_bind w c _ t h
  obtain ⟨hu,ha⟩ := hi.fifo.2 c ch hc
  cases hb : ch.bufs with
  | nil => simp [hb] at he
  | cons v bufs =>
    simp only [hb, Except.ok.injEq] at he
    rw [hb] at hu ha
    have hw := inv_write w w.sched c ch { ch with
        bufs := bufs
        used := ch.used-1
        done := if ch.used-1 = 0 ∧ ch.ended then true else ch.done }
      (w.accepted c) (w.received c++[v]) hi hc (by simp [hu]) (by simp [ha])
    rw [Function.update_eq_self] at hw
    rw [← he]
    exact hw

/-- The queues of all channels are the same in both states. -/
def SameQueues (w w' : World) : Prop :=
  ∀ c, (w'.chans c).map Chan.bufs = (w.chans c).map Chan.bufs

theorem closeReceivers_keeps (cs : List ℕ) (w t : World) (hi : Inv w)
    (h : closeReceivers w cs = .ok t) : Inv t ∧ t.sched = w.sched ∧ SameQueues w t := by
  induction cs generalizing w with
  | nil =>
    cases h
    exact ⟨hi,rfl,fun c => rfl⟩
  | cons c cs ih =>
    obtain ⟨ch,hc,h⟩ := getChan_bind w c _ t h
    obtain ⟨ht,hs,hq⟩ :=
      ih _ (inv_setChan w w.sched c ch { ch with receiver := -1 } hi hc rfl rfl) h
    refine ⟨ht,hs,fun x => (hq x).trans ?_⟩
    by_cases hx : x = c
    · simp [setChan, hx, hc]
    · simp [setChan, hx]

/-- Control was handed to the place of the call, or the call goes on by itself
and does not take from an empty queue. -/
def Reaches (w w' : World) (a : Call) (n : Next) : Prop :=
  (n = .entered (callPlace w a) ∧ SameQueues w w') ∨
    (callPlace w a = none ∧ ∃ k, n = .own k ∧
      ∀ c ch, k = .recvTail c → w'.chans c = some ch → ch.bufs ≠ [])

theorem reaches_user (h : callPlace w a = none) : Reaches w w' a (.own .user) :=
  .inr ⟨h,.user,rfl,fun _ _ hk => by cases hk⟩

theorem lift_reaches (u : World) (a : Call) (n : Next)
    (r : Except Fault (Sched Frame × Option Frame)) (hi : Inv u) (hq : SameQueues w u)
    (hp : ∀ s k, r = .ok (s,k) → k = callPlace w a) (h : lift u r = .ok (w',n)) :
    Inv w' ∧ Reaches w w' a n := by
  cases r with
  | error f => simp [lift] at h
  | ok p =>
    obtain ⟨s,k⟩ := p
    cases h
    exact ⟨inv_sched u s hi,.inl ⟨by rw [hp s k rfl],hq⟩⟩

theorem send_reaches (v : ℕ) (n : Next) (hi : Inv w) (h : transfer w (.send c v) = .ok (w',n)) :
    Inv w' ∧ Reaches w w' (.send c v) n := by
  obtain ⟨ch,hc,he⟩ := getChan_bind w c _ _ h
  split_ifs at he with hr hf
  · cases he
    exact ⟨hi,reaches_user _ _ _ (by simp [callPlace, hc, hr])⟩
  · apply lift_reaches w w' w _ n _ hi (fun c => rfl) _ he
    intro s k hk
    simpa [callPlace, hc, hr, hf] using resume_place _ s _ _ k hk
  · cases he
    exact ⟨hi,.inr ⟨by simp [callPlace, hc, hf],_,rfl,fun _ _ hk => by cases hk⟩⟩

theorem recv_reaches (hi : Inv w) (h : transfer w (.recv c) = .ok (w',n)) :
    Inv w' ∧ Reaches w w' (.recv c) n := by
  obtain ⟨ch,hc,he⟩ := getChan_bind w c _ _ h
  split_ifs at he with hd hu
  · apply lift_reaches w w' w _ n _ hi (fun c => rfl) _ he
    intro s k hk
    simpa [callPlace, hc, hu] using resume_place _ s _ _ k hk
  · cases he
    refine ⟨hi,.inr ⟨by simp [callPlace, hc, hu],_,rfl,?_⟩⟩
    intro x e hx he hb
    cases hx
    rw [hc] at he
    cases he
    apply hu
    rw [(hi.fifo.2 c ch hc).1, hb]
    rfl

theorem chanFree_inv (h : transfer w (.chanFree c) = .ok (w',n)) :
    ∃ ch s, w.chans c = some ch ∧
      (if ch.receiver = -1 then .ok w.sched else unlink w c ch) = .ok s ∧
      w' = { w with chans := Function.update w.chans c none, sched := s } ∧ n = .own .user := by
  obtain ⟨ch,hc,h⟩ := getChan_bind w c _ _ h
  obtain ⟨s,hs,h⟩ := map_ok h
  cases h
  exact ⟨ch,s,hc,hs,rfl,rfl⟩

theorem setReceiver_inv (r : ℤ) (n : Next) (h : transfer w (.setReceiver c r) = .ok (w',n)) :
    ∃ ch s, w.chans c = some ch ∧ addChannel w r c ch = .ok s ∧
      w' = { setChan w c { ch with receiver := r } with sched := s } ∧ n = .own .user := by
  obtain ⟨ch,hc,h⟩ := getChan_bind w c _ _ h
  obtain ⟨s,hs,h⟩ := map_ok h
  cases h
  exact ⟨ch,s,hc,hs,rfl,rfl⟩

/-- The first phase of a call changes no queue of a channel that stays, and
control goes where the state before the call says. -/
theorem transfer_reaches (hi : Inv w) (h : transfer w a = .ok (w',n)) :
    Inv w' ∧ Reaches w w' a n := by
  have hq : SameQueues w w := fun c => rfl
  cases a with
  | create =>
    simp only [transfer] at h
    split at h
    · cases h
    · cases h
      exact ⟨inv_sched w _ hi,reaches_user _ _ _ rfl⟩
  | resume id => exact lift_reaches w w' w _ n _ hi hq (fun s k hk => resume_place _ s _ _ k hk) h
  | yield => exact lift_reaches w w' w _ n _ hi hq (fun s k hk => yield_place _ s _ k hk) h
  | ret =>
    obtain ⟨u,hu,h⟩ := bind_ok h
    obtain ⟨hiu,hs,hqu⟩ := closeReceivers_keeps _ w u hi hu
    rw [hs] at h
    exact lift_reaches w w' u _ n _ hiu hqu (fun s k hk => return_place _ s k hk) h
  | chanCreate size =>
    cases h
    exact ⟨inv_create w size hi,reaches_user _ _ _ rfl⟩
  | chanFree c =>
    obtain ⟨_,s,_,_,rfl,rfl⟩ := chanFree_inv w w' c n h
    exact ⟨inv_free w s c hi,reaches_user _ _ _ rfl⟩
  | setSender c sender =>
    obtain ⟨ch,hc,he⟩ := getChan_map w c _ _ h
    cases he
    exact ⟨inv_setChan w w.sched c ch _ hi hc rfl rfl,reaches_user _ _ _ rfl⟩
  | setReceiver c receiver =>
    obtain ⟨ch,s,hc,_,rfl,rfl⟩ := setReceiver_inv w w' c receiver n h
    exact ⟨inv_setChan w s c ch _ hi hc rfl rfl,reaches_user _ _ _ rfl⟩
  | chanEnd c =>
    obtain ⟨ch,hc,he⟩ := getChan_map w c _ _ h
    cases he
    exact ⟨inv_setChan w w.sched c ch _ hi hc rfl rfl,reaches_user _ _ _ rfl⟩
  | send c v => exact send_reaches w w' c v n hi h
  | recv c => exact recv_reaches w w' c n hi h

theorem control_reaches (hi : Inv w) (h : Channel.control w a = .ok (w',n)) :
    Inv w' ∧ Reaches w w' a n := by
  simp only [Channel.control] at h
  split at h
  · cases h
  · exact transfer_reaches w w' a n hi h

theorem continueAt_keeps (k : Frame) (hi : Inv w) (h : continueAt w k = .ok t) : Inv t := by
  cases k with
  | user =>
    cases h
    exact hi
  | sendTail c v => exact sendTail_keeps w t c v hi h
  | recvTail c => exact recvTail_keeps w t c hi h

theorem goOn_keeps (hi : Inv w) (h : goOn w n = .ok t) : Inv t := by
  cases n with
  | entered k =>
    cases k with
    | none =>
      cases h
      exact hi
    | some k => exact continueAt_keeps w t k hi h
  | own k => exact continueAt_keeps w t k hi h

/-- The step lemma: every call that returns keeps the order of all channels. -/
theorem step_keeps (hi : Inv w) (h : step w a = .ok t) : Inv t := by
  obtain ⟨⟨w',n⟩,hc,h⟩ := bind_ok h
  exact goOn_keeps w' t n (control_reaches w w' a n hi hc).1 h

theorem getChan_error (e : ChanFault) (h : getChan w c = .error e) : e = .freed c := by
  cases hc : w.chans c with
  | none =>
    simp only [getChan, hc, Except.error.injEq] at h
    exact h.symm
  | some ch => simp [getChan, hc] at h

theorem recvTail_empty (x : ℕ) :
    recvTail w c = .error (.emptyRecv x) ↔ x = c ∧ (w.chans c).map Chan.bufs = some [] := by
  cases hc : w.chans c with
  | none => simp [recvTail, getChan, hc, Except.bind]
  | some ch =>
    cases hb : ch.bufs with
    | nil => simp [recvTail, getChan, hc, hb, Except.bind, eq_comm]
    | cons v bufs => simp [recvTail, getChan, hc, hb, Except.bind]

theorem continueAt_empty (k : Frame) (c : ℕ) :
    continueAt w k = .error (.emptyRecv c) ↔
      k = .recvTail c ∧ (w.chans c).map Chan.bufs = some [] := by
  cases k with
  | user => simp [continueAt]
  | sendTail x v =>
    cases hx : w.chans x <;> simp [continueAt, sendTail, getChan, hx, Except.map]
  | recvTail x =>
    simp only [continueAt, recvTail_empty, Frame.recvTail.injEq]
    constructor
    · rintro ⟨rfl,hb⟩
      exact ⟨rfl,hb⟩
    · rintro ⟨rfl,hb⟩
      exact ⟨rfl,hb⟩

/-- A fault that is neither a receive from an empty queue nor a broken list. -/
def Ordinary (e : ChanFault) : Prop := (∀ c, e ≠ .emptyRecv c) ∧ ∀ c, e ≠ .badNode c

theorem sched_ordinary (f : Fault) : Ordinary (.sched f) := ⟨fun _ => by simp,fun _ => by simp⟩

theorem getChan_ordinary (e : ChanFault) (h : getChan w c = .error e) : Ordinary e := by
  rw [getChan_error w c e h]
  exact ⟨fun _ => by simp,fun _ => by simp⟩

theorem lift_ordinary (r : Except Fault (Sched Frame × Option Frame)) (e : ChanFault)
    (h : lift w r = .error e) : Ordinary e := by
  cases r with
  | error f =>
    cases h
    exact sched_ordinary f
  | ok p => cases h

theorem closeReceivers_ordinary (cs : List ℕ) (w : World) (e : ChanFault)
    (h : closeReceivers w cs = .error e) : Ordinary e := by
  induction cs generalizing w with
  | nil => cases h
  | cons x cs ih =>
    rcases bind_error h with hx | ⟨ch,_,hx⟩
    · exact getChan_ordinary w x e hx
    · exact ih _ hx

theorem setList_ordinary (o : ℕ) (f : List ℕ → List ℕ) (e : ChanFault)
    (h : setList s o f = .error e) : Ordinary e := by
  simp only [setList] at h
  split at h
  · cases h
    exact sched_ordinary _
  · cases h

/-- The faults of the first phase of a call: only the two operations on the
lists of channels break one. -/
theorem transfer_fault (e : ChanFault) (h : transfer w a = .error e) :
    Ordinary e ∨
      (∃ c ch, a = .chanFree c ∧ w.chans c = some ch ∧ ch.receiver ≠ -1 ∧
        unlink w c ch = .error e) ∨
      ∃ c r ch, a = .setReceiver c r ∧ w.chans c = some ch ∧ addChannel w r c ch = .error e := by
  cases a with
  | create =>
    left
    simp only [transfer] at h
    split at h
    · cases h
      exact sched_ordinary _
    · cases h
  | resume id => exact .inl (lift_ordinary w _ e h)
  | yield => exact .inl (lift_ordinary w _ e h)
  | ret =>
    left
    rcases bind_error h with hx | ⟨u,_,hx⟩
    · exact closeReceivers_ordinary _ w e hx
    · exact lift_ordinary u _ e hx
  | chanCreate size => cases h
  | chanFree x =>
    rcases bind_error h with hx | ⟨ch,hc,hx⟩
    · exact .inl (getChan_ordinary w x e hx)
    · have hx := map_error hx
      split_ifs at hx with hr
      exact .inr (.inl ⟨x,ch,rfl,getChan_ok w x ch hc,hr,hx⟩)
  | setSender x sender => exact .inl (getChan_ordinary w x e (map_error h))
  | setReceiver x receiver =>
    rcases bind_error h with hx | ⟨ch,hc,hx⟩
    · exact .inl (getChan_ordinary w x e hx)
    · exact .inr (.inr ⟨x,receiver,ch,rfl,getChan_ok w x ch hc,map_error hx⟩)
  | chanEnd x => exact .inl (getChan_ordinary w x e (map_error h))
  | send x v =>
    left
    rcases bind_error h with hx | ⟨ch,_,hx⟩
    · exact getChan_ordinary w x e hx
    · split_ifs at hx
      exact lift_ordinary w _ e hx
  | recv x =>
    left
    rcases bind_error h with hx | ⟨ch,_,hx⟩
    · exact getChan_ordinary w x e hx
    · split_ifs at hx
      · cases hx
        exact ⟨fun _ => by simp,fun _ => by simp⟩
      · exact lift_ordinary w _ e hx

theorem unlink_error (x c : ℕ) (ch : Chan) : unlink w x ch ≠ .error (.emptyRecv c) := by
  intro h
  simp only [unlink] at h
  split at h
  · cases h
  · split_ifs at h
    · exact (setList_ordinary _ _ _ _ h).1 c rfl
    · cases h

theorem addChannel_error (r : ℤ) (x c : ℕ) (ch : Chan) :
    addChannel w r x ch ≠ .error (.emptyRecv c) := by
  intro h
  simp only [addChannel] at h
  split_ifs at h
  · split at h
    · cases h
    · split_ifs at h
      · exact (setList_ordinary _ _ _ _ h).1 c rfl
      · cases h
  · cases h

/-- The first phase of a call never takes an element. -/
theorem transfer_error : transfer w a ≠ .error (.emptyRecv c) := by
  intro h
  rcases transfer_fault w a _ h with hp | ⟨x,ch,_,_,_,hx⟩ | ⟨x,r,ch,_,_,hx⟩
  · exact hp.1 c rfl
  · exact unlink_error w x c ch hx
  · exact addChannel_error w r x c ch hx

theorem control_error : Channel.control w a ≠ .error (.emptyRecv c) := by
  simp only [Channel.control]
  split
  · simp
  · exact transfer_error w a c

theorem same_empty (hq : SameQueues w w') :
    (w'.chans c).map Chan.bufs = some [] ↔ ∃ ch, w.chans c = some ch ∧ ch.bufs = [] := by
  rw [hq c, Option.map_eq_some_iff]

/-- A call takes from an empty queue exactly when it hands control to a
receive that waits on one. -/
theorem step_empty_iff (c : ℕ) (hi : Inv w) (h : Channel.control w a = .ok (w',n)) :
    step w a = .error (.emptyRecv c) ↔
      callPlace w a = some (.recvTail c) ∧ ∃ ch, w.chans c = some ch ∧ ch.bufs = [] := by
  have hs : step w a = goOn w' n := by simp only [step, h, Except.bind]
  rw [hs]
  rcases (control_reaches w w' a n hi h).2 with ⟨rfl,hq⟩ | ⟨hp,k,rfl,hd⟩
  · cases hp : callPlace w a with
    | none => simp [goOn]
    | some k => simp only [goOn, continueAt_empty, same_empty w w' c hq, Option.some.injEq]
  · simp only [goOn, continueAt_empty, hp, reduceCtorEq, false_and, iff_false, not_and]
    intro hk hb
    obtain ⟨ch,hc,hb⟩ := Option.map_eq_some_iff.mp hb
    exact hd c ch hk hc hb

theorem step_sound_iff (hi : Inv w) :
    Sound w a (step w a) ↔ Transferred WaitsForData w a (step w a) := by
  constructor
  · intro hs ⟨w',n⟩ hx c ch hp hc hb
    exact hs.1 c ((step_empty_iff w w' a n c hi hx).mpr ⟨hp,ch,hc,hb⟩)
  · intro hg
    refine ⟨?_,fun t ht => (step_keeps w t a hi ht).fifo⟩
    intro c he
    rcases bind_error he with hx | ⟨⟨w',n⟩,hx,_⟩
    · exact control_error w a c hx
    · obtain ⟨hp,ch,hc,hb⟩ := (step_empty_iff w w' a n c hi hx).mp he
      exact hg _ hx c ch hp hc hb

/-- Over every run of calls, by the main context or any dthread: no receive
takes from an empty queue and all channels keep their order, exactly when no
call hands control to a receive that waits on an empty channel. -/
theorem channel_fifo_iff (as : List Call) :
    Along step Sound as initial ↔ Along step (Transferred WaitsForData) as initial :=
  along_iff (fun w a t hi _ h => step_keeps w t a hi h) step_sound_iff as initial initial_inv

/-- The sender that a waiting receive has resumed yields, and the main context
resumes the receiver. -/
theorem recv_from_empty :
    run step [.chanCreate 0,.create,.create,.setSender 0 0,.setReceiver 0 1,.resume 1,.recv 0,
      .yield,.resume 1] initial = .error (.emptyRecv 0) := by
  rfl

end Duda.ChannelFifo
