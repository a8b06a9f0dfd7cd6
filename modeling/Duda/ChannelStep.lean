import Duda.ChannelFifo

/-!
# What a call does to the channels

Every call that returns makes, creates, frees or ends one channel, or moves
one value into or out of a queue, or leaves all of that alone. The ends of a
channel are set aside here: the scheduler may reset the receiving end of any
channel when a function returns.
-/

set_option autoImplicit false

namespace Duda.ChannelStep
open Duda.Channel Duda.ChannelFifo Duda.ControlPlace Duda.Runs
open Duda.Scheduler hiding step

def core (ch : Chan) : Chan := { ch with sender := -1, receiver := -1 }

def newChan (size : ℤ) : Chan := ⟨size+1,0,[],-1,-1,false,false⟩

def pushed (ch : Chan) (v : ℕ) : Chan := { ch with bufs := ch.bufs++[v], used := ch.used+1 }

def popped (ch : Chan) : Chan :=
  { ch with
    bufs := ch.bufs.tail
    used := ch.used-1
    done := if ch.used-1 = 0 ∧ ch.ended then true else ch.done }

def finished (ch : Chan) : Chan := { ch with ended := true }

/-- The channels of both states agree up to their ends. -/
def SameCore (w t : World) : Prop := ∀ x, (t.chans x).map core = (w.chans x).map core

/-- As before, except that `c` has become the given channel. -/
def SetAt (w t : World) (c : ℕ) (o : Option Chan) : Prop :=
  (t.chans c).map core = o.map core ∧
    ∀ x, x ≠ c → (t.chans x).map core = (w.chans x).map core

/-- The call puts `v` into the queue of `c`: it hands control to a waiting
send, or it is a send that finds room. -/
def Enqueues (w : World) (a : Call) (c v : ℕ) : Prop :=
  callPlace w a = some (.sendTail c v) ∨
    (a = .send c v ∧ ∃ ch, w.chans c = some ch ∧ ch.receiver ≠ -1 ∧ ch.used ≠ ch.size)

inductive Change (w : World) (a : Call) (t : World) : Prop where
  | keep (h : SameCore w t) (ha : t.accepted = w.accepted) (hr : t.received = w.received)
      (hf : ∀ c, a ≠ .chanEnd c)
  | create (size : ℤ) (h : SetAt w t w.next (some (newChan size)))
      (ha : t.accepted = w.accepted) (hr : t.received = w.received)
  | free (c : ℕ) (h : SetAt w t c none)
      (ha : t.accepted = w.accepted) (hr : t.received = w.received)
  | finish (c : ℕ) (ch : Chan) (hf : a = .chanEnd c) (hc : w.chans c = some ch)
      (h : SetAt w t c (some (finished ch)))
      (ha : t.accepted = w.accepted) (hr : t.received = w.received)
  | enqueue (c v : ℕ) (ch : Chan) (he : Enqueues w a c v) (hc : w.chans c = some ch)
      (h : SetAt w t c (some (pushed ch v)))
      (ha : t.accepted = Function.update w.accepted c (w.accepted c++[v]))
      (hr : t.received = w.received)
  | dequeue (c v : ℕ) (bufs : List ℕ) (ch : Chan) (hc : w.chans c = some ch)
      (hb : ch.bufs = v::bufs) (h : SetAt w t c (some (popped ch)))
      (ha : t.accepted = w.accepted)
      (hr : t.received = Function.update w.received c (w.received c++[v]))

theorem core_eq (a b : Chan) (h : core a = core b) :
    a.size = b.size ∧ a.used = b.used ∧ a.bufs = b.bufs ∧ a.ended = b.ended ∧ a.done = b.done := by
  simp only [core, Chan.mk.injEq] at h
  exact ⟨h.1,h.2.1,h.2.2.1,h.2.2.2.2.2.1,h.2.2.2.2.2.2⟩

variable (w u t w' : World) (a : Call) (c : ℕ)

theorem setAt_update (o : Option Chan) (h : t.chans = Function.update w.chans c o) :
    SetAt w t c o := by
  rw [SetAt, h]
  constructor
  · rw [Function.update_self]
  · intro x hx
    rw [Function.update_of_ne hx]

theorem setAt_trans (o : Option Chan) (hu : SameCore w u) (h : SetAt u t c o) : SetAt w t c o :=
  ⟨h.1,fun x hx => (h.2 x hx).trans (hu x)⟩

/-- The first phase of a call. -/
def Phase (w : World) (a : Call) (w' : World) (n : Next) : Prop :=
  match a with
  | .chanCreate size =>
    w'.chans = Function.update w.chans w.next (some (newChan size)) ∧ n = .own .user
  | .chanFree c => w'.chans = Function.update w.chans c none ∧ n = .own .user
  | .chanEnd c => (∃ ch, w.chans c = some ch ∧
      w'.chans = Function.update w.chans c (some (finished ch))) ∧ n = .own .user
  | _ => SameCore w w'

theorem sameCore_setChan (ch ch' : Chan) (hc : w.chans c = some ch) (h : core ch' = core ch)
    (hw : w'.chans = Function.update w.chans c (some ch')) : SameCore w w' := by
  intro x
  by_cases hx : x = c
  · rw [hx, hw, Function.update_self, hc, Option.map_some, Option.map_some, h]
  · rw [hw, Function.update_of_ne hx]

theorem closeReceivers_core (cs : List ℕ) (w t : World) (h : closeReceivers w cs = .ok t) :
    SameCore w t ∧ t.accepted = w.accepted ∧ t.received = w.received := by
  induction cs generalizing w with
  | nil =>
    cases h
    exact ⟨fun x => rfl,rfl,rfl⟩
  | cons c cs ih =>
    obtain ⟨ch,hc,h⟩ := getChan_bind w c _ t h
    obtain ⟨hs,ha,hr⟩ := ih _ h
    have hset : SameCore w (setChan w c { ch with receiver := -1 }) :=
      sameCore_setChan w _ c ch { ch with receiver := -1 } hc rfl rfl
    exact ⟨fun x => (hs x).trans (hset x),ha,hr⟩

theorem lift_world (r : Except Fault (Sched Frame × Option Frame)) (n : Next)
    (h : lift w r = .ok (w',n)) :
    SameCore w w' ∧ w'.accepted = w.accepted ∧ w'.received = w.received := by
  cases r with
  | error f => simp [lift] at h
  | ok p =>
    cases h
    exact ⟨fun x => rfl,rfl,rfl⟩

theorem lift_own (r : Except Fault (Sched Frame × Option Frame)) (k : Frame) :
    lift w r ≠ .ok (w',.own k) := by
  cases r with
  | error f => simp [lift]
  | ok p => simp [lift]

theorem transfer_phase (n : Next) (h : transfer w a = .ok (w',n)) :
    Phase w a w' n ∧ w'.accepted = w.accepted ∧ w'.received = w.received := by
  cases a with
  | create =>
    simp only [transfer] at h
    split at h
    · cases h
    · cases h
      exact ⟨fun x => rfl,rfl,rfl⟩
  | resume id => exact lift_world w w' _ n h
  | yield => exact lift_world w w' _ n h
  | ret =>
    obtain ⟨u,hu,h⟩ := bind_ok h
    obtain ⟨hs,ha,hr⟩ := closeReceivers_core _ w u hu
    obtain ⟨hl,hla,hlr⟩ := lift_world u w' _ n h
    exact ⟨fun x => (hl x).trans (hs x),hla.trans ha,hlr.trans hr⟩
  | chanCreate size =>
    cases h
    exact ⟨⟨rfl,rfl⟩,rfl,rfl⟩
  | chanFree c =>
    obtain ⟨_,_,_,_,rfl,rfl⟩ := chanFree_inv w w' c n h
    exact ⟨⟨rfl,rfl⟩,rfl,rfl⟩
  | setSender c sender =>
    obtain ⟨ch,hc,he⟩ := getChan_map w c _ _ h
    cases he
    exact ⟨sameCore_setChan w _ c ch { ch with sender := sender } hc rfl rfl,rfl,rfl⟩
  | setReceiver c receiver =>
    obtain ⟨ch,s,hc,_,rfl,rfl⟩ := setReceiver_inv w w' c receiver n h
    exact ⟨sameCore_setChan w _ c ch { ch with receiver := receiver } hc rfl rfl,rfl,rfl⟩
  | chanEnd c =>
    obtain ⟨ch,hc,he⟩ := getChan_map w c _ _ h
    cases he
    exact ⟨⟨⟨ch,hc,rfl⟩,rfl⟩,rfl,rfl⟩
  | send c v =>
    obtain ⟨ch,hc,he⟩ := getChan_bind w c _ _ h
    split_ifs at he with hr hf
    · cases he
      exact ⟨fun x => rfl,rfl,rfl⟩
    · exact lift_world w w' _ n he
    · cases he
      exact ⟨fun x => rfl,rfl,rfl⟩
  | recv c =>
    obtain ⟨ch,hc,he⟩ := getChan_bind w c _ _ h
    split_ifs at he with hd hu
    · exact lift_world w w' _ n he
    · cases he
      exact ⟨fun x => rfl,rfl,rfl⟩

theorem control_transfer (x : World × Next) (h : Channel.control w a = .ok x) :
    transfer w a = .ok x := by
  simp only [Channel.control] at h
  split at h
  · cases h
  · exact h

/-- A call that goes on by itself in the second half of a send is a send that
found room. -/
theorem own_send (v : ℕ) (h : transfer w a = .ok (w',.own (.sendTail c v))) :
    a = .send c v ∧ ∃ ch, w.chans c = some ch ∧ ch.receiver ≠ -1 ∧ ch.used ≠ ch.size := by
  cases a with
  | create =>
    simp only [transfer] at h
    split at h <;> cases h
  | resume id => exact absurd h (lift_own w w' _ _)
  | yield => exact absurd h (lift_own w w' _ _)
  | ret =>
    obtain ⟨u,hu,h⟩ := bind_ok h
    exact absurd h (lift_own u w' _ _)
  | chanCreate size => cases h
  | chanFree x =>
    obtain ⟨_,_,_,_,_,hn⟩ := chanFree_inv w w' x _ h
    cases hn
  | setSender x sender =>
    obtain ⟨ch,hc,he⟩ := getChan_map w x _ _ h
    cases he
  | setReceiver x receiver =>
    obtain ⟨_,_,_,_,_,hn⟩ := setReceiver_inv w w' x receiver _ h
    cases hn
  | chanEnd x =>
    obtain ⟨ch,hc,he⟩ := getChan_map w x _ _ h
    cases he
  | send x y =>
    obtain ⟨ch,hc,he⟩ := getChan_bind w x _ _ h
    split_ifs at he with hr hf
    · cases he
    · exact absurd he (lift_own w w' _ _)
    · cases he
      exact ⟨rfl,ch,hc,hr,hf⟩
  | recv x =>
    obtain ⟨ch,hc,he⟩ := getChan_bind w x _ _ h
    split_ifs at he with hd hu
    · exact absurd he (lift_own w w' _ _)
    · cases he

theorem sameCore_some (e : Chan) (hs : SameCore w u) (h : u.chans c = some e) :
    ∃ ch, w.chans c = some ch ∧ core e = core ch := by
  have hc := hs c
  rw [h, Option.map_some, eq_comm, Option.map_eq_some_iff] at hc
  obtain ⟨ch,hch,he⟩ := hc
  exact ⟨ch,hch,he.symm⟩

theorem core_pushed (a b : Chan) (v : ℕ) (h : core a = core b) :
    core (pushed a v) = core (pushed b v) := by
  obtain ⟨hs,hu,hb,he,hd⟩ := core_eq a b h
  simp only [core, pushed, hs, hu, hb, he, hd]

theorem core_popped (a b : Chan) (h : core a = core b) : core (popped a) = core (popped b) := by
  obtain ⟨hs,hu,hb,he,hd⟩ := core_eq a b h
  simp only [core, popped, hs, hu, hb, he, hd]

theorem setAt_core (e ch : Chan) (he : core e = core ch) (h : SetAt w t c (some e)) :
    SetAt w t c (some ch) :=
  ⟨h.1.trans (by rw [Option.map_some, Option.map_some, he]),h.2⟩

theorem continueAt_change (k : Frame) (hs : SameCore w u) (ha : u.accepted = w.accepted)
    (hr : u.received = w.received) (hf : ∀ c, a ≠ .chanEnd c)
    (hk : ∀ c v, k = .sendTail c v → Enqueues w a c v) (h : continueAt u k = .ok t) :
    Change w a t := by
  cases k with
  | user =>
    cases h
    exact .keep hs ha hr hf
  | sendTail c v =>
    obtain ⟨e,he,rfl⟩ := getChan_map u c _ t h
    obtain ⟨ch,hc,hcore⟩ := sameCore_some w u c e hs he
    apply Change.enqueue c v ch (hk c v rfl) hc
    · apply setAt_core w _ c (pushed e v) (pushed ch v) (core_pushed e ch v hcore)
      exact setAt_trans w u _ c _ hs (setAt_update u _ c _ rfl)
    · rw [← ha]
    · exact hr
  | recvTail c =>
    obtain ⟨e,he,h⟩ := getChan_bind u c _ t h
    obtain ⟨ch,hc,hcore⟩ := sameCore_some w u c e hs he
    cases hb : e.bufs with
    | nil => simp [hb] at h
    | cons v bufs =>
      simp only [hb, Except.ok.injEq] at h
      have hbufs : ch.bufs = v::bufs := by rw [← (core_eq e ch hcore).2.2.1, hb]
      have htail : bufs = e.bufs.tail := by rw [hb, List.tail_cons]
      rw [← h]
      apply Change.dequeue c v bufs ch hc hbufs
      · apply setAt_core w _ c (popped e) (popped ch) (core_popped e ch hcore)
        apply setAt_trans w u _ c _ hs
        apply setAt_update u _ c _
        simp only [popped, htail]
      · exact ha
      · rw [← hr]

/-- Inversion of a call that returns. -/
theorem step_change (hi : Inv w) (h : step w a = .ok t) : Change w a t := by
  obtain ⟨⟨u,n⟩,hctl,h⟩ := bind_ok h
  have htr := control_transfer w a (u,n) hctl
  obtain ⟨hphase,ha,hr⟩ := transfer_phase w u a n htr
  have hgo : (∀ c, a ≠ .chanEnd c) → SameCore w u → Change w a t := by
    intro hf hs
    rcases (control_reaches w u a n hi hctl).2 with ⟨rfl,_⟩ | ⟨_,k,rfl,_⟩
    · cases hp : callPlace w a with
      | none =>
        simp only [hp, goOn] at h
        cases h
        exact .keep hs ha hr hf
      | some k =>
        simp only [hp, goOn] at h
        apply continueAt_change w u t a k hs ha hr hf _ h
        intro c v hk
        exact .inl (by rw [hp, hk])
    · apply continueAt_change w u t a k hs ha hr hf _ h
      intro c v hk
      subst hk
      exact .inr (own_send w u a c v htr)
  cases a with
  | chanCreate size =>
    obtain ⟨hc,rfl⟩ := hphase
    cases h
    exact .create size (setAt_update w t _ _ hc) ha hr
  | chanFree c =>
    obtain ⟨hc,rfl⟩ := hphase
    cases h
    exact .free c (setAt_update w t _ _ hc) ha hr
  | chanEnd c =>
    obtain ⟨⟨ch,hch,hc⟩,rfl⟩ := hphase
    cases h
    exact .finish c ch rfl hch (setAt_update w t _ _ hc) ha hr
  | create => exact hgo (by simp) hphase
  | resume id => exact hgo (by simp) hphase
  | yield => exact hgo (by simp) hphase
  | ret => exact hgo (by simp) hphase
  | setSender c sender => exact hgo (by simp) hphase
  | setReceiver c receiver => exact hgo (by simp) hphase
  | send c v => exact hgo (by simp) hphase
  | recv c => exact hgo (by simp) hphase

theorem phase_same (n : Next) (h : Phase w a u n) (hp : callPlace w a ≠ none) : SameCore w u := by
  cases a with
  | chanCreate size => exact absurd rfl hp
  | chanFree c => exact absurd rfl hp
  | chanEnd c => exact absurd rfl hp
  | create => exact h
  | resume id => exact h
  | yield => exact h
  | ret => exact h
  | setSender c sender => exact h
  | setReceiver c receiver => exact h
  | send c v => exact h
  | recv c => exact h

theorem sendTail_sets (v : ℕ) (ch : Chan) (hs : SameCore w u) (hc : w.chans c = some ch) :
    ∃ t, sendTail u c v = .ok t ∧ SetAt w t c (some (pushed ch v)) := by
  have hm := hs c
  rw [hc, Option.map_some, Option.map_eq_some_iff] at hm
  obtain ⟨e,he,hcore⟩ := hm
  refine ⟨_,by simp only [sendTail, getChan, he, Except.map]; rfl,?_⟩
  apply setAt_core w _ c (pushed e v) (pushed ch v) (core_pushed e ch v hcore)
  exact setAt_trans w u _ c _ hs (setAt_update u _ c _ rfl)

theorem step_enqueues (v : ℕ) (ch : Chan) (x : World × Next) (hi : Inv w)
    (hctl : Channel.control w a = .ok x) (he : Enqueues w a c v) (hc : w.chans c = some ch) :
    ∃ t, step w a = .ok t ∧ SetAt w t c (some (pushed ch v)) := by
  obtain ⟨u,n⟩ := x
  have htr := control_transfer w a (u,n) hctl
  have hstep : step w a = goOn u n := by simp only [step, hctl, Except.bind]
  rw [hstep]
  rcases he with hp | ⟨rfl,e,he,hr,hf⟩
  · have hs := phase_same w u a n (transfer_phase w u a n htr).1 (by simp [hp])
    rcases (control_reaches w u a n hi hctl).2 with ⟨rfl,_⟩ | ⟨hnone,_⟩
    · rw [hp]
      exact sendTail_sets w u c v ch hs hc
    · rw [hp] at hnone
      cases hnone
  · simp only [transfer, getChan, he, Except.bind, if_neg hr, if_neg hf, Except.ok.injEq,
      Prod.mk.injEq] at htr
    rw [← htr.1, ← htr.2]
    exact sendTail_sets w w c v ch (fun x => rfl) hc

theorem step_finishes (ch : Chan) (x : World × Next)
    (hctl : Channel.control w (.chanEnd c) = .ok x) (hc : w.chans c = some ch) :
    ∃ t, step w (.chanEnd c) = .ok t ∧ SetAt w t c (some (finished ch)) := by
  obtain ⟨u,n⟩ := x
  have htr := control_transfer w (.chanEnd c) (u,n) hctl
  simp only [transfer, getChan, hc, Except.map, Except.ok.injEq, Prod.mk.injEq] at htr
  obtain ⟨rfl,rfl⟩ := htr
  refine ⟨_,by simp only [step, hctl, Except.bind, goOn, continueAt]; rfl,?_⟩
  exact setAt_update w _ c _ rfl

/-- `P` holds of every channel. -/
def Each (P : Chan → Prop) (w : World) : Prop := ∀ c ch, w.chans c = some ch → P ch

/-- Properties of channels that do not look at the ends. -/
def Endless (P : Chan → Prop) : Prop := ∀ a b, core a = core b → P a → P b

section Rule

variable {P : Chan → Prop} (hcore : Endless P)

include hcore

theorem each_same (w t : World) (hp : Each P w) (hs : SameCore w t) : Each P t := by
  intro c e he
  obtain ⟨ch,hc,hce⟩ := sameCore_some w t c e hs he
  exact hcore ch e hce.symm (hp c ch hc)

theorem each_setAt (w t : World) (c : ℕ) (o : Option Chan) (hp : Each P w) (h : SetAt w t c o)
    (ho : ∀ ch, o = some ch → P ch) : Each P t := by
  intro x e he
  by_cases hx : x = c
  · subst hx
    have hm := h.1
    rw [he, Option.map_some, eq_comm, Option.map_eq_some_iff] at hm
    obtain ⟨ch,hch,hce⟩ := hm
    exact hcore ch e hce (ho ch hch)
  · have hm := h.2 x hx
    rw [he, Option.map_some, eq_comm, Option.map_eq_some_iff] at hm
    obtain ⟨ch,hch,hce⟩ := hm
    exact hcore ch e hce (hp x ch hch)

theorem setAt_each (w t : World) (c : ℕ) (ch : Chan) (hp : Each P t)
    (h : SetAt w t c (some ch)) : P ch := by
  have hm := h.1
  rw [Option.map_some, Option.map_eq_some_iff] at hm
  obtain ⟨e,he,hce⟩ := hm
  exact hcore e ch hce (hp c e he)

/-- The rule for a property of all channels: new channels have it, a receive
keeps it, and so do the sends and the end of this call. -/
theorem step_each (w t : World) (a : Call) (hi : Inv w) (hp : Each P w) (h : step w a = .ok t)
    (hnew : ∀ size, P (newChan size))
    (hpop : ∀ ch v bufs, P ch → ch.used = ch.bufs.length → ch.bufs = v::bufs → P (popped ch))
    (hpush : ∀ c v ch, Enqueues w a c v → w.chans c = some ch → P (pushed ch v))
    (hend : ∀ c ch, a = .chanEnd c → w.chans c = some ch → P (finished ch)) : Each P t := by
  cases step_change w t a hi h with
  | keep h _ _ _ => exact each_same hcore w t hp h
  | create size h _ _ =>
    apply each_setAt hcore w t _ _ hp h
    intro ch hch
    cases hch
    exact hnew size
  | free c h _ _ =>
    apply each_setAt hcore w t _ _ hp h
    intro ch hch
    cases hch
  | finish c ch hf hc h _ _ =>
    apply each_setAt hcore w t _ _ hp h
    intro e he
    cases he
    exact hend c ch hf hc
  | enqueue c v ch he hc h _ _ =>
    apply each_setAt hcore w t _ _ hp h
    intro e hch
    cases hch
    exact hpush c v ch he hc
  | dequeue c v bufs ch hc hb h _ _ =>
    apply each_setAt hcore w t _ _ hp h
    intro e hch
    cases hch
    exact hpop ch v bufs (hp c ch hc) (hi.fifo.2 c ch hc).1 hb

end Rule

end Duda.ChannelStep
