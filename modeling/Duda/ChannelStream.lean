import Duda.ChannelStep

/-!
# Capacity and end of a channel

A waiting send does not look at the channel again before it stores its value,
and the flag that ends a stream is only set by a receive. Both properties of
the documentation hold along a run exactly when the schedule never meets one
of these two places in the wrong state.
-/

set_option autoImplicit false

namespace Duda.ChannelStream
open Duda.Channel Duda.ChannelFifo Duda.ChannelStep Duda.ControlPlace Duda.Runs
open Duda.Scheduler hiding step

/-- The queue is at most as long as the size; channels made with a negative
size are left out. -/
def Within (ch : Chan) : Prop := 1 ≤ ch.size → (ch.bufs.length : ℤ) ≤ ch.size

variable (ch : Chan) (v : ℕ) (w : World) (a : Call) (t : World)

theorem initial_each (P : Chan → Prop) : Each P initial := by
  intro c ch h
  cases h

/-- `duda_dthread_channel_done` is set exactly when the stream has ended and
nothing is queued. -/
def DoneOk (ch : Chan) : Prop := ch.done = true ↔ ch.ended = true ∧ ch.bufs = []

/-- A channel is ended while an element is queued, unless it has ended before. -/
def EndsWithData (w : World) (a : Call) : Prop :=
  ∀ c ch, a = .chanEnd c → w.chans c = some ch → ch.ended = false → ch.bufs ≠ []

/-- No value is put into a channel whose stream is over. -/
def NoLateSend (w : World) (a : Call) : Prop :=
  ∀ c v ch, Enqueues w a c v → w.chans c = some ch → ch.done = false

theorem doneOk_endless : Endless DoneOk := by
  intro a b h hd
  obtain ⟨_,_,hb,he,hdone⟩ := core_eq a b h
  rw [DoneOk, ← hb, ← he, ← hdone]
  exact hd

theorem doneOk_new (size : ℤ) : DoneOk (newChan size) := by
  simp [DoneOk, newChan]

theorem doneOk_pop (bufs : List ℕ) (h : DoneOk ch) (hu : ch.used = ch.bufs.length)
    (hb : ch.bufs = v::bufs) : DoneOk (popped ch) := by
  have hdone : ch.done = false := by
    cases hd : ch.done with
    | false => rfl
    | true => simpa [hb] using (h.mp hd).2
  have hzero : ch.used-1 = 0 ↔ bufs = [] := by
    rw [hu, hb, List.length_cons, ← List.length_eq_zero_iff]
    omega
  cases he : ch.ended with
  | false => simp [DoneOk, popped, he, hdone]
  | true => simp [DoneOk, popped, he, hdone, hb, hzero]

theorem doneOk_push_iff : DoneOk (pushed ch v) ↔ ch.done = false := by
  simp [DoneOk, pushed]

theorem doneOk_finish_iff (h : DoneOk ch) :
    DoneOk (finished ch) ↔ (ch.ended = false → ch.bufs ≠ []) := by
  cases he : ch.ended with
  | false =>
    have hdone : ch.done = false := by
      cases hd : ch.done with
      | false => rfl
      | true => simpa [he] using (h.mp hd).1
    simp [DoneOk, finished, hdone]
  | true =>
    simp only [DoneOk, he, true_and] at h
    simp [DoneOk, finished, h]

theorem step_done_iff (hi : Inv w) (hd : Each DoneOk w) :
    After (Each DoneOk) w a (step w a) ↔
      Transferred (fun w a => EndsWithData w a ∧ NoLateSend w a) w a (step w a) := by
  constructor
  · intro hafter x hctl
    constructor
    · intro c ch ha hc
      subst ha
      obtain ⟨t,ht,hset⟩ := step_finishes w c ch x hctl hc
      exact (doneOk_finish_iff ch (hd c ch hc)).mp
        (setAt_each doneOk_endless w t c _ (hafter t ht) hset)
    · intro c v ch he hc
      obtain ⟨t,ht,hset⟩ := step_enqueues w a c v ch x hi hctl he hc
      exact (doneOk_push_iff ch v).mp (setAt_each doneOk_endless w t c _ (hafter t ht) hset)
  · intro hg t ht
    obtain ⟨x,hctl,_⟩ := bind_ok ht
    apply step_each doneOk_endless w t a hi hd ht doneOk_new doneOk_pop
    · intro c v ch he hc
      exact (doneOk_push_iff ch v).mpr ((hg x hctl).2 c v ch he hc)
    · intro c ch ha hc
      exact (doneOk_finish_iff ch (hd c ch hc)).mpr ((hg x hctl).1 c ch ha hc)

/-- The stream is over exactly when it was ended and nothing is queued, and
then every accepted value has been received. -/
def StreamExact (w : World) : Prop :=
  Each DoneOk w ∧ ∀ c ch, w.chans c = some ch → ch.done = true → w.received c = w.accepted c

/-- The order of the channel is kept, and so is the meaning of its end. -/
def Streams (w : World) (a : Call) (r : Except ChanFault World) : Prop :=
  Sound w a r ∧ After StreamExact w a r

def StreamGuard (w : World) (a : Call) : Prop :=
  WaitsForData w a ∧ EndsWithData w a ∧ NoLateSend w a

theorem streamExact_iff (hf : Fifo w) : StreamExact w ↔ Each DoneOk w := by
  constructor
  · intro h
    exact h.1
  · intro h
    refine ⟨h,?_⟩
    intro c ch hc hdone
    have hacc := (hf.2 c ch hc).2
    rw [((h c ch hc).mp hdone).2, List.append_nil] at hacc
    exact hacc.symm

theorem step_streams_iff (hi : Inv w ∧ Each DoneOk w) :
    Streams w a (step w a) ↔ Transferred StreamGuard w a (step w a) := by
  have hsound := step_sound_iff w a hi.1
  have hdone := step_done_iff w a hi.1 hi.2
  constructor
  · intro h x hx
    have hafter : After (Each DoneOk) w a (step w a) := fun t ht => (h.2 t ht).1
    exact ⟨hsound.mp h.1 x hx,hdone.mp hafter x hx⟩
  · intro h
    refine ⟨hsound.mpr (fun x hx => (h x hx).1),?_⟩
    intro t ht
    apply (streamExact_iff t (step_keeps w t a hi.1 ht).fifo).mpr
    exact hdone.mpr (fun x hx => (h x hx).2) t ht

theorem step_keeps_done (hi : Inv w ∧ Each DoneOk w)
    (hg : Transferred StreamGuard w a (Except.ok t : Except ChanFault World))
    (h : step w a = .ok t) : Inv t ∧ Each DoneOk t :=
  ⟨step_keeps w t a hi.1 h,(step_done_iff w a hi.1 hi.2).mpr (fun x hx => (hg x hx).2) t h⟩

theorem step_grows (a : Call) (hi : Inv w) (h : step w a = .ok t) (c : ℕ) :
    (w.received c).length ≤ (t.received c).length ∧
      (w.accepted c).length ≤ (t.accepted c).length := by
  cases step_change w t a hi h with
  | keep _ ha hr _ => rw [ha, hr]; exact ⟨le_rfl,le_rfl⟩
  | create _ _ ha hr => rw [ha, hr]; exact ⟨le_rfl,le_rfl⟩
  | free _ _ ha hr => rw [ha, hr]; exact ⟨le_rfl,le_rfl⟩
  | finish _ _ _ _ _ ha hr => rw [ha, hr]; exact ⟨le_rfl,le_rfl⟩
  | enqueue x v _ _ _ _ ha hr =>
    rw [ha, hr]
    refine ⟨le_rfl,?_⟩
    by_cases hx : c = x
    · simp [hx]
    · simp [hx]
  | dequeue x v _ _ _ _ _ ha hr =>
    rw [ha, hr]
    refine ⟨?_,le_rfl⟩
    by_cases hx : c = x
    · simp [hx]
    · simp [hx]

theorem run_grows (as : List Call) (w t : World) (hi : Inv w) (h : run step as w = .ok t) (c : ℕ) :
    (w.accepted c).length ≤ (t.accepted c).length := by
  refine (run_kept (I := fun u => Inv u ∧ (w.accepted c).length ≤ (u.accepted c).length) ?_ as w t
    ⟨hi,le_rfl⟩ h).2
  rintro u a v ⟨hu,hle⟩ hs
  exact ⟨step_keeps u v a hu hs,hle.trans (step_grows u v a hu hs c).2⟩

theorem setAt_ended (c x : ℕ) (ch e : Chan) (h : SetAt w t c (some ch)) (he : t.chans x = some e)
    (hend : e.ended = true) :
    (x = c ∧ ch.ended = true) ∨ ∃ d, w.chans x = some d ∧ d.ended = true := by
  by_cases hx : x = c
  · subst hx
    have hm := h.1
    rw [he, Option.map_some, Option.map_some, Option.some.injEq] at hm
    exact .inl ⟨rfl,(core_eq e ch hm).2.2.2.1 ▸ hend⟩
  · have hm := h.2 x hx
    rw [he, Option.map_some, eq_comm, Option.map_eq_some_iff] at hm
    obtain ⟨d,hd,hcore⟩ := hm
    exact .inr ⟨d,hd,(core_eq d e hcore).2.2.2.1.trans hend⟩

/-- A stream that has ended after a call was ended by it or before. -/
theorem step_ended (a : Call) (hi : Inv w) (h : step w a = .ok t) (x : ℕ) (e : Chan)
    (he : t.chans x = some e) (hend : e.ended = true) :
    ∃ ch, w.chans x = some ch ∧ (ch.ended = true ∨ a = .chanEnd x) := by
  have hold : (∃ d, w.chans x = some d ∧ d.ended = true) →
      ∃ ch, w.chans x = some ch ∧ (ch.ended = true ∨ a = .chanEnd x) := by
    rintro ⟨d,hd,hde⟩
    exact ⟨d,hd,.inl hde⟩
  cases step_change w t a hi h with
  | keep hs _ _ _ =>
    obtain ⟨d,hd,hcore⟩ := sameCore_some w t x e hs he
    exact ⟨d,hd,.inl ((core_eq e d hcore).2.2.2.1 ▸ hend)⟩
  | create size hs _ _ =>
    rcases setAt_ended w t _ x _ e hs he hend with ⟨_,hf⟩ | hd
    · cases hf
    · exact hold hd
  | free c hs _ _ =>
    by_cases hx : x = c
    · subst hx
      have hm := hs.1
      rw [he] at hm
      cases hm
    · have hm := hs.2 x hx
      rw [he, Option.map_some, eq_comm, Option.map_eq_some_iff] at hm
      obtain ⟨d,hd,hcore⟩ := hm
      exact ⟨d,hd,.inl ((core_eq d e hcore).2.2.2.1.trans hend)⟩
  | finish c ch ha hc hs _ _ =>
    rcases setAt_ended w t c x _ e hs he hend with ⟨rfl,_⟩ | hd
    · exact ⟨ch,hc,.inr ha⟩
    · exact hold hd
  | enqueue c v ch _ hc hs _ _ =>
    rcases setAt_ended w t c x _ e hs he hend with ⟨rfl,hch⟩ | hd
    · exact ⟨ch,hc,.inl hch⟩
    · exact hold hd
  | dequeue c v bufs ch hc _ hs _ _ =>
    rcases setAt_ended w t c x _ e hs he hend with ⟨rfl,hch⟩ | hd
    · exact ⟨ch,hc,.inl hch⟩
    · exact hold hd

theorem queued_longer (c : ℕ) (ch : Chan) (hi : Inv w) (hc : w.chans c = some ch)
    (hb : ch.bufs ≠ []) : (w.received c).length < (w.accepted c).length := by
  rw [(hi.fifo.2 c ch hc).2, List.length_append]
  have := List.length_pos_of_ne_nil hb
  omega

/-- Before the end of a stream some value is still to be received: the call
that ends it finds one in the queue. -/
theorem run_before_end (as : List Call) (w t : World) (hi : Inv w ∧ Each DoneOk w)
    (hg : Along step (Transferred StreamGuard) as w) (h : run step as w = .ok t) (c : ℕ) (e : Chan)
    (hopen : ∀ ch, w.chans c = some ch → ch.ended = false) (he : t.chans c = some e)
    (hend : e.ended = true) : (w.received c).length < (t.accepted c).length := by
  induction as generalizing w with
  | nil =>
    cases h
    rw [hopen e he] at hend
    cases hend
  | cons a as ih =>
    obtain ⟨u,hu,h⟩ := run_cons_inv h
    have hgrow := step_grows w u a hi.1 hu c
    have hkeep := step_keeps_done w a u hi (hu ▸ hg.1) hu
    by_cases hopen' : ∀ ch, u.chans c = some ch → ch.ended = false
    · have := ih u hkeep (hg.2 u hu) h hopen'
      omega
    · push Not at hopen'
      obtain ⟨d,hd,hde⟩ := hopen'
      obtain ⟨ch,hc,hch⟩ := step_ended w u a hi.1 hu c d hd (by simpa using hde)
      have ha := hch.resolve_left (by simp [hopen ch hc])
      obtain ⟨x,hctl,_⟩ := bind_ok hu
      have hb := (hg.1 x hctl).2.1 c ch ha hc (hopen ch hc)
      have hlen := queued_longer w c ch hi.1 hc hb
      have hrun := run_grows as u t hkeep.1 h c
      omega

theorem recv_open (c : ℕ) (h : step w (.recv c) = .ok t) :
    ∃ ch, w.chans c = some ch ∧ ch.done = false := by
  obtain ⟨x,hctl,_⟩ := bind_ok h
  obtain ⟨ch,hc,he⟩ := getChan_bind w c _ _ (control_transfer w (.recv c) x hctl)
  split_ifs at he with hd
  all_goals exact ⟨ch,hc,by simpa using hd⟩

/-- Over every run, the flag of a channel says that its stream is over, with
all accepted values received, exactly when no receive is entered on an empty
queue, no stream is ended with an empty queue and nothing is sent into a
stream that is over. In such a run every receive of an ended stream was called
before the last value was received. -/
theorem end_of_stream_iff (as : List Call) :
    (Along step Streams as initial ↔ Along step (Transferred StreamGuard) as initial) ∧
      (Along step (Transferred StreamGuard) as initial →
        ∀ bs c cs w t ch, as = bs++.recv c::cs → run step bs initial = .ok w →
          run step as initial = .ok t → t.chans c = some ch → ch.ended = true →
          w.received c ≠ t.accepted c) := by
  have hstart : Inv initial ∧ Each DoneOk initial := ⟨initial_inv,initial_each DoneOk⟩
  refine ⟨along_iff step_keeps_done step_streams_iff as initial hstart,?_⟩
  intro hg bs c cs w t ch has hw ht hch hend heq
  subst has
  obtain ⟨hgb,hgc⟩ := (along_append _ bs (.recv c::cs) initial).mp hg
  have hiw := run_invariant step_keeps_done bs initial w hstart hgb hw
  have hgw := hgc w hw
  rw [run_append, hw] at ht
  have hlt : (w.received c).length < (t.accepted c).length := by
    by_cases hopen : ∀ d, w.chans c = some d → d.ended = false
    · exact run_before_end _ w t hiw hgw ht c ch hopen hch hend
    · push Not at hopen
      obtain ⟨d,hd,hde⟩ := hopen
      obtain ⟨u,hu,_⟩ := run_cons_inv ht
      obtain ⟨d',hd',hdone⟩ := recv_open w u c hu
      rw [hd] at hd'
      cases hd'
      have hb : d.bufs ≠ [] := by
        intro hb
        have := (hiw.2 c d hd).mpr ⟨by simpa using hde,hb⟩
        simp [hdone] at this
      exact (queued_longer w c d hiw.1 hd hb).trans_le (run_grows _ w t hiw.1 ht c)
  rw [heq] at hlt
  exact lt_irrefl _ hlt

/-- A sender without any value ends the stream and returns. The flag stays
unset, and the receiver's next call resumes the dead sender. -/
theorem empty_stream_not_done :
    Yields (run step [.chanCreate 0,.create,.create,.setSender 0 0,.setReceiver 0 1,.resume 0,
        .chanEnd 0] initial)
      (fun w => (w.chans 0).map (fun ch => (ch.ended,ch.bufs,ch.done)) = some (true,[],false)) ∧
    run step [.chanCreate 0,.create,.create,.setSender 0 0,.setReceiver 0 1,.resume 0,
        .chanEnd 0,.ret,.resume 1,.recv 0] initial = .error (.sched .assertion) := by
  constructor
  · decide
  · rfl

end Duda.ChannelStream
