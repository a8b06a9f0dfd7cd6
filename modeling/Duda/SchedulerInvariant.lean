import Duda.Scheduler
import Duda.SlotCount

/-!
# The invariant of the scheduler

Every transfer of control has two halves: the executing party is parked or
finishes, and another party is entered. Between the halves nobody executes,
and every dthread in a slot is parked. The halves are stated as pure updates;
the source functions are then compositions of them.
-/

set_option autoImplicit false

namespace Duda.SchedulerInvariant
open Duda.Scheduler Duda.SlotCount

variable {κ : Type}

def At (s : Sched κ) (i o : ℕ) (d : Dthread κ) : Prop := s.dt i = some o ∧ s.heap o = some d

def isLive (s : Sched κ) (i : ℕ) : Bool :=
  match s.dt i with
  | none => false
  | some o =>
    match s.heap o with
    | none => false
    | some d => d.status ≠ .dead

def Parked (o : ℕ) (d : Dthread κ) : Prop :=
  d.status ≠ .running ∧ (d.status = .suspend → ∃ k, d.context = .saved (.dthread o) k)

def Executing (d : Dthread κ) : Prop := d.status = .running ∨ d.status = .suspend

/-- The link of a started dthread is the main context, or a dthread that was
executing when it started this one. -/
def Linked (s : Sched κ) (o : ℕ) (d : Dthread κ) : Prop :=
  (d.uc_link = some .main ∧ d.parent_id = -1) ∨
    ∃ p, d.uc_link = some (.dthread p) ∧ p ≠ o ∧ 0 ≤ d.parent_id ∧ p < s.next ∧
      ∀ e, s.heap p = some e → e.status ≠ .ready

/-- What does not depend on who executes. -/
structure Base (s : Sched κ) : Prop where
  cap_pos : 0 < s.cap
  slots : ∀ i o, s.dt i = some o → i < s.cap ∧ ∃ d, s.heap o = some d
  fresh : ∀ o d, s.heap o = some d → o < s.next
  inj : ∀ i j o, s.dt i = some o → s.dt j = some o → i = j
  ready : ∀ i o d, At s i o d → d.status = .ready → d.parent_id = -1
  link : ∀ i o d, At s i o d → d.status ≠ .ready → Linked s o d
  count : s.n_dthread = occupied s.cap (isLive s)

/-- Nobody executes: the state between the two halves of a transfer. -/
structure Idle (s : Sched κ) : Prop where
  base : Base s
  parked : ∀ i o d, At s i o d → Parked o d
  mainSaved : ∃ k, s.main = .saved .main k

inductive Current (s : Sched κ) : Prop where
  | main (hc : s.cur = .main) (hr : s.running_id = -1)
  | dthread (i o : ℕ) (d : Dthread κ) (hc : s.cur = .dthread o) (hr : s.running_id = i)
      (hat : At s i o d) (he : Executing d)

structure Inv (s : Sched κ) : Prop where
  base : Base s
  current : Current s
  parked : ∀ i o d, At s i o d → s.cur ≠ .dthread o → Parked o d
  mainSaved : s.cur ≠ .main → ∃ k, s.main = .saved .main k

def put (s : Sched κ) (o : ℕ) (d : Dthread κ) : Sched κ :=
  { s with heap := Function.update s.heap o (some d) }

/-- The executing party gives up control and will continue at `k`. -/
def park (s : Sched κ) (k : κ) : Sched κ :=
  match s.cur with
  | .main => { s with main := .saved .main k }
  | .dthread r =>
    match s.heap r with
    | none => s
    | some e => put s r { e with status := .suspend, context := .saved (.dthread r) k }

def enter (s : Sched κ) (p : Party) (id : ℤ) : Sched κ := { s with cur := p, running_id := id }

variable (s : Sched κ) (k : κ) (i o : ℕ) (d d' : Dthread κ) (t : Sched κ) (id : ℕ)

theorem at_put (i x : ℕ) (e : Dthread κ) :
    At (put s o d) i x e ↔ s.dt i = some x ∧ ((x = o ∧ e = d) ∨ (x ≠ o ∧ s.heap x = some e)) := by
  simp only [At, put]
  by_cases h : x = o
  · subst h
    simp [eq_comm]
  · simp [h]

theorem isLive_at (h : At s i o d) : isLive s i = decide (d.status ≠ .dead) := by
  simp only [isLive, h.1, h.2]

theorem linked_put (hd : s.heap o = some d) (hr : d'.status = .ready → d.status = .ready) (x : ℕ)
    (e : Dthread κ) (h : Linked s x e) : Linked (put s o d') x e := by
  rcases h with h | ⟨p,hlink,hne,hid,hnext,hstatus⟩
  · exact Or.inl h
  · refine Or.inr ⟨p,hlink,hne,hid,hnext,?_⟩
    intro f hf
    by_cases hp : p = o
    · subst hp
      simp only [put, Function.update_self, Option.some.injEq] at hf
      intro hready
      exact hstatus d hd (hr (hf ▸ hready))
    · simp only [put, Function.update_of_ne hp] at hf
      exact hstatus f hf

/-- Replacing one record keeps all that does not depend on who executes, up to
the number of live dthreads. -/
theorem base_put (n : ℤ) (hb : Base s) (hat : At s i o d)
    (hready : d'.status = .ready → d.status = .ready)
    (hparent : d'.status = .ready → d'.parent_id = -1)
    (hlink : d'.status ≠ .ready → Linked s o d')
    (hcount : n = occupied s.cap (isLive (put s o d'))) :
    Base { put s o d' with n_dthread := n } := by
  constructor
  · exact hb.cap_pos
  · intro j x hj
    obtain ⟨hlt,e,he⟩ := hb.slots j x hj
    refine ⟨hlt,?_⟩
    by_cases hx : x = o
    · exact ⟨d',by simp [put, hx]⟩
    · exact ⟨e,by simp [put, hx, he]⟩
  · intro x e hx
    by_cases hxo : x = o
    · exact hxo ▸ hb.fresh o d hat.2
    · exact hb.fresh x e (by simpa [put, hxo] using hx)
  · exact hb.inj
  · intro j x e hj hs
    obtain ⟨hslot,⟨rfl,rfl⟩ | ⟨hne,hx⟩⟩ := (at_put s o d' j x e).mp hj
    · exact hparent hs
    · exact hb.ready j x e ⟨hslot,hx⟩ hs
  · intro j x e hj hs
    obtain ⟨hslot,⟨rfl,rfl⟩ | ⟨hne,hx⟩⟩ := (at_put s o d' j x e).mp hj
    · exact linked_put s _ d _ hat.2 hready _ _ (hlink hs)
    · exact linked_put s o d d' hat.2 hready x e (hb.link j x e ⟨hslot,hx⟩ hs)
  · exact hcount

theorem isLive_put (hd : s.heap o = some d) (h : d'.status = .dead ↔ d.status = .dead) (j : ℕ) :
    isLive (put s o d') j = isLive s j := by
  simp only [isLive, put]
  cases hj : s.dt j with
  | none => rfl
  | some x =>
    by_cases hx : x = o
    · subst hx
      simp [hd, h]
    · simp [hx]

theorem base_put_live (hb : Base s) (hat : At s i o d)
    (hlive : d'.status = .dead ↔ d.status = .dead) (hready : d'.status ≠ .ready)
    (hlink : Linked s o d') : Base (put s o d') := by
  apply base_put s i o d d' s.n_dthread hb hat (fun h => absurd h hready)
    (fun h => absurd h hready) (fun _ => hlink)
  rw [hb.count, occupied_congr s.cap _ _ (fun j _ => isLive_put s o d d' hat.2 hlive j)]

theorem executing_alive (h : Executing d) : d.status ≠ .dead ∧ d.status ≠ .ready := by
  rcases h with h | h
  · simp [h]
  · simp [h]

/-- Giving up control keeps everything but the executing party. -/
theorem park_idle (hi : Inv s) : Idle (park s k) := by
  cases hi.current with
  | main hc hr =>
    have hp : park s k = { s with main := .saved .main k } := by simp only [park, hc]
    rw [hp]
    refine ⟨⟨hi.base.cap_pos,hi.base.slots,hi.base.fresh,hi.base.inj,hi.base.ready,hi.base.link,
      hi.base.count⟩,?_,⟨k,rfl⟩⟩
    intro i o d hat
    exact hi.parked i o d hat (by simp [hc])
  | dthread i o d hc hr hat he =>
    obtain ⟨halive,hstarted⟩ := executing_alive d he
    have hp : park s k =
        put s o { d with status := .suspend, context := .saved (.dthread o) k } := by
      simp only [park, hc, hat.2]
    rw [hp]
    refine ⟨?_,?_,hi.mainSaved (by simp [hc])⟩
    · apply base_put_live s i o d _ hi.base hat
      · simp [halive]
      · simp
      · exact hi.base.link i o d hat hstarted
    · intro j x e hj
      obtain ⟨hslot,⟨rfl,rfl⟩ | ⟨hne,hx⟩⟩ := (at_put s o _ j x e).mp hj
      · exact ⟨by simp,fun _ => ⟨k,rfl⟩⟩
      · exact hi.parked j x e ⟨hslot,hx⟩ (by simp [hc, Ne.symm hne])

theorem base_enter (p : Party) (id : ℤ) (hb : Base s) : Base (enter s p id) :=
  ⟨hb.cap_pos,hb.slots,hb.fresh,hb.inj,hb.ready,hb.link,hb.count⟩

theorem enter_main (hi : Idle s) : Inv (enter s .main (-1)) := by
  refine ⟨base_enter s .main (-1) hi.base,.main rfl rfl,?_,fun h => absurd rfl h⟩
  intro i o d hat _
  exact hi.parked i o d hat

theorem enter_put (hi : Idle s) (hat : At s i o d) (hlive : d.status ≠ .dead) (he : Executing d')
    (hlink : Linked s o d') : Inv (enter (put s o d') (.dthread o) i) := by
  obtain ⟨halive,hready⟩ := executing_alive d' he
  have hb := base_put_live s i o d d' hi.base hat (by simp [halive, hlive]) hready hlink
  refine ⟨base_enter _ _ _ hb,.dthread i o d' rfl rfl ⟨hat.1,by simp [enter, put]⟩ he,?_,
    fun _ => hi.mainSaved⟩
  intro j x e hj hx
  obtain ⟨hslot,⟨rfl,rfl⟩ | ⟨hne,hx'⟩⟩ := (at_put s o d' j x e).mp hj
  · exact absurd rfl hx
  · exact hi.parked j x e ⟨hslot,hx'⟩

theorem put_same (h : s.heap o = some d) : put s o d = s := by
  simp only [put, ← h, Function.update_eq_self]

theorem enter_suspended (hi : Idle s) (hat : At s i o d) (hs : d.status = .suspend) :
    Inv (enter s (.dthread o) i) := by
  have h := enter_put s i o d d hi hat (by simp [hs]) (Or.inr hs)
    (hi.base.link i o d hat (by simp [hs]))
  rwa [put_same s o d hat.2] at h

def finish (s : Sched κ) (o : ℕ) (d : Dthread κ) : Sched κ :=
  { put s o { d with status := .dead } with n_dthread := s.n_dthread-1 }

theorem finish_idle (hi : Inv s) (hc : s.cur = .dthread o) (hat : At s i o d) (he : Executing d) :
    Idle (finish s o d) := by
  obtain ⟨halive,hstarted⟩ := executing_alive d he
  refine ⟨?_,?_,hi.mainSaved (by simp [hc])⟩
  · apply base_put s i o d _ _ hi.base hat
    · simp
    · simp
    · intro _
      exact hi.base.link i o d hat hstarted
    · have hdead : isLive (put s o { d with status := .dead }) i = false := by
        simp [isLive, put, hat.1]
      have hlive : isLive s i = true := by
        rw [isLive_at s i o d hat]
        simp [halive]
      have hother : ∀ j, j ≠ i →
          isLive (put s o { d with status := .dead }) j = isLive s j := by
        intro j hj
        simp only [isLive, put]
        cases hx : s.dt j with
        | none => rfl
        | some x =>
          have hne : x ≠ o := fun h => hj (hi.base.inj j i o (h ▸ hx) hat.1)
          simp [hne]
      have := occupied_flip s.cap i _ _ (hi.base.slots i o hat.1).1 hdead hlive hother
      have hcount := hi.base.count
      omega
  · intro j x e hj
    obtain ⟨hslot,⟨rfl,rfl⟩ | ⟨hne,hx⟩⟩ := (at_put s o _ j x e).mp hj
    · exact ⟨by simp,by simp⟩
    · exact hi.parked j x e ⟨hslot,hx⟩ (by simp [hc, Ne.symm hne])

theorem running_main (hr : s.running_id = -1) : runningDt s = none := by
  simp only [runningDt, hr, if_true]

theorem running_dthread (hr : s.running_id = i) (hat : At s i o d) : runningDt s = some o := by
  have hne : ¬(i:ℤ) = -1 := by omega
  simp only [runningDt, hr, if_neg hne, Int.toNat_natCast, hat.1]

theorem yield_spec (hi : Inv s) :
    (s.cur = .main ∧ dthreadYield s k = .error .assertion) ∨
      ∃ k', dthreadYield s k = .ok (enter (park s k) .main (-1),some k') := by
  cases hi.current with
  | main hc hr =>
    left
    refine ⟨hc,?_⟩
    simp [dthreadYield, hr]
  | dthread i o d hc hr hat he =>
    right
    obtain ⟨k',hk⟩ := hi.mainSaved (by simp [hc])
    refine ⟨k',?_⟩
    simp [dthreadYield, hr, hat.1, modifyDt, hat.2, swapcontext, setcontext, Except.bind, park, hc,
      put, enter, hk]

/-- What the first resume makes of a ready dthread. -/
def started (s : Sched κ) (o : ℕ) (d : Dthread κ) : Dthread κ :=
  { d with
    uc_link := some s.cur
    parent_id := s.running_id
    status := .running
    context := .entry o }

theorem resumeReady_spec (k : κ) (hi : Inv s) (hat : At s i o d) (hs : d.status = .ready) :
    resumeReady s i o k =
      .ok (enter (put (park s k) o (started s o d)) (.dthread o) i,none) := by
  cases hi.current with
  | main hc hr =>
    have hparent := hi.base.ready i o d hat hs
    simp [resumeReady, running_main s hr, modifyDt, hat.2, swapcontext, setcontext, Except.bind,
      park, hc, put, enter, started, hr, hparent]
  | dthread j r e hc hr hrat he =>
    have hne : r ≠ o := by
      intro h
      subst h
      have : e = d := Option.some.inj (hrat.2.symm.trans hat.2)
      subst this
      exact (executing_alive e he).2 hs
    simp [resumeReady, running_dthread s j r e hr hrat, modifyDt, hat.2, hrat.2, hne, hne.symm,
      swapcontext, setcontext, Except.bind, park, hc, put, enter, started, hr,
      Function.update_comm]

theorem resumeSuspended_spec (k : κ) (hi : Inv s) (hat : At s i o d) (hs : d.status = .suspend)
    (hc : s.cur ≠ .dthread o) :
    ∃ k', resumeSuspended s i o k =
      .ok (enter (put (park s k) o { d with status := .running }) (.dthread o) i,some k') := by
  obtain ⟨k',hk⟩ := (hi.parked i o d hat hc).2 hs
  refine ⟨k',?_⟩
  cases hi.current with
  | main hc hr =>
    simp [resumeSuspended, running_main s hr, modifyDt, hat.2, swapcontext, setcontext, Except.bind,
      park, hc, put, enter, hk]
  | dthread j r e hcr hr hrat he =>
    have hne : r ≠ o := fun h => hc (h ▸ hcr)
    simp [resumeSuspended, running_dthread s j r e hr hrat, modifyDt, hat.2, hrat.2, hne, hne.symm,
      swapcontext, setcontext, Except.bind, park, hcr, put, enter, hk, Function.update_comm]

theorem current_at (hi : Inv s) (hc : s.cur = .dthread o) :
    ∃ i d, s.running_id = (i:ℕ) ∧ At s i o d ∧ Executing d := by
  cases hi.current with
  | main hm hr => simp [hm] at hc
  | dthread i r e hcr hr hat he =>
    obtain rfl : r = o := by simpa [hcr] using hc
    exact ⟨i,e,hr,hat,he⟩

/-- A dthread that executes with status suspended may resume itself. -/
theorem resumeSelf_spec (k : κ) (hi : Inv s) (hat : At s i o d) (hc : s.cur = .dthread o) :
    resumeSuspended s i o k = .ok (enter (park s k) (.dthread o) i,some k) := by
  obtain ⟨j,e,hr,hrat,_⟩ := current_at s o hi hc
  simp [resumeSuspended, running_dthread s j o e hr hrat, modifyDt, hat.2, swapcontext,
    setcontext, Except.bind, park, hc, put, enter]

theorem at_park (hat : At s i o d) (hc : s.cur ≠ .dthread o) : At (park s k) i o d := by
  cases hcur : s.cur with
  | main => simpa [park, hcur, At] using hat
  | dthread r =>
    have hne : o ≠ r := fun h => hc (h ▸ hcur)
    cases hr : s.heap r with
    | none => simpa [park, hcur, hr] using hat
    | some e =>
      simp only [park, hcur, hr, at_put]
      exact ⟨hat.1,Or.inr ⟨hne,hat.2⟩⟩

theorem started_linked (hi : Inv s) (hat : At s i o d) (hs : d.status = .ready) :
    Linked (park s k) o (started s o d) := by
  cases hi.current with
  | main hc hr => exact Or.inl ⟨by simp [started, hc],by simp [started, hr]⟩
  | dthread j r e hc hr hrat he =>
    have hpark : park s k =
        put s r { e with status := .suspend, context := .saved (.dthread r) k } := by
      simp only [park, hc, hrat.2]
    refine Or.inr ⟨r,by simp [started, hc],?_,by simp [started, hr],?_,?_⟩
    · intro h
      subst h
      have : e = d := Option.some.inj (hrat.2.symm.trans hat.2)
      subst this
      exact (executing_alive e he).2 hs
    · rw [hpark]
      exact hi.base.fresh r e hrat.2
    · intro f hf
      rw [hpark] at hf
      simp only [put, Function.update_self, Option.some.injEq] at hf
      simp [← hf]

theorem ready_not_current (hi : Inv s) (hat : At s i o d) (hs : d.status = .ready) :
    s.cur ≠ .dthread o := by
  intro hc
  obtain ⟨j,e,_,hrat,he⟩ := current_at s o hi hc
  have : e = d := Option.some.inj (hrat.2.symm.trans hat.2)
  subst this
  exact (executing_alive e he).2 hs

/-- A successful resume returns at once, starts a ready dthread, continues a
suspended one, or continues the executing one when its status is suspended. -/
inductive Resumed (s : Sched κ) (k : κ) : Sched κ → Prop where
  | stay : Resumed s k s
  | start (i o : ℕ) (d : Dthread κ) (hat : At s i o d) (hs : d.status = .ready)
      (hc : s.cur ≠ .dthread o) :
      Resumed s k (enter (put (park s k) o (started s o d)) (.dthread o) i)
  | wake (i o : ℕ) (d : Dthread κ) (hat : At s i o d) (hs : d.status = .suspend)
      (hc : s.cur ≠ .dthread o) :
      Resumed s k (enter (put (park s k) o { d with status := .running }) (.dthread o) i)
  | self (i o : ℕ) (d : Dthread κ) (hat : At s i o d) (hs : d.status = .suspend)
      (hc : s.cur = .dthread o) : Resumed s k (enter (park s k) (.dthread o) i)

theorem resume_cases (id : ℤ) (k : κ) (t : Sched κ) (r : Option κ) (hi : Inv s)
    (h : dthreadResume s id k = .ok (t,r)) : Resumed s k t := by
  by_cases hid : 0 ≤ id ∧ id < s.cap
  · obtain ⟨i,rfl⟩ := Int.eq_ofNat_of_zero_le hid.1
    simp only [dthreadResume, if_pos hid, Int.toNat_natCast] at h
    cases ho : s.dt i with
    | none =>
      simp only [ho, Except.ok.injEq, Prod.mk.injEq] at h
      exact h.1 ▸ .stay
    | some o =>
      obtain ⟨_,d,hd⟩ := hi.base.slots i o ho
      have hat : At s i o d := ⟨ho,hd⟩
      simp only [ho, hd] at h
      cases hs : d.status with
      | dead => simp [hs] at h
      | running => simp [hs] at h
      | ready =>
        simp only [hs, resumeReady_spec s i o d k hi hat hs, Except.ok.injEq, Prod.mk.injEq] at h
        exact h.1 ▸ .start i o d hat hs (ready_not_current s i o d hi hat hs)
      | suspend =>
        simp only [hs] at h
        by_cases hc : s.cur = .dthread o
        · simp only [resumeSelf_spec s i o d k hi hat hc, Except.ok.injEq, Prod.mk.injEq] at h
          exact h.1 ▸ .self i o d hat hs hc
        · obtain ⟨k',hk⟩ := resumeSuspended_spec s i o d k hi hat hs hc
          simp only [hk, Except.ok.injEq, Prod.mk.injEq] at h
          exact h.1 ▸ .wake i o d hat hs hc
  · simp [dthreadResume, hid] at h

theorem at_park_self (hat : At s i o d) (hc : s.cur = .dthread o) :
    At (park s k) i o { d with status := .suspend, context := .saved (.dthread o) k } := by
  simp only [park, hc, hat.2, at_put]
  exact ⟨hat.1,Or.inl ⟨trivial,trivial⟩⟩

theorem resume_keeps (id : ℤ) (k : κ) (t : Sched κ) (r : Option κ) (hi : Inv s)
    (h : dthreadResume s id k = .ok (t,r)) : Inv t := by
  have hidle := park_idle s k hi
  cases resume_cases s id k t r hi h with
  | stay => exact hi
  | start i o d hat hs hc =>
    exact enter_put _ i o d _ hidle (at_park s k i o d hat hc) (by simp [hs]) (Or.inl rfl)
      (started_linked s k i o d hi hat hs)
  | wake i o d hat hs hc =>
    have hpark := at_park s k i o d hat hc
    exact enter_put _ i o d _ hidle hpark (by simp [hs]) (Or.inl rfl)
      (hidle.base.link i o d hpark (by simp [hs]))
  | self i o d hat hs hc =>
    exact enter_suspended _ i o _ hidle (at_park_self s k i o d hat hc) rfl

theorem yield_keeps (r : Option κ) (hi : Inv s) (h : dthreadYield s k = .ok (t,r)) : Inv t := by
  rcases yield_spec s k hi with ⟨_,he⟩ | ⟨k',he⟩
  · rw [he] at h
    cases h
  · rw [he] at h
    cases h
    exact enter_main _ (park_idle s k hi)

/-- The recorded parent of the executing dthread is the main context, or a
dthread in its slot whose function has not returned. -/
def ParentAlive (s : Sched κ) : Prop :=
  ∀ o d, s.cur = .dthread o → s.heap o = some d → d.parent_id = -1 ∨
    ∃ p e, d.uc_link = some (.dthread p) ∧ At s d.parent_id.toNat p e ∧ e.status ≠ .dead

/-- A parent that has not returned waits in its call of resume. -/
theorem parent_suspended (j p : ℕ) (e : Dthread κ) (hi : Inv s) (hc : s.cur = .dthread o)
    (hat : At s i o d) (he : Executing d) (hl : d.uc_link = some (.dthread p)) (hp : At s j p e)
    (halive : e.status ≠ .dead) : p ≠ o ∧ 0 ≤ d.parent_id ∧ e.status = .suspend := by
  rcases hi.base.link i o d hat (executing_alive d he).2 with ⟨hm,_⟩ | ⟨q,hq,hne,hid,_,hready⟩
  · simp [hm] at hl
  · obtain rfl : q = p := by simpa [hq] using hl
    have hparked := hi.parked j q e hp (by simp [hc, Ne.symm hne])
    refine ⟨hne,hid,?_⟩
    cases hs : e.status with
    | dead => exact absurd hs halive
    | ready => exact absurd hs (hready e hp.2)
    | running => exact absurd hs hparked.1
    | suspend => rfl

theorem return_main (hi : Inv s) (hc : s.cur = .dthread o) (hat : At s i o d) (he : Executing d)
    (hp : d.parent_id = -1) :
    ∃ k, entryReturn s = .ok (enter (finish s o d) .main (-1),some k) := by
  obtain ⟨k,hk⟩ := hi.mainSaved (by simp [hc])
  rcases hi.base.link i o d hat (executing_alive d he).2 with ⟨hm,_⟩ | ⟨q,_,_,hid,_⟩
  · refine ⟨k,?_⟩
    simp [entryReturn, hc, hat.2, hm, setcontext, hk, enter, finish, put, hp]
  · omega

theorem return_parent (j p : ℕ) (e : Dthread κ) (hi : Inv s) (hc : s.cur = .dthread o)
    (hat : At s i o d) (hne : p ≠ o) (hl : d.uc_link = some (.dthread p)) (hp : At s j p e)
    (hs : e.status = .suspend) :
    ∃ k, entryReturn s = .ok (enter (finish s o d) (.dthread p) d.parent_id,some k) := by
  obtain ⟨k,hk⟩ := (hi.parked j p e hp (by simp [hc, Ne.symm hne])).2 hs
  refine ⟨k,?_⟩
  simp [entryReturn, hc, hat.2, hl, setcontext, hne, hp.2, hk, enter, finish, put]

/-- Where control continues when a function returns to a parent that has not
returned: in the main context, or in a suspended dthread. -/
theorem return_spec (hi : Inv s) (hg : ParentAlive s) (hc : s.cur = .dthread o) :
    ∃ t k, entryReturn s = .ok (t,some k) ∧ Inv t ∧
      (t.cur = .main ∨ ∃ j p e, t.cur = .dthread p ∧ At s j p e ∧ e.status = .suspend) := by
  obtain ⟨i,d,hr,hat,he⟩ := current_at s o hi hc
  have hidle := finish_idle s i o d hi hc hat he
  rcases hg o d hc hat.2 with hp | ⟨p,e,hl,hp,halive⟩
  · obtain ⟨k,hk⟩ := return_main s i o d hi hc hat he hp
    exact ⟨_,k,hk,enter_main _ hidle,Or.inl rfl⟩
  · obtain ⟨hne,hid,hs⟩ := parent_suspended s i o d _ p e hi hc hat he hl hp halive
    obtain ⟨k,hk⟩ := return_parent s i o d _ p e hi hc hat hne hl hp hs
    refine ⟨_,k,hk,?_,Or.inr ⟨_,p,e,rfl,hp,hs⟩⟩
    have hpf : At (finish s o d) d.parent_id.toNat p e :=
      (at_put s o _ _ p e).mpr ⟨hp.1,Or.inr ⟨hne,hp.2⟩⟩
    have h := enter_suspended _ _ p e hidle hpf hs
    rwa [Int.toNat_of_nonneg hid] at h

theorem return_current (r : Option κ) (h : entryReturn s = .ok (t,r)) :
    ∃ o, s.cur = .dthread o := by
  cases hc : s.cur with
  | main => simp [entryReturn, hc] at h
  | dthread o => exact ⟨o,rfl⟩

theorem return_keeps (r : Option κ) (hi : Inv s) (hg : ParentAlive s)
    (h : entryReturn s = .ok (t,r)) : Inv t := by
  obtain ⟨o,hc⟩ := return_current s t r h
  obtain ⟨t',k,h',ht,_⟩ := return_spec s o hi hg hc
  rw [h'] at h
  cases h
  exact ht

theorem slot_free (hb : Base s) (h : isLive s i = false) :
    s.dt i = none ∨ ∃ o d, At s i o d ∧ d.status = .dead := by
  cases ho : s.dt i with
  | none => exact Or.inl rfl
  | some o =>
    obtain ⟨_,d,hd⟩ := hb.slots i o ho
    rw [isLive_at s i o d ⟨ho,hd⟩] at h
    exact Or.inr ⟨o,d,⟨ho,hd⟩,by simpa using h⟩

/-- The slot search finds a free slot when there is one. -/
theorem findSlot_spec (n id : ℕ) (hb : Base s) (hn : n ≤ s.cap)
    (h : ∃ i, s.cap-n ≤ i ∧ i < s.cap ∧ isLive s i = false) :
    ∃ i < s.cap, findSlot s n id = .ok i ∧ isLive s i = false := by
  induction n generalizing id with
  | zero =>
    obtain ⟨i,h1,h2,_⟩ := h
    omega
  | succ n ih =>
    have hid : (s.cap-(n+1)+s.cap) % s.cap = s.cap-(n+1) := by
      rw [Nat.add_mod_right, Nat.mod_eq_of_lt (by omega)]
    simp only [findSlot, hid]
    by_cases hfree : isLive s (s.cap-(n+1)) = false
    · refine ⟨s.cap-(n+1),by omega,?_,hfree⟩
      rcases slot_free s _ hb hfree with hnone | ⟨o,d,hat,hdead⟩
      · simp [hnone]
      · simp [hat.1, hat.2, hdead]
    · have hnext : ∃ i, s.cap-n ≤ i ∧ i < s.cap ∧ isLive s i = false := by
        obtain ⟨i,h1,h2,h3⟩ := h
        refine ⟨i,?_,h2,h3⟩
        by_contra hlt
        have : i = s.cap-(n+1) := by omega
        exact hfree (this ▸ h3)
      cases ho : s.dt (s.cap-(n+1)) with
      | none => simp [isLive, ho] at hfree
      | some o =>
        obtain ⟨_,d,hd⟩ := hb.slots _ o ho
        rw [isLive_at s _ o d ⟨ho,hd⟩] at hfree
        have hlive : ¬d.status = .dead := by simpa using hfree
        simp only [hd, if_neg hlive]
        exact ih (s.cap-(n+1)) (by omega) hnext

theorem chooseSlot_spec (hb : Base s) :
    ∃ cap id, chooseSlot s = .ok ({ s with cap := cap },id) ∧ s.cap ≤ cap ∧ id < cap ∧
      isLive s id = false := by
  have hbehind : ∀ i, s.cap ≤ i → s.dt i = none := by
    intro i hi
    cases ho : s.dt i with
    | none => rfl
    | some o =>
      have := (hb.slots i o ho).1
      omega
  by_cases hfull : (s.cap:ℤ) ≤ s.n_dthread
  · refine ⟨s.cap*2,s.cap,?_,by omega,by have := hb.cap_pos; omega,?_⟩
    · have hdt : (fun i => if s.cap ≤ i ∧ i < s.cap*2 then none else s.dt i) = s.dt := by
        funext i
        split_ifs with h
        · exact (hbehind i h.1).symm
        · rfl
      simp only [chooseSlot, if_pos hfull, hdt]
    · simp [isLive, hbehind s.cap le_rfl]
  · have hlt : occupied s.cap (isLive s) < s.cap := by
      have := hb.count
      omega
    obtain ⟨i,hi,hfree⟩ := free_slot s.cap (isLive s) hlt
    obtain ⟨id,hid,hfind,hidfree⟩ := findSlot_spec s s.cap 0 hb le_rfl ⟨i,by omega,hi,hfree⟩
    refine ⟨s.cap,id,?_,le_rfl,hid,hidfree⟩
    simp only [chooseSlot, if_neg hfull, hfind, Except.map]

/-- A new dthread in a free slot; a dead dthread found there is released. -/
structure Created (s t : Sched κ) (id : ℕ) : Prop where
  free : isLive s id = false
  grows : s.cap ≤ t.cap
  inside : id < t.cap
  cur : t.cur = s.cur
  running_id : t.running_id = s.running_id
  main : t.main = s.main
  n_dthread : t.n_dthread = s.n_dthread+1
  next : t.next = s.next+1
  dt : ∀ j, t.dt j = if j = id then some s.next else s.dt j
  heap : ∀ x, t.heap x = if x = s.next then some newDthread
    else if s.dt id = some x then none else s.heap x

theorem create_spec (hb : Base s) : ∃ t id, dthreadCreate s = .ok (t,id) ∧ Created s t id := by
  obtain ⟨cap,id,hchoose,hgrows,hinside,hfree⟩ := chooseSlot_spec s hb
  rcases slot_free s id hb hfree with hnone | ⟨o,d,hat,hdead⟩
  · have hcreate : dthreadCreate s = .ok ({ s with
        cap := cap
        heap := Function.update s.heap s.next (some newDthread)
        next := s.next+1
        dt := Function.update s.dt id (some s.next)
        n_dthread := s.n_dthread+1 },id) := by
      simp [dthreadCreate, hchoose, Except.bind, release, hnone]
    refine ⟨_,id,hcreate,hfree,hgrows,hinside,rfl,rfl,rfl,rfl,rfl,?_,?_⟩
    · intro j
      simp [Function.update_apply]
    · intro x
      simp [Function.update_apply, hnone]
  · have hcreate : dthreadCreate s = .ok ({ s with
        cap := cap
        heap := Function.update (Function.update s.heap o none) s.next (some newDthread)
        next := s.next+1
        dt := Function.update s.dt id (some s.next)
        n_dthread := s.n_dthread+1 },id) := by
      simp [dthreadCreate, hchoose, Except.bind, release, hat.1, hat.2, hdead]
    refine ⟨_,id,hcreate,hfree,hgrows,hinside,rfl,rfl,rfl,rfl,rfl,?_,?_⟩
    · intro j
      simp [Function.update_apply]
    · intro x
      simp [Function.update_apply, hat.1, eq_comm]

theorem create_created (hb : Base s) (h : dthreadCreate s = .ok (t,id)) : Created s t id := by
  obtain ⟨t',id',h',hc⟩ := create_spec s hb
  rw [h'] at h
  cases h
  exact hc

theorem created_at (hb : Base s) (hc : Created s t id) (j x : ℕ) (e : Dthread κ) :
    At t j x e ↔ (j = id ∧ x = s.next ∧ e = newDthread) ∨ (j ≠ id ∧ At s j x e) := by
  simp only [At, hc.dt, hc.heap]
  by_cases hj : j = id
  · subst hj
    simp only [if_true, Option.some.injEq, ne_eq, not_true_eq_false, false_and, or_false, true_and]
    constructor
    · rintro ⟨rfl,h⟩
      simpa [eq_comm] using h
    · rintro ⟨rfl,rfl⟩
      simp
  · simp only [false_and, false_or, ne_eq, hj, not_false_eq_true, true_and]
    constructor
    · rintro ⟨hdt,h⟩
      obtain ⟨_,d,hd⟩ := hb.slots j x hdt
      have hne : x ≠ s.next := (hb.fresh x d hd).ne
      have hkeep : ¬s.dt id = some x := fun h => hj (hb.inj j id x hdt h)
      exact ⟨hdt,by simpa [hne, hkeep] using h⟩
    · rintro ⟨hdt,h⟩
      have hne : x ≠ s.next := (hb.fresh x e h).ne
      have hkeep : ¬s.dt id = some x := fun h => hj (hb.inj j id x hdt h)
      exact ⟨hdt,by simpa [hne, hkeep] using h⟩

theorem created_live (hb : Base s) (hc : Created s t id) (j : ℕ) :
    isLive t j = if j = id then true else isLive s j := by
  by_cases hj : j = id
  · have hat : At t j s.next newDthread := (created_at s t id hb hc _ _ _).mpr (Or.inl ⟨hj,rfl,rfl⟩)
    rw [isLive_at t j _ _ hat, if_pos hj]
    rfl
  · rw [if_neg hj]
    cases ho : s.dt j with
    | none => simp [isLive, hc.dt, hj, ho]
    | some o =>
      obtain ⟨_,d,hd⟩ := hb.slots j o ho
      have hat : At t j o d := (created_at s t id hb hc _ _ _).mpr (Or.inr ⟨hj,ho,hd⟩)
      rw [isLive_at t j o d hat, isLive_at s j o d ⟨ho,hd⟩]

theorem created_count (hb : Base s) (hc : Created s t id) :
    t.n_dthread = occupied t.cap (isLive t) := by
  have hbehind : ∀ i, s.cap ≤ i → isLive s i = false := by
    intro i hi
    cases ho : s.dt i with
    | none => simp [isLive, ho]
    | some o =>
      have := (hb.slots i o ho).1
      omega
  have hflip := occupied_flip t.cap id (isLive s) (isLive t) hc.inside hc.free
    (by rw [created_live s t id hb hc, if_pos rfl])
    (fun j hj => by rw [created_live s t id hb hc, if_neg hj])
  rw [hflip, occupied_extend s.cap t.cap (isLive s) hc.grows hbehind, hc.n_dthread, hb.count]
  rfl

theorem created_linked (hc : Created s t id) (x : ℕ) (e : Dthread κ) (h : Linked s x e) :
    Linked t x e := by
  rcases h with h | ⟨p,hlink,hne,hid,hnext,hstatus⟩
  · exact Or.inl h
  · refine Or.inr ⟨p,hlink,hne,hid,by rw [hc.next]; omega,?_⟩
    intro f hf
    rw [hc.heap, if_neg hnext.ne] at hf
    split_ifs at hf
    exact hstatus f hf

theorem created_base (hb : Base s) (hc : Created s t id) : Base t := by
  have hold := created_at s t id hb hc
  constructor
  · exact lt_of_lt_of_le hb.cap_pos hc.grows
  · intro j o ho
    by_cases hj : j = id
    · have hat : At t j s.next newDthread := (hold _ _ _).mpr (Or.inl ⟨hj,rfl,rfl⟩)
      obtain rfl : s.next = o := Option.some.inj (hat.1.symm.trans ho)
      exact ⟨hj ▸ hc.inside,_,hat.2⟩
    · rw [hc.dt, if_neg hj] at ho
      obtain ⟨hlt,d,hd⟩ := hb.slots j o ho
      have hat : At t j o d := (hold _ _ _).mpr (Or.inr ⟨hj,ho,hd⟩)
      exact ⟨lt_of_lt_of_le hlt hc.grows,d,hat.2⟩
  · intro o d hd
    rw [hc.next]
    rw [hc.heap] at hd
    split_ifs at hd with h1 h2
    · omega
    · have := hb.fresh o d hd
      omega
  · intro i j o hi hj
    have hfree : ∀ k, s.dt k ≠ some s.next := by
      intro k hk
      obtain ⟨_,d,hd⟩ := hb.slots k _ hk
      exact absurd (hb.fresh _ d hd) (lt_irrefl _)
    rw [hc.dt] at hi hj
    split_ifs at hi hj with h1 h2 h2
    · rw [h1, h2]
    · exact absurd (hj.trans hi.symm) (hfree j)
    · exact absurd (hi.trans hj.symm) (hfree i)
    · exact hb.inj i j o hi hj
  · intro j x e hat hs
    rcases (hold j x e).mp hat with ⟨_,_,rfl⟩ | ⟨_,hat⟩
    · rfl
    · exact hb.ready j x e hat hs
  · intro j x e hat hs
    rcases (hold j x e).mp hat with ⟨_,_,rfl⟩ | ⟨_,hat⟩
    · exact absurd rfl hs
    · exact created_linked s t id hc x e (hb.link j x e hat hs)
  · exact created_count s t id hb hc

theorem created_inv (hi : Inv s) (hc : Created s t id) : Inv t := by
  have hold := created_at s t id hi.base hc
  refine ⟨created_base s t id hi.base hc,?_,?_,?_⟩
  · cases hi.current with
    | main hm hr => exact .main (hc.cur.trans hm) (hc.running_id.trans hr)
    | dthread i o d hcur hr hat he =>
      have hne : i ≠ id := by
        intro h
        have hfree := hc.free
        rw [← h, isLive_at s i o d hat] at hfree
        simp [(executing_alive d he).1] at hfree
      exact .dthread i o d (hc.cur.trans hcur) (hc.running_id.trans hr)
        ((hold _ _ _).mpr (Or.inr ⟨hne,hat⟩)) he
  · intro j x e hat hcur
    rcases (hold j x e).mp hat with ⟨_,_,rfl⟩ | ⟨_,hat⟩
    · exact ⟨by simp [newDthread],by simp [newDthread]⟩
    · exact hi.parked j x e hat (hc.cur ▸ hcur)
  · intro hcur
    rw [hc.main]
    exact hi.mainSaved (hc.cur ▸ hcur)

theorem open_inv : Inv (dthreadOpen : Sched κ) := by
  have hempty : ∀ i o d, ¬At (dthreadOpen : Sched κ) i o d := by
    intro i o d hat
    cases hat.1
  refine ⟨⟨Nat.succ_pos 15,?_,?_,?_,?_,?_,?_⟩,.main rfl rfl,?_,fun h => absurd rfl h⟩
  · intro i o h
    cases h
  · intro o d h
    cases h
  · intro i j o h
    cases h
  · intro i o d hat
    exact absurd hat (hempty i o d)
  · intro i o d hat
    exact absurd hat (hempty i o d)
  · rfl
  · intro i o d hat
    exact absurd hat (hempty i o d)

end Duda.SchedulerInvariant
