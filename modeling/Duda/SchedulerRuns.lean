import Duda.ControlPlace
import Duda.SchedulerInvariant

/-!
# Runs of the scheduler

Creating, resuming and yielding keep the invariant in any state; a returning
function keeps it when the recorded parent has not returned. Three properties
of runs are read off: who may have the running status, where control goes when
a function returns, and what the counter of dthreads counts.
-/

set_option autoImplicit false

namespace Duda.SchedulerRuns
open Duda.ControlPlace Duda.Runs Duda.Scheduler Duda.SchedulerInvariant Duda.SlotCount

theorem map_fst_ok {α β ε : Type} (r : Except ε (α × β)) (a : α) (h : r.map Prod.fst = .ok a) :
    ∃ b, r = .ok (a,b) := by
  obtain ⟨⟨x,b⟩,hr,rfl⟩ := map_ok h
  exact ⟨b,hr⟩

variable (s t : Sched Unit) (o : ℕ) (d : Dthread Unit) (a : Action)

theorem onStack_ok (hi : Inv s) : onStack s = .ok () := by
  cases hi.current with
  | main hc hr => simp only [onStack, hc]
  | dthread i o d hc hr hat he => simp only [onStack, hc, hat.2]

/-- What a successful step did. -/
inductive Did (s : Sched Unit) : Action → Sched Unit → Prop where
  | create (t : Sched Unit) (id : ℕ) (h : dthreadCreate s = .ok (t,id)) : Did s .create t
  | resume (id : ℤ) (t : Sched Unit) (r : Option Unit) (h : dthreadResume s id () = .ok (t,r)) :
      Did s (.resume id) t
  | yield (t : Sched Unit) (r : Option Unit) (h : dthreadYield s () = .ok (t,r)) : Did s .yield t
  | ret (t : Sched Unit) (r : Option Unit) (h : entryReturn s = .ok (t,r)) : Did s .ret t

theorem step_did (hi : Inv s) (h : step s a = .ok t) : Did s a t := by
  simp only [step, onStack_ok s hi, Except.bind] at h
  cases a with
  | create =>
    obtain ⟨id,h⟩ := map_fst_ok _ t h
    exact .create t id h
  | resume id =>
    obtain ⟨r,h⟩ := map_fst_ok _ t h
    exact .resume id t r h
  | yield =>
    obtain ⟨r,h⟩ := map_fst_ok _ t h
    exact .yield t r h
  | ret =>
    obtain ⟨r,h⟩ := map_fst_ok _ t h
    exact .ret t r h

theorem step_keeps (hi : Inv s) (hg : a = .ret → ParentAlive s) (h : step s a = .ok t) : Inv t := by
  cases step_did s t a hi h with
  | create _ id h => exact created_inv s t id hi (create_created s t id hi.base h)
  | resume id _ r h => exact resume_keeps s id () t r hi h
  | yield _ r h => exact yield_keeps s () t r hi h
  | ret _ r h =>
    exact return_keeps s t r hi (hg rfl) h

/-- The slot `running_id` alone has the running status, and no slot has it
when the main context runs. -/
def Exclusive (s : Sched Unit) : Prop :=
  (s.running_id ≠ -1 → ∃ i o d, s.running_id = (i:ℕ) ∧ At s i o d ∧ d.status = .running ∧
    ∀ j x e, At s j x e → e.status = .running → j = i) ∧
  (s.running_id = -1 → ∀ j x e, At s j x e → e.status ≠ .running)

/-- The executing dthread, if it returns now, was started by the main context. -/
def StartedByMain (s : Sched Unit) : Action → Prop
  | .ret => ∀ o d, s.cur = .dthread o → s.heap o = some d → d.parent_id = -1
  | _ => True

def Awake (s : Sched Unit) : Prop :=
  ∀ o d, s.cur = .dthread o → s.heap o = some d → d.status = .running

theorem exclusive_of_awake (hi : Inv s) (ha : Awake s) : Exclusive s := by
  cases hi.current with
  | main hc hr =>
    refine ⟨fun h => absurd hr h,?_⟩
    intro _ j x e hat
    exact (hi.parked j x e hat (by simp [hc])).1
  | dthread i o d hc hr hat he =>
    refine ⟨fun _ => ⟨i,o,d,hr,hat,ha o d hc hat.2,?_⟩,fun h => by omega⟩
    intro j x e hj hs
    by_cases hx : s.cur = .dthread x
    · obtain rfl : o = x := by simpa [hc] using hx
      exact hi.base.inj j i o hj.1 hat.1
    · exact absurd hs (hi.parked j x e hj hx).1

theorem started_parent_alive (h : StartedByMain s .ret) : ParentAlive s := by
  intro o d hc hd
  exact Or.inl (h o d hc hd)

theorem awake_put (id : ℤ) (h : d.status = .running) :
    Awake (enter (put s o d) (.dthread o) id) := by
  intro x e hc he
  simp only [enter, Party.dthread.injEq] at hc
  subst hc
  simp only [enter, put, Function.update_self, Option.some.injEq] at he
  rw [← he, h]

theorem resume_awake (id : ℤ) (r : Option Unit) (hi : Inv s) (ha : Awake s)
    (h : dthreadResume s id () = .ok (t,r)) : Awake t := by
  cases resume_cases s id () t r hi h with
  | stay => exact ha
  | start i o d hat hs hc => exact awake_put _ o _ i rfl
  | wake i o d hat hs hc => exact awake_put _ o _ i rfl
  | self i o d hat hs hc =>
    have := ha o d hc hat.2
    simp [hs] at this

theorem awake_main (h : s.cur = .main) : Awake s := by
  intro o d hc
  simp [h] at hc

theorem step_awake (hi : Inv s) (ha : Awake s) (hg : StartedByMain s a) (h : step s a = .ok t) :
    Awake t := by
  cases step_did s t a hi h with
  | create _ id h =>
    have hcr := create_created s t id hi.base h
    intro o d hc hd
    obtain ⟨i,e,hr,hat,he⟩ := current_at s o hi (hcr.cur ▸ hc)
    have hne : o ≠ s.next := (hi.base.fresh o e hat.2).ne
    rw [hcr.heap, if_neg hne] at hd
    split_ifs at hd
    exact ha o d (hcr.cur ▸ hc) hd
  | resume id _ r h => exact resume_awake s t id r hi ha h
  | yield _ r h =>
    rcases yield_spec s () hi with ⟨_,he⟩ | ⟨k',he⟩
    · rw [he] at h
      cases h
    · rw [he] at h
      cases h
      exact awake_main _ rfl
  | ret _ r h =>
    obtain ⟨o,hc⟩ := return_current s t r h
    obtain ⟨i,d,hr,hat,he⟩ := current_at s o hi hc
    obtain ⟨k,hk⟩ := return_main s i o d hi hc hat he (hg o d hc hat.2)
    rw [hk] at h
    cases h
    exact awake_main _ rfl

/-- A return to another dthread makes its slot current without giving it the
running status. -/
theorem return_not_exclusive (r : Option Unit) (hi : Inv s) (hc : s.cur = .dthread o)
    (hd : s.heap o = some d) (hp : d.parent_id ≠ -1) (h : entryReturn s = .ok (t,r)) :
    ¬Exclusive t := by
  intro he
  obtain ⟨hr,_,hdt,hheap⟩ := return_shape s t o d r hc hd h
  obtain ⟨i,x,e,_,hat,hs,_⟩ := he.1 (by rw [hr]; exact hp)
  rw [At, hdt, hheap] at hat
  by_cases hx : x = o
  · subst hx
    simp only [Function.update_self, Option.some.injEq] at hat
    rw [← hat.2] at hs
    cases hs
  · rw [Function.update_of_ne hx] at hat
    exact (hi.parked i x e hat (by simp [hc, Ne.symm hx])).1 hs

theorem step_exclusive_iff (hi : Inv s ∧ Awake s) :
    After Exclusive s a (step s a) ↔ Taken StartedByMain s a (step s a) := by
  constructor
  · intro h t ht
    cases a with
    | ret =>
      intro o d hc hd
      by_contra hp
      cases step_did s t .ret hi.1 ht with
      | ret _ r hr => exact return_not_exclusive s t o d r hi.1 hc hd hp hr (h t ht)
    | create => trivial
    | resume id => trivial
    | yield => trivial
  · intro h t ht
    have hg := h t ht
    apply exclusive_of_awake t
    · apply step_keeps s t a hi.1 _ ht
      intro ha
      subst ha
      exact started_parent_alive s hg
    · exact step_awake s t a hi.1 hi.2 hg ht

theorem step_keeps_awake (t : Sched Unit) (hi : Inv s ∧ Awake s)
    (hg : Taken StartedByMain s a (Except.ok t : Except Fault (Sched Unit)))
    (h : step s a = .ok t) : Inv t ∧ Awake t := by
  have hstart := hg t rfl
  refine ⟨step_keeps s t a hi.1 ?_ h,step_awake s t a hi.1 hi.2 hstart h⟩
  intro ha
  subst ha
  exact started_parent_alive s hstart

/-- The running status stays exclusive along a run exactly when only dthreads
started by the main context return. -/
theorem running_exclusive_iff (as : List Action) :
    Along step (After Exclusive) as dthreadOpen ↔
      Along step (Taken StartedByMain) as dthreadOpen :=
  along_iff step_keeps_awake step_exclusive_iff as dthreadOpen ⟨open_inv,awake_main _ rfl⟩

/-- A child returns to the dthread that started it: the parent's slot is
current, and its status is still suspended. -/
theorem running_not_exclusive :
    Yields (run step [.create,.create,.resume 0,.resume 1,.ret] dthreadOpen)
      (fun s => s.running_id = 0 ∧ s.dt 0 = some 0 ∧
        (s.heap 0).map Dthread.status = some .suspend) := by
  decide

/-- The recorded parent of a started and unfinished dthread: the main context,
or a dthread in its slot that has not finished either. -/
def ParentOk (s : Sched Unit) (d : Dthread Unit) : Prop :=
  d.parent_id = -1 ∨ ∃ p e, d.uc_link = some (.dthread p) ∧ At s d.parent_id.toNat p e ∧
    e.status ≠ .dead

def Nested (s : Sched Unit) : Prop :=
  ∀ i o d, At s i o d → d.status ≠ .dead → d.status ≠ .ready → ParentOk s d

/-- The executing dthread does not return while a dthread that it was the first
to resume is unfinished. -/
def NoOrphan (s : Sched Unit) : Action → Prop
  | .ret => ∀ o, s.cur = .dthread o → ∀ i x e, At s i x e → e.status ≠ .dead →
      e.uc_link ≠ some (.dthread o)
  | _ => True

theorem parentOk_put (d' e : Dthread Unit) (hd : s.heap o = some d)
    (hlive : d'.status = .dead → d.status = .dead) (h : ParentOk s e) :
    ParentOk (put s o d') e := by
  rcases h with h | ⟨p,f,hl,hat,hf⟩
  · exact Or.inl h
  · by_cases hp : p = o
    · subst hp
      have : f = d := Option.some.inj (hat.2.symm.trans hd)
      subst this
      refine Or.inr ⟨p,d',hl,⟨hat.1,by simp [put]⟩,fun hdead => hf (hlive hdead)⟩
    · exact Or.inr ⟨p,f,hl,⟨hat.1,by simp [put, hp, hat.2]⟩,hf⟩

theorem nested_put (d' : Dthread Unit) (hn : Nested s) (hd : s.heap o = some d)
    (hlive : d'.status = .dead → d.status = .dead)
    (hown : d'.status ≠ .dead → d'.status ≠ .ready → ParentOk s d') : Nested (put s o d') := by
  intro i x e hat hdead hready
  obtain ⟨hslot,⟨rfl,rfl⟩ | ⟨hne,hx⟩⟩ := (at_put s o d' i x e).mp hat
  · exact parentOk_put s _ d _ _ hd hlive (hown hdead hready)
  · exact parentOk_put s o d d' e hd hlive (hn i x e ⟨hslot,hx⟩ hdead hready)

theorem nested_park (hi : Inv s) (hn : Nested s) : Nested (park s ()) := by
  cases hi.current with
  | main hc hr =>
    simp only [park, hc]
    exact hn
  | dthread i o d hc hr hat he =>
    obtain ⟨halive,hstarted⟩ := executing_alive d he
    have hown : ParentOk s d := hn i o d hat halive hstarted
    simp only [park, hc, hat.2]
    exact nested_put s o d _ hn hat.2 (by simp) (fun _ _ => hown)

theorem started_parentOk (hi : Inv s) : ParentOk (park s ()) (started s o d) := by
  cases hi.current with
  | main hc hr => exact Or.inl (by simp [started, hr])
  | dthread j r e hc hr hrat he =>
    have hat := at_park_self s () j r e hrat hc
    have hj : (started s o d).parent_id.toNat = j := by simp [started, hr]
    exact Or.inr ⟨r,_,by simp [started, hc],hj ▸ hat,by simp⟩

theorem resume_nested (id : ℤ) (r : Option Unit) (hi : Inv s) (hn : Nested s)
    (h : dthreadResume s id () = .ok (t,r)) : Nested t := by
  have hpark := nested_park s hi hn
  cases resume_cases s id () t r hi h with
  | stay => exact hn
  | start i o d hat hs hc =>
    exact nested_put _ o d _ hpark (at_park s () i o d hat hc).2 (by simp [started])
      (fun _ _ => started_parentOk s o d hi)
  | wake i o d hat hs hc =>
    have hown := at_park s () i o d hat hc
    exact nested_put _ o d _ hpark hown.2 (by simp)
      (fun _ _ => hpark i o d hown (by simp [hs]) (by simp [hs]))
  | self i o d hat hs hc => exact hpark

theorem created_nested (id : ℕ) (hi : Inv s) (hn : Nested s) (hc : Created s t id) : Nested t := by
  have hold := created_at s t id hi.base hc
  intro i o d hat hdead hready
  rcases (hold i o d).mp hat with ⟨_,_,rfl⟩ | ⟨_,hat⟩
  · exact absurd rfl hready
  · rcases hn i o d hat hdead hready with h | ⟨p,e,hl,hp,he⟩
    · exact Or.inl h
    · have hne : d.parent_id.toNat ≠ id := by
        intro h
        have hfree := hc.free
        rw [← h, isLive_at s _ p e hp] at hfree
        simp [he] at hfree
      exact Or.inr ⟨p,e,hl,(hold _ _ _).mpr (Or.inr ⟨hne,hp⟩),he⟩

theorem nested_finish (i o : ℕ) (d : Dthread Unit) (hn : Nested s) (hat : At s i o d)
    (hg : ∀ j x e, At s j x e → e.status ≠ .dead → e.uc_link ≠ some (.dthread o)) :
    Nested (finish s o d) := by
  intro j x e hj hdead hready
  obtain ⟨hslot,⟨rfl,rfl⟩ | ⟨hne,hx⟩⟩ := (at_put s o { d with status := .dead } j x e).mp hj
  · exact absurd rfl hdead
  · rcases hn j x e ⟨hslot,hx⟩ hdead hready with h | ⟨p,f,hl,hp,hf⟩
    · exact Or.inl h
    · have hpo : p ≠ o := fun h => hg j x e ⟨hslot,hx⟩ hdead (h ▸ hl)
      refine Or.inr ⟨p,f,hl,?_,hf⟩
      exact (at_put s o _ _ p f).mpr ⟨hp.1,Or.inr ⟨hpo,hp.2⟩⟩

theorem nested_parent_alive (hi : Inv s) (hn : Nested s) : ParentAlive s := by
  intro o d hc hd
  obtain ⟨i,e,hr,hat,he⟩ := current_at s o hi hc
  have : e = d := Option.some.inj (hat.2.symm.trans hd)
  subst this
  obtain ⟨halive,hstarted⟩ := executing_alive e he
  exact hn i o e hat halive hstarted

theorem ret_nested (r : Option Unit) (hi : Inv s) (hn : Nested s) (hg : NoOrphan s .ret)
    (h : entryReturn s = .ok (t,r)) : Nested t := by
  obtain ⟨o,hc⟩ := return_current s t r h
  obtain ⟨i,d,hr,hat,he⟩ := current_at s o hi hc
  have hfinish := nested_finish s i o d hn hat (hg o hc)
  obtain ⟨_,_,hdt,hheap⟩ := return_shape s t o d r hc hat.2 h
  have hsame : ∀ j x e, At t j x e ↔ At (finish s o d) j x e := by
    intro j x e
    rw [At, hdt, hheap]
    rfl
  intro j x e hj hdead hready
  rcases hfinish j x e ((hsame j x e).mp hj) hdead hready with h | ⟨p,f,hl,hp,hf⟩
  · exact Or.inl h
  · exact Or.inr ⟨p,f,hl,(hsame _ p f).mpr hp,hf⟩

theorem step_nested (hi : Inv s) (hn : Nested s) (hg : NoOrphan s a) (h : step s a = .ok t) :
    Nested t := by
  cases step_did s t a hi h with
  | create _ id h => exact created_nested s t id hi hn (create_created s t id hi.base h)
  | resume id _ r h => exact resume_nested s t id r hi hn h
  | yield _ r h =>
    rcases yield_spec s () hi with ⟨_,he⟩ | ⟨k',he⟩
    · rw [he] at h
      cases h
    · rw [he] at h
      cases h
      exact nested_park s hi hn
  | ret _ r h => exact ret_nested s t r hi hn hg h

/-- A return continues in the main context or in a suspended dthread that is in
its slot, and the dthread that executes after any step has not returned. -/
def Continues (s : Sched Unit) (a : Action) (r : Except Fault (Sched Unit)) : Prop :=
  (a = .ret → match r with
    | .ok t => t.cur = .main ∨ ∃ j p e, t.cur = .dthread p ∧ At s j p e ∧ e.status = .suspend
    | .error e => e = .notDthread) ∧
  ∀ t, r = .ok t → ∀ o, t.cur = .dthread o → ∃ d, t.heap o = some d ∧ d.status ≠ .dead

theorem inv_not_dead (hi : Inv s) (o : ℕ) (hc : s.cur = .dthread o) :
    ∃ d, s.heap o = some d ∧ d.status ≠ .dead := by
  obtain ⟨i,d,hr,hat,he⟩ := current_at s o hi hc
  exact ⟨d,hat.2,(executing_alive d he).1⟩

theorem step_keeps_nested (t : Sched Unit) (hi : Inv s ∧ Nested s)
    (hg : Taken NoOrphan s a (Except.ok t : Except Fault (Sched Unit))) (h : step s a = .ok t) :
    Inv t ∧ Nested t :=
  ⟨step_keeps s t a hi.1 (fun _ => nested_parent_alive s hi.1 hi.2) h,
    step_nested s t a hi.1 hi.2 (hg t rfl) h⟩

theorem step_continues (hi : Inv s ∧ Nested s) : Continues s a (step s a) := by
  have halive := nested_parent_alive s hi.1 hi.2
  constructor
  · intro ha
    subst ha
    cases hc : s.cur with
    | main =>
      have hr : step s .ret = .error .notDthread := by
        simp [step, onStack, hc, Except.bind, entryReturn, Except.map]
      rw [hr]
    | dthread o =>
      obtain ⟨t,k,hret,_,hto⟩ := return_spec s o hi.1 halive hc
      have hr : step s .ret = .ok t := by
        simp [step, onStack_ok s hi.1, Except.bind, hret, Except.map]
      rw [hr]
      exact hto
  · intro t ht o hc
    exact inv_not_dead t (step_keeps s t a hi.1 (fun _ => halive) ht) o hc

theorem open_nested : Nested dthreadOpen := by
  intro i o d hat
  cases hat.1

/-- Along a run in which no dthread returns before the dthreads it started,
every return continues in a party that waits for it. -/
theorem return_continues (as : List Action)
    (h : Along step (Taken NoOrphan) as dthreadOpen) : Along step Continues as dthreadOpen :=
  along_of_invariant step_keeps_nested (fun s a hi _ => step_continues s a hi) as dthreadOpen
    ⟨open_inv,open_nested⟩ h

/-- A dthread starts another one, which returns to it, and then returns itself. -/
def nestedResume : List Action := [.create,.create,.resume 0,.resume 1,.ret,.ret]

theorem nested_return_continues :
    Along step (Taken NoOrphan) nestedResume dthreadOpen ∧
      Along step Continues nestedResume dthreadOpen := by
  have h : Along step (Taken NoOrphan) nestedResume dthreadOpen := by
    refine ⟨fun _ _ => trivial,fun s hs => ⟨fun _ _ => trivial,fun t ht => ⟨fun _ _ => trivial,
      fun u hu => ⟨fun _ _ => trivial,fun v hv => ⟨?_,fun w hw => ⟨?_,fun _ _ => trivial⟩⟩⟩⟩⟩⟩
    · -- the child is the parent of no dthread
      cases hs
      cases ht
      cases hu
      cases hv
      intro w _ o hc i x e hat _ hl
      cases hc
      rcases x with _ | _ | x
      · cases hat.2
        cases hl
      · cases hat.2
        cases hl
      · cases hat.2
    · -- the child is dead when its parent returns
      cases hs
      cases ht
      cases hu
      cases hv
      cases hw
      intro w _ o hc i x e hat hlive hl
      cases hc
      rcases x with _ | _ | x
      · cases hat.2
        cases hl
      · cases hat.2
        exact hlive rfl
      · cases hat.2
  exact ⟨h,return_continues _ h⟩

/-- The parent returns while its child waits in a yield, and the child's return
continues in the dead parent. -/
theorem return_to_dead :
    Yields (run step [.create,.create,.resume 0,.resume 1,.yield,.resume 0,.ret,.resume 1]
        dthreadOpen)
      (fun s => s.cur = .dthread 1 ∧ s.dt 0 = some 0 ∧
        (s.heap 0).map Dthread.status = some .dead) ∧
    Yields (run step [.create,.create,.resume 0,.resume 1,.yield,.resume 0,.ret,.resume 1,.ret]
        dthreadOpen)
      (fun s => s.cur = .dthread 0 ∧ (s.heap 0).map Dthread.status = some .dead) := by
  decide

def ReturnsToLive (s : Sched Unit) : Action → Prop
  | .ret => ParentAlive s
  | _ => True

/-- The counter is the number of slots with an unfinished dthread, and a new
dthread gets a slot without one and changes no other slot. -/
def Counted (s : Sched Unit) : Prop :=
  s.n_dthread = occupied s.cap (isLive s) ∧ 0 ≤ s.n_dthread ∧ s.n_dthread ≤ s.cap ∧
    ∃ t id, dthreadCreate s = .ok (t,id) ∧ isLive s id = false ∧ id < t.cap ∧
      ∀ j, j ≠ id → t.dt j = s.dt j ∧ ∀ o d, At s j o d → At t j o d

theorem inv_counted (hi : Inv s) : Counted s := by
  obtain ⟨t,id,hcreate,hc⟩ := create_spec s hi.base
  have hcount := hi.base.count
  have hle := occupied_le s.cap (isLive s)
  refine ⟨hcount,by omega,by omega,t,id,hcreate,hc.free,hc.inside,?_⟩
  intro j hj
  refine ⟨by rw [hc.dt, if_neg hj],?_⟩
  intro o d hat
  exact (created_at s t id hi.base hc j o d).mpr (Or.inr ⟨hj,hat⟩)

theorem step_keeps_live (t : Sched Unit) (hi : Inv s)
    (hg : Taken ReturnsToLive s a (Except.ok t : Except Fault (Sched Unit)))
    (h : step s a = .ok t) : Inv t := by
  apply step_keeps s t a hi _ h
  intro ha
  subst ha
  exact hg t rfl

/-- Along a run in which every function returns to a party that has not
returned, the counter of dthreads is exact. -/
theorem dthread_count_exact (as : List Action)
    (h : Along step (Taken ReturnsToLive) as dthreadOpen) :
    Along step (After Counted) as dthreadOpen :=
  along_of_invariant step_keeps_live (fun s a hi hg t ht => by
    rw [ht] at hg
    exact inv_counted t (step_keeps_live s a t hi hg ht)) as dthreadOpen open_inv h

theorem nested_count_exact :
    Along step (Taken ReturnsToLive) nestedResume dthreadOpen ∧
      Along step (After Counted) nestedResume dthreadOpen := by
  have h : Along step (Taken ReturnsToLive) nestedResume dthreadOpen := by
    refine ⟨fun _ _ => trivial,fun s hs => ⟨fun _ _ => trivial,fun t ht => ⟨fun _ _ => trivial,
      fun u hu => ⟨fun _ _ => trivial,fun v hv => ⟨?_,fun w hw => ⟨?_,fun _ _ => trivial⟩⟩⟩⟩⟩⟩
    · cases hs
      cases ht
      cases hu
      cases hv
      intro w _ o d hc hd
      cases hc
      cases hd
      exact Or.inr ⟨0,_,rfl,⟨rfl,rfl⟩,by decide⟩
    · cases hs
      cases ht
      cases hu
      cases hv
      cases hw
      intro w _ o d hc hd
      cases hc
      cases hd
      exact Or.inl rfl
  exact ⟨h,dthread_count_exact _ h⟩

/-- The dead parent returns a second time, and the counter falls below zero. -/
theorem dthread_count_negative :
    Yields (run step [.create,.create,.resume 0,.resume 1,.yield,.resume 0,.ret,.resume 1,.ret,
        .ret] dthreadOpen)
      (fun s => s.n_dthread = -1) := by
  decide

end Duda.SchedulerRuns
