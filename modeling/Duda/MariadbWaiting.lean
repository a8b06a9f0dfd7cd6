import Duda.MariadbFrame
import Duda.MariadbServer

/-!
# The operation that a connection waits for

An operation of the client library that would block is pending until another
call of the library is made for the connection. This module follows the pending
operation beside the connection, for every answer of the library, every call of
the user and every read event, and settles when the event loop always finds the
connection in the waiting state of that operation.
-/

set_option autoImplicit false

namespace Duda.MariadbWaiting
open Duda.Mariadb Duda.MariadbFrame Duda.MariadbMoves Duda.MariadbQueue Duda.Runs
open Duda.MariadbServer (Op)

/-- The operation that a call starts or continues; `mysql_use_result` does not
block. -/
def operation : Point → Option Op
  | .connectStart | .connectCont => some .connect
  | .queryStart _ | .queryCont => some .query
  | .fetchStart _ | .fetchCont => some .fetch
  | .freeStart _ | .freeCont => some .free
  | .nextStart _ | .nextCont => some .next
  | .useResult _ => none

def waitState : Op → ConnState
  | .connect => .connecting
  | .query => .querying
  | .fetch => .rowFetching
  | .free => .resultFreeing
  | .next => .nextResulting

/-- The connection, the operation that is pending, and whether the last input
was a read event: then a call of the library is its first one in that event. -/
structure Tracked where
  machine : Machine
  pending : Option Op
  fresh : Bool
  deriving DecidableEq, Repr

def pendingAfter (t : Tracked) : Input → Option Op
  | .answer a =>
    match t.machine.point.bind operation with
    | some o => if a = .wouldBlock then some o else none
    | none => t.pending
  | _ => t.pending

def step (t : Tracked) (a : Input) : Except Fault Tracked :=
  (Mariadb.step t.machine a).map fun m => ⟨m,pendingAfter t a,decide (a = .read)⟩

/-- In the event loop the connection is in the waiting state of the operation
that is pending, and a read event continues it. -/
def Awaited (t : Tracked) : Prop :=
  t.machine.point = none → t.machine.stack = [] → t.machine.alive = true →
    ∀ o, t.pending = some o → t.machine.state = waitState o ∧
      ∀ u, onRead t.machine = .ok u → ∃ p, u.point = some p ∧ continues p = true ∧
        operation p = some o

/-- A query that `mariadb_async_handle_query` passes to the server. -/
def Runnable (q : Query) : Prop := q.abort = false ∧ q.query_str = true

instance (q : Query) : Decidable (Runnable q) := inferInstanceAs (Decidable (_ ∧ _))

/-- Only the first call in a read event that continues an operation may report
that it would block. When the callback of a deferred connection returns while an
operation is pending, a query is left that is passed to the server, or the
connection is to be released. -/
def Heeded (t : Tracked) : Input → Prop
  | .answer a => a = .wouldBlock → ∀ p ∈ t.machine.point, continues p = true → t.fresh = true
  | .callbackReturns => t.machine.point = none → t.machine.alive = true → t.pending ≠ none →
    t.machine.stack.head? = some .readConnectedCb →
    t.machine.disconnect_on_finish = true ∨ ∃ q ∈ t.machine.queries, Runnable q
  | _ => True

instance (t : Tracked) (a : Input) : Decidable (Heeded t a) :=
  match a with
  | .answer _ => inferInstanceAs (Decidable (_ → _))
  | .callbackReturns => inferInstanceAs (Decidable (_ → _ → _ → _ → _))
  | .connectAsync _ | .queryAsync .. | .disconnectAsync _ | .abortAsync _ | .read =>
    inferInstanceAs (Decidable True)

/-- The states in which a call is made that is not the first one in a read
event: none for the operations that are continued at most once in it. -/
def Past (s : ConnState) : Point → Prop
  | .fetchCont => s = .rowFetched
  | .nextCont => s = .resultFreed ∨ s = .nextResulted
  | p => continues p = false

/-- A connection after an input other than a read event. -/
structure Midway (m : Machine) : Prop where
  again : ∀ p, m.point = some p → Past m.state p
  row : m.point = none → m.stack.head? = some .readRowCb → m.state = .rowFetched

/-- A connection after a read event. -/
structure Entered (m : Machine) : Prop where
  first : ∀ p, m.point = some p → continuation m.state = some p
  bottom : m.stack = []

structure Inv (t : Tracked) : Prop where
  ready : Ready t.machine
  user : t.machine.point = none → t.machine.alive = true → ∀ o, t.pending = some o →
    t.machine.state = waitState o
  result : ∀ p, t.machine.point = some p → uses p = true → t.pending = none
  place : if t.fresh then Entered t.machine else Midway t.machine

section Returns

variable {k : List Frame} {m t : Machine}

theorem waitState_still (o : Op) : waitState o ≠ .connected ∧ waitState o ≠ .resultFreed ∧
    waitState o ≠ .closed := by
  cases o <;> decide

/-- The handlers of a connection that waits, or is freed, return without an
effect. -/
theorem ret_still (hs : m.alive = true → m.state ≠ .connected ∧ m.state ≠ .resultFreed)
    (h : ret k m = .ok t) : ∃ k', t = m.user k' := by
  cases (ret_walked h).2 with
  | user l k' hk hl ht => exact ⟨k',ht⟩
  | next q k' ha hst | readNext k' ha hst => exact absurd hst (hs ha).2
  | looked ha hst => exact absurd hst (hs ha).1

/-- The queue is not gone through to its end, or the connection is released. -/
theorem queryLoop_busy (qs : List Query)
    (hq : m.disconnect_on_finish = true ∨ ∃ q ∈ qs, Runnable q)
    (h : queryLoop [] (ret []) qs m = .ok t) (hp : t.point = none) : t.alive = false := by
  induction qs generalizing m with
  | nil =>
    rcases hq with hq | ⟨q,hmem,-⟩
    · rw [queryLoop, if_pos hq] at h
      obtain ⟨u,hu,hr⟩ := bind_ok h
      cases hr
      simp only [handleRelease] at hu
      obtain ⟨-,hu⟩ := guard_ok hu
      cases hu
      rfl
    · cases hmem
  | cons q qs ih =>
    have hrest : ¬Runnable q → m.disconnect_on_finish = true ∨ ∃ q ∈ qs, Runnable q := by
      intro hn
      refine hq.imp id ?_
      rintro ⟨x,hx,hrun⟩
      rcases List.mem_cons.mp hx with rfl | hx
      · exact absurd hrun hn
      · exact ⟨x,hx,hrun⟩
    rw [queryLoop] at h
    split at h
    · next hab =>
      refine ih ?_ h
      exact hrest (fun hr => by simp [hr.1] at hab)
    · split at h
      · cases h
        cases hp
      · next hs =>
        refine ih ?_ h
        exact hrest (fun hr => hs hr.2)

/-- The queue is gone through without a call of the library. -/
theorem queryLoop_idle (qs : List Query) (hd : m.disconnect_on_finish = false)
    (hq : ∀ q ∈ qs, ¬Runnable q) :
    ∃ u, queryLoop [] (ret []) qs m = .ok u ∧ u.point = none ∧ u.stack = [] ∧
      u.state = .connected ∧ u.alive = m.alive := by
  induction qs generalizing m with
  | nil =>
    rw [queryLoop, if_neg (by simp [hd])]
    exact ⟨_,rfl,rfl,rfl,rfl,rfl⟩
  | cons q qs ih =>
    have hrest : ∀ x ∈ qs, ¬Runnable x := fun x hx => hq x (List.mem_cons_of_mem q hx)
    rw [queryLoop]
    split
    · obtain ⟨u,hu,hp,hk,hst,hl⟩ := ih (m := { m with
        state := .connected, freed := m.freed++[q.id] }) hd hrest
      exact ⟨u,hu,hp,hk,hst,hl⟩
    · next hab =>
      rw [if_neg (fun hs => hq q List.mem_cons_self ⟨by simpa using hab,hs⟩)]
      obtain ⟨u,hu,hp,hk,hst,hl⟩ := ih (m := { m with freed := m.freed++[q.id] }) hd hrest
      exact ⟨u,hu,hp,hk,hst,hl⟩

end Returns

section Answers

variable {m t : Machine} {o : Op} {e : Ending}

theorem waited_state {k : List Frame} {u : Machine} (hu : u.alive = true → u.state = waitState o)
    (h : ret k u = .ok t) : (t.alive = true → t.state = waitState o) ∧ t.point = none := by
  have hstill := waitState_still o
  obtain ⟨k',rfl⟩ := ret_still (fun ha => by rw [hu ha]; exact ⟨hstill.1,hstill.2.1⟩) h
  exact ⟨hu,rfl⟩

theorem blocked_state {k : List Frame} (p : Point) (ho : operation p = some o)
    (hs : continues p = true → m.state = waitState o) (h : Handled k m p .wouldBlock e)
    (hr : e.run k = .ok t) : (t.alive = true → t.state = waitState o) ∧ t.point = none := by
  cases h with
  | connecting =>
    cases ho
    exact waited_state (fun _ => rfl) hr
  | waits p s hw =>
    refine waited_state (fun _ => ?_) hr
    cases p with
    | queryStart _ | fetchStart _ | freeStart _ | nextStart _ =>
      cases ho
      cases hw
      rfl
    | connectStart | connectCont | queryCont | useResult _ | fetchCont | freeCont | nextCont =>
      cases hw
  | still p hc hn => exact waited_state (fun _ => hs hc) hr
  | again hst => exact absurd ((hs rfl).symm.trans hst) (waitState_still o).1
  | connects p a ok s f h => cases h
  | frees p a q s c h => cases h
  | asks p a s p' k' h => cases h
  | tells p a s ev f h => cases h

theorem returned_state {f : Frame} {k : List Frame} (hs : m.alive = true → m.state = waitState o)
    (hb : m.alive = true → f = .readConnectedCb →
      k = [] ∧ (m.disconnect_on_finish = true ∨ ∃ q ∈ m.queries, Runnable q))
    (h : Reentered k m f e) (hr : e.run k = .ok t) (hp : t.point = none) (hl : t.alive = true) :
    t.state = waitState o := by
  cases h with
  | unpolled => exact (waited_state (u := { m with polled := false }) hs hr).1 hl
  | lost => exact (waited_state (fun h => by cases h) hr).1 hl
  | waits => exact (waited_state (u := { m with linked := true, polled := true }) hs hr).1 hl
  | connected ha hst => exact absurd ((hs ha).symm.trans hst) (waitState_still o).1
  | readConnected ha =>
    obtain ⟨rfl,hq⟩ := hb ha rfl
    cases (queryLoop_busy m.queries hq hr hp).symm.trans hl
  | asks =>
    cases hr
    cases hp

end Answers

section Again

variable {k : List Frame} {m t : Machine}

theorem nested_head {k : List Frame} (hk : Nested k) : k.head? ≠ some .readRowCb := by
  intro h
  cases k with
  | nil => cases h
  | cons f k =>
    cases h
    cases hk.1

theorem landing_head {s : ConnState} {k' : List Frame} (h : Landing s k) (hk : k' <:+ k)
    (hh : k'.head? = some .readRowCb) : k' = k := by
  obtain ⟨l,rfl⟩ := hk
  cases l with
  | nil => rfl
  | cons f l => exact absurd hh (nested_head (nested_suffix (nested_tail h).1 ⟨l,rfl⟩))

/-- The calls that an input other than a read event leads to. -/
theorem step_past (hrow : m.point = none → m.stack.head? = some .readRowCb → m.state = .rowFetched)
    (a : Input) (hread : a ≠ .read) (h : Mariadb.step m a = .ok t) (p : Point)
    (hp : t.point = some p) : Past t.state p := by
  cases step_arises h hp with
  | starts | next | connects => rfl
  | readNext hst => exact .inl hst
  | reads p ha => exact absurd ha hread
  | asks p p' x s k' ha hp' hst hask =>
    rw [hst]
    cases hask with
    | readRow => rfl
    | readError => exact .inr rfl
    | queried | readQueried | aborted | rows | row | last | readLast | freed | readFreed | more
    | error | readMore => rfl
  | follows f k k' p ha hk hst hf =>
    cases hf with
    | readRow =>
      have hnone : m.point = none := by
        subst ha
        exact (guard_ok h).1
      exact hst.trans (hrow hnone (by rw [hk]; rfl))
    | result | row | last | readLast => rfl

/-- The callback of a row runs in the state `ROW_FETCHED`. -/
theorem step_row (hr : Ready m)
    (hrow : m.point = none → m.stack.head? = some .readRowCb → m.state = .rowFetched) (a : Input)
    (h : Mariadb.step m a = .ok t) (hp : t.point = none)
    (hh : t.stack.head? = some .readRowCb) : t.state = .rowFetched := by
  have hnone : ∀ k, Nested k → t.stack <:+ k → t.state = .rowFetched :=
    fun k hk hs => absurd hh (nested_head (nested_suffix hk hs))
  cases step_moves a h with
  | connects | reads => cases hp
  | connecting cb hq | leaves cb hq | aborts q hq | idle hq => exact hrow hq hh
  | waits s r w e t hq ha hst hadd =>
    cases (ret_walked hadd).2 with
    | user l k' hk hl ht =>
      subst ht
      have htop := landing_head (ready_user hr hq) ⟨l,hk.symm⟩ hh
      exact hrow hq (htop ▸ hh)
    | next q k' _ _ _ ht | readNext k' _ _ _ ht =>
      subst ht
      cases hp
    | looked _ hconn => exact absurd hconn hst
  | looks s r w e t hq ha hst hadd =>
    exact hnone _ (landing_nested (ready_user hr hq) (fun hs => hs.2.2 hst))
      (looked_stack (handleQuery_walked hadd).2)
  | releases cb l hq ha hst hl =>
    exact hnone _ (landing_nested (ready_user hr hq) (fun hs => hs.2.2 hst)) (List.suffix_refl _)
  | answers p x e t hq he hrun =>
    have hn := (ready_calls hr p hq).nested
    cases he with
    | connecting | lost | unpolled | waits | still | frees =>
      exact hnone _ hn (stopped_stack (ret_walked hrun).2)
    | established | again | failed | readFailed =>
      exact hnone _ hn (looked_stack (handleQuery_walked hrun).2)
    | connects p x ok s f hc =>
      cases hrun
      cases hc <;> cases hh
    | asks =>
      cases hrun
      cases hp
    | tells p x s ev f htell =>
      cases hrun
      cases htell with
      | readRow => rfl
      | result | row | last | readLast => cases hh
  | returns f k e t hq hk he hrun =>
    have hn : Nested k := (nested_tail (hk ▸ ready_user hr hq)).1
    cases he with
    | unpolled | lost | waits => exact hnone _ hn (stopped_stack (ret_walked hrun).2)
    | connected | readConnected => exact hnone _ hn (looked_stack (handleQuery_walked hrun).2)
    | asks =>
      cases hrun
      cases hp

theorem read_entered (h : Mariadb.step m .read = .ok t) : Entered t := by
  cases step_moves .read h with
  | idle hp hk =>
    refine ⟨?_,hk⟩
    intro p hq
    cases hp.symm.trans hq
  | reads p hp hk ha hc =>
    refine ⟨?_,rfl⟩
    intro p' hq
    cases hq
    exact hc

end Again

section Inputs

variable {t t' : Tracked}

theorem connectCb_bottom {m : Machine} (hk : Landing m.state m.stack)
    (hh : m.stack.head? = some .readConnectedCb) : m.stack = [.readConnectedCb] := by
  cases hs : m.stack with
  | nil =>
    rw [hs] at hh
    cases hh
  | cons f k =>
    rw [hs] at hh hk
    cases hh
    rw [(nested_tail hk).2 rfl]

theorem awaited_of_inv (h : Inv t) : Awaited t := by
  intro hp hk ha o ho
  have hst := h.user hp ha o ho
  refine ⟨hst,?_⟩
  intro u hu
  obtain ⟨-,⟨-,hnone⟩ | ⟨p,hcont,rfl⟩⟩ := onRead_spec u hu
  · rw [hst] at hnone
    cases o <;> cases hnone
  · rw [hst] at hcont
    cases o <;> cases hcont <;> exact ⟨_,rfl,rfl,rfl⟩

theorem inv_none (hr : Ready t.machine) (hn : t.pending = none)
    (hc : if t.fresh then Entered t.machine else Midway t.machine) : Inv t where
  ready := hr
  user := fun _ _ o ho => by cases hn.symm.trans ho
  result := fun _ _ _ => hn
  place := hc

theorem first_state (h : Inv t) (hf : t.fresh = true) (p : Point) (o : Op)
    (hp : t.machine.point = some p) (ho : operation p = some o) :
    t.machine.state = waitState o := by
  have hplace := h.place
  rw [if_pos hf] at hplace
  have hcont := hplace.first p hp
  cases hs : t.machine.state with
  | connecting | querying | rowFetching | resultFreeing | nextResulting =>
    rw [hs] at hcont
    cases hcont
    cases ho
    rfl
  | closed | connected | queried | rowFetched | nextResulted | resultFreed =>
    rw [hs] at hcont
    cases hcont

/-- A later call of a read event is not made in the waiting state of its operation. -/
theorem later_state (h : Inv t) (hf : t.fresh ≠ true) (p : Point) (o : Op)
    (hp : t.machine.point = some p) (ho : operation p = some o) (hc : continues p = true) :
    (p = .fetchCont ∨ p = .nextCont) ∧ t.machine.state ≠ waitState o := by
  have hplace := h.place
  rw [if_neg hf] at hplace
  have hpast := hplace.again p hp
  cases p with
  | fetchCont =>
    cases ho
    refine ⟨.inl rfl,?_⟩
    rw [show t.machine.state = .rowFetched from hpast]
    decide
  | nextCont =>
    cases ho
    refine ⟨.inr rfl,?_⟩
    rcases hpast with hs | hs <;> rw [hs] <;> decide
  | connectCont | queryCont | freeCont => cases hpast
  | connectStart | queryStart _ | useResult _ | fetchStart _ | freeStart _ | nextStart _ =>
    cases hc

/-- A call of the user does not lead to `mysql_use_result`. -/
theorem user_resumed {m u : Machine} (a : Input) (ha : ∀ x, a ≠ .answer x)
    (h : Mariadb.step m a = .ok u) (p : Point) (hu : u.point = some p) : uses p = false := by
  cases step_arises h hu with
  | starts | next | readNext | connects => rfl
  | reads p _ hc => exact (continuation_point hc).1
  | asks p p' x s k' hx => exact absurd hx (ha x)
  | follows f k k' p _ hk hst hf => cases hf <;> rfl

theorem enabled_user {m u : Machine} (a : Input) (ha : ∀ x, a ≠ .answer x)
    (h : Mariadb.step m a = .ok u) : m.point = none := by
  cases hp : m.point with
  | none => rfl
  | some p =>
    obtain ⟨x,rfl,-⟩ := called_answer hp a u h
    exact absurd rfl (ha x)

theorem place_kept (h : Inv t) (a : Input) (u : Machine) (hu : Mariadb.step t.machine a = .ok u) :
    if decide (a = .read) = true then Entered u else Midway u := by
  by_cases hread : a = .read
  · subst hread
    exact read_entered hu
  · rw [if_neg (by simpa using hread)]
    have hrow : t.machine.point = none → t.machine.stack.head? = some .readRowCb →
        t.machine.state = .rowFetched := by
      have hplace := h.place
      split at hplace
      · intro _ hh
        rw [hplace.bottom] at hh
        cases hh
      · exact hplace.row
    exact ⟨step_past hrow a hread hu,step_row h.ready hrow a hu⟩

theorem inv_answer (h : Inv t) (a : Answer) (hg : Heeded t (.answer a))
    (hs : step t (.answer a) = .ok t') : Inv t' := by
  obtain ⟨u,hu,rfl⟩ := map_ok hs
  have hready := step_ready h.ready _ u hu
  have hplace := place_kept h (.answer a) u hu
  cases hp : t.machine.point with
  | none =>
    rw [Mariadb.step, hp] at hu
    cases hu
  | some p =>
    cases ho : operation p with
    | none =>
      have hpend : pendingAfter t (.answer a) = t.pending := by simp [pendingAfter, hp, ho]
      cases p with
      | useResult q => exact inv_none hready (hpend.trans (h.result _ hp rfl)) hplace
      | connectStart | connectCont | queryStart _ | queryCont | fetchStart _ | fetchCont
      | freeStart _ | freeCont | nextStart _ | nextCont => cases ho
    | some o =>
      by_cases ha : a = .wouldBlock
      · subst ha
        have hpend : pendingAfter t (.answer .wouldBlock) = some o := by
          simp [pendingAfter, hp, ho]
        rw [Mariadb.step, hp] at hu
        obtain ⟨e,he,hr⟩ := answered_handled p _ hu
        obtain ⟨hst,hnone⟩ := blocked_state p ho (fun hc =>
          first_state h (hg rfl p hp hc) p o hp ho) he hr
        refine ⟨hready,?_,?_,hplace⟩
        · intro _ hl o' ho'
          cases hpend.symm.trans ho'
          exact hst hl
        · intro p hq
          cases hnone.symm.trans hq
      · have hpend : pendingAfter t (.answer a) = none := by simp [pendingAfter, hp, ho, ha]
        exact inv_none hready hpend hplace

theorem inv_input (h : Inv t) (a : Input) (ha : ∀ x, a ≠ .answer x) (hg : Heeded t a)
    (hs : step t a = .ok t') : Inv t' := by
  obtain ⟨u,hu,rfl⟩ := map_ok hs
  have hready := step_ready h.ready a u hu
  have hplace := place_kept h a u hu
  have hp := enabled_user a ha hu
  have hpend : pendingAfter t a = t.pending := by
    cases a with
    | answer x => exact absurd rfl (ha x)
    | connectAsync _ | queryAsync _ _ _ _ | disconnectAsync _ | abortAsync _ | read
    | callbackReturns => rfl
  refine ⟨hready,?_,fun p hq huse => ?_,hplace⟩
  · intro hnone hl o ho
    have hold : t.machine.alive = true → t.machine.state = waitState o :=
      fun halive => h.user hp halive o (hpend.symm.trans ho)
    have hstill : t.machine.alive = true → t.machine.state ≠ .connected :=
      fun halive => hold halive ▸ (waitState_still o).1
    cases step_moves a hu with
    | connects | reads => cases hnone
    | connecting _ _ halive | leaves _ _ halive | aborts _ _ halive | idle _ _ halive =>
      exact hold halive
    | waits s r w e u _ _ _ hadd =>
      exact (waited_state (u := enqueued t.machine s r w e) hold hadd).1 hl
    | looks _ _ _ _ _ _ halive hst | releases _ _ _ halive hst =>
      exact absurd hst (hstill halive)
    | answers p x => exact absurd rfl (ha x)
    | returns f k e u _ hk he hr =>
      refine returned_state hold (fun halive hf => ?_) he hr hnone hl
      have hh : t.machine.stack.head? = some .readConnectedCb := by rw [hk, hf]; rfl
      have hbottom := connectCb_bottom (ready_user h.ready hp) hh
      rw [hk] at hbottom
      refine ⟨(List.cons.inj hbottom).2,hg hp halive ?_ hh⟩
      rw [← hpend]
      intro hn
      cases hn.symm.trans ho
  · cases (user_resumed a ha hu p hq).symm.trans huse

theorem step_inv (h : Inv t) (a : Input) (hg : Heeded t a) (hs : step t a = .ok t') :
    Inv t' := by
  by_cases ha : ∃ x, a = .answer x
  · obtain ⟨x,rfl⟩ := ha
    exact inv_answer h x hg hs
  · exact inv_input h a (fun x hx => ha ⟨x,hx⟩) hg hs

/-- A row or a result that is awaited again in the same read event is pending
outside of its waiting state. -/
theorem awaited_answer (h : Inv t) (a : Answer)
    (hq : After Awaited t (Input.answer a) (step t (.answer a))) : Heeded t (.answer a) := by
  rintro rfl p hp hc
  rw [Option.mem_def] at hp
  by_contra hf
  obtain ⟨o,ho⟩ : ∃ o, operation p = some o := by
    cases p with
    | useResult q => cases hc
    | connectStart | connectCont | queryStart _ | queryCont | fetchStart _ | fetchCont
    | freeStart _ | freeCont | nextStart _ | nextCont => exact ⟨_,rfl⟩
  obtain ⟨hmid,hne⟩ := later_state h hf p o hp ho hc
  have hcall := ready_calls h.ready p hp
  have hret : Mariadb.step t.machine (.answer .wouldBlock) = .ok (t.machine.user []) := by
    rw [Mariadb.step, hp, hcall.bottom hc]
    rcases hmid with rfl | rfl
    · rfl
    · show resume [] t.machine = _
      rw [resume, if_neg (hcall.next rfl)]
      rfl
  have hstep : step t (.answer .wouldBlock) = .ok ⟨t.machine.user [],some o,false⟩ := by
    rw [step, hret]
    simp [Except.map, pendingAfter, hp, ho]
  exact hne (hq _ hstep rfl rfl hcall.alive o rfl).1

theorem awaited_return (h : Inv t)
    (hq : After Awaited t Input.callbackReturns (step t .callbackReturns)) :
    Heeded t .callbackReturns := by
  intro hp ha hpend hh
  by_contra hnone
  rw [not_or] at hnone
  have hbottom := connectCb_bottom (ready_user h.ready hp) hh
  obtain ⟨u,hu,hup,huk,hust,hul⟩ := queryLoop_idle (m := t.machine) t.machine.queries
    (by simpa using hnone.1) (fun q hq hr => hnone.2 ⟨q,hq,hr⟩)
  have hret : Mariadb.step t.machine .callbackReturns = .ok u := by
    rw [Mariadb.step, if_pos hp, hbottom]
    exact (if_pos ha).trans hu
  have hstep : step t .callbackReturns = .ok ⟨u,t.pending,false⟩ := by
    rw [step, hret]
    rfl
  obtain ⟨o,ho⟩ := Option.ne_none_iff_exists'.mp hpend
  have hst := (hq _ hstep hup huk (hul.trans ha) o ho).1
  exact (waitState_still o).1 (hst.symm.trans hust)

theorem step_awaited_iff (h : Inv t) (a : Input) :
    After Awaited t a (step t a) ↔ Heeded t a := by
  constructor
  · intro hq
    cases a with
    | answer a => exact awaited_answer h a hq
    | callbackReturns => exact awaited_return h hq
    | connectAsync _ | queryAsync _ _ _ _ | disconnectAsync _ | abortAsync _ | read => trivial
  · intro hg u hu
    exact awaited_of_inv (step_inv h a hg hu)

end Inputs

/-- In every run of a connection on which nothing is pending the event loop
finds the waiting state of the pending operation exactly when only the first
call of the library in a read event continues an operation that would block, and
the callback of a deferred connection leaves no operation of a query that is
then dropped. -/
theorem pending_awaited_iff (m : Machine) (hp : m.point = none) (hk : m.stack = [])
    (inputs : List Input) :
    Along step (After Awaited) inputs ⟨m,none,false⟩ ↔
      Along step (fun t a _ => Heeded t a) inputs ⟨m,none,false⟩ := by
  apply along_iff (I := Inv)
  · intro t a t' hi hg hs
    exact step_inv hi a hg hs
  · intro t a hi
    exact step_awaited_iff hi a
  · refine inv_none (.user hp ?_) rfl ?_
    · exact .nested _ (hk ▸ trivial)
    · refine ⟨?_,?_⟩
      · intro p h
        cases hp.symm.trans h
      · intro _ h
        simp [hk] at h

/-- A query whose rows are fetched in two read events: in the second one a row
comes, and then the last. -/
theorem deferred_rows_awaited : Along step (After Awaited)
    [.connectAsync true,.answer .done,.callbackReturns,.queryAsync true false true false,
      .answer .done,.answer (.result true),.answer .wouldBlock,.read,.answer .wouldBlock,
      .read,.answer .row,.callbackReturns,.answer (.noRow false),.answer .done]
    ⟨connCreate false,none,false⟩ := by
  refine (pending_awaited_iff (connCreate false) rfl rfl _).mpr ?_
  decide

/-- The callback of a deferred connection enqueues a query, which would block,
and aborts it: the query is dropped in the state `CONNECTED` while the operation
is pending. -/
theorem dropped_query_pending :
    ∃ t, run step [.connectAsync true,.answer .wouldBlock,.read,.answer .done,
        .queryAsync true false false false,.answer .wouldBlock,.abortAsync 0,.callbackReturns]
        ⟨connCreate false,none,false⟩ = .ok t ∧ t.machine.stack = [] ∧ t.machine.point = none ∧
      t.machine.alive = true ∧ t.pending = some .query ∧ t.machine.state = .connected ∧
      onRead t.machine = .ok t.machine :=
  ⟨_,rfl,rfl,rfl,rfl,rfl,rfl,rfl⟩

end Duda.MariadbWaiting
