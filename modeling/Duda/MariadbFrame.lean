import Duda.MariadbHistory
import Duda.MariadbQueue

/-!
# What the handlers of a connection leave alone

The handlers of the queries and results of a connection do not connect it: they
make no call of the connect callback and do not bring the state `CONNECTING`
about. They take a query off the queue only when it was passed to the server,
when it was aborted, or when it has no statement. Callbacks of results are made
while the connection is busy, so no handler is started inside one, and what
`mariadb_on_read` has begun is at the bottom of the stack. This holds of every
handler for every connection, whatever the library answers and the user calls.
-/

set_option autoImplicit false

namespace Duda.MariadbFrame
open Duda.Mariadb Duda.MariadbMoves Duda.MariadbQueue Duda.Runs
open Duda.MariadbHistory (currentQuery_told)

/-- The calls of the connect callback. -/
def connects (log : List Event) : List Bool :=
  log.filterMap (fun
    | .connect ok => some ok
    | _ => none)

def Skipped (m : Machine) (i : ℕ) : Prop :=
  ∃ q ∈ m.queries, q.id = i ∧ (q.abort = true ∨ q.query_str = false)

/-- What a handler does to a connection, of whose queries it may free `F`. -/
structure Tame (F : List ℕ) (m t : Machine) : Prop where
  connects : connects t.log = connects m.log
  connecting : t.state = .connecting → m.state = .connecting
  started : m.started ⊆ t.started
  queries : t.queries ⊆ m.queries
  freed : ∀ i ∈ t.freed, i ∈ m.freed ∨ i ∈ t.started ∨ Skipped m i ∨ i ∈ F

def tells : Frame → Bool
  | .resultCb | .rowCb _ | .endCb | .readRowCb | .readEndCb => true
  | _ => false

/-- The places in `mariadb_on_read`, which the event loop calls. -/
def fromRead : Frame → Bool
  | .readConnectedCb | .readRefusedCb | .readRowCb | .readEndCb | .readQuerying | .readRowEnd
  | .readNexting => true
  | _ => false

def Nested : List Frame → Prop
  | [] => True
  | f::k => tells f = false ∧ (fromRead f = false ∨ k = []) ∧ Nested k

/-- A stack above which the code of the user runs in the state `s`. -/
inductive Landing (s : ConnState) : List Frame → Prop where
  | nested (k : List Frame) (hk : Nested k) : Landing s k
  | told (f : Frame) (k : List Frame) (hf : tells f = true) (hr : fromRead f = false ∨ k = [])
      (hk : Nested k) (hs : Busy s) : Landing s (f::k)

def uses : Point → Bool
  | .useResult _ => true
  | _ => false

/-- What a call of the library finds. -/
structure Callable (p : Point) (m : Machine) : Prop where
  alive : m.alive = true
  nested : Nested m.stack
  result : uses p = true → Busy m.state
  bottom : continues p = true → m.stack = []
  next : p = .nextCont → m.state ≠ .connected

inductive Ready (m : Machine) : Prop where
  | user (hp : m.point = none) (hk : Landing m.state m.stack)
  | calls (p : Point) (hp : m.point = some p) (hc : Callable p m)

section Relations

variable {F : List ℕ} {m u t : Machine}

theorem connects_logged (m : Machine) (e : Event) :
    connects (m.logged e).log = connects m.log++connects [e] := by
  rw [Machine.logged, connects, List.filterMap_append]
  rfl

theorem tame_after (h' : Tame F u t) (h : Tame F m u) : Tame F m t where
  connects := h'.connects.trans h.connects
  connecting := fun ht => h.connecting (h'.connecting ht)
  started := fun _ hi => h'.started (h.started hi)
  queries := fun _ hq => h.queries (h'.queries hq)
  freed := by
    intro i hi
    rcases h'.freed i hi with hi | hi | ⟨q,hq,hid⟩ | hi
    · rcases h.freed i hi with hi | hi | hi | hi
      · exact .inl hi
      · exact .inr (.inl (h'.started hi))
      · exact .inr (.inr (.inl hi))
      · exact .inr (.inr (.inr hi))
    · exact .inr (.inl hi)
    · exact .inr (.inr (.inl ⟨q,h.queries hq,hid⟩))
    · exact .inr (.inr (.inr hi))

theorem tame_same (hlog : connects t.log = connects m.log)
    (hst : t.state = .connecting → m.state = .connecting) (hstarted : t.started = m.started)
    (hqueries : t.queries = m.queries) (hfreed : t.freed = m.freed) : Tame F m t where
  connects := hlog
  connecting := hst
  started := hstarted ▸ List.Subset.refl _
  queries := hqueries ▸ List.Subset.refl _
  freed := fun _ hi => .inl (hfreed ▸ hi)

theorem tame_freed (is : List ℕ) (his : is ⊆ F) (hlog : connects t.log = connects m.log)
    (hst : t.state = .connecting → m.state = .connecting) (hstarted : t.started = m.started)
    (hqueries : t.queries ⊆ m.queries) (hfreed : t.freed = m.freed++is) : Tame F m t := by
  refine ⟨hlog,hst,hstarted ▸ List.Subset.refl _,hqueries,fun i hi => ?_⟩
  rw [hfreed] at hi
  rcases List.mem_append.mp hi with hi | hi
  · exact .inl hi
  · exact .inr (.inr (.inr (his hi)))

theorem connects_disconnect (log l : List Event) (hl : ∀ ev ∈ l, ev = .disconnect) :
    connects (log++l) = connects log := by
  have hnone : connects l = [] := List.filterMap_eq_nil_iff.mpr (fun ev hev => by rw [hl ev hev])
  rw [connects, List.filterMap_append]
  exact (congrArg _ hnone).trans (List.append_nil _)

theorem walked_tame (h : Walked m t) : Tame F m t := by
  obtain ⟨l,hlog,hl⟩ := h.log
  obtain ⟨qs,hqueries,hfreed,hskip⟩ := h.queue
  refine ⟨?_,?_,h.started,hqueries ▸ List.subset_append_right _ _,?_⟩
  · rw [hlog, connects_disconnect _ l hl]
  · intro hst
    rcases h.state with hs | hs | hs
    · exact hs.symm.trans hst
    · cases hs.symm.trans hst
    · cases hs.symm.trans hst
  · intro i hi
    rw [hfreed] at hi
    rcases List.mem_append.mp hi with hi | hi
    · exact .inl hi
    · obtain ⟨q,hq,rfl⟩ := List.mem_map.mp hi
      exact .inr (.inr (.inl ⟨q,hqueries ▸ List.mem_append_left _ hq,rfl,hskip q hq⟩))

/-- The stack below a place to which a handler returns. -/
theorem nested_tail {s : ConnState} {f : Frame} {k : List Frame} (h : Landing s (f::k)) :
    Nested k ∧ (fromRead f = true → k = []) := by
  have hbottom : fromRead f = false ∨ k = [] → fromRead f = true → k = [] := by
    intro hor hf
    rcases hor with hr | hr
    · cases hr.symm.trans hf
    · exact hr
  cases h with
  | nested _ hk => exact ⟨hk.2.2,hbottom hk.2.1⟩
  | told _ _ hf hr hk hs => exact ⟨hk,hbottom hr⟩

/-- No callback of a result runs while a connection is not busy. -/
theorem landing_nested {s : ConnState} {k : List Frame} (h : Landing s k) (hs : ¬Busy s) :
    Nested k := by
  cases h with
  | nested _ hk => exact hk
  | told f k hf hr hk hb => exact absurd hb hs

theorem callable_start {p : Point} (ha : m.alive = true) (hk : Nested m.stack)
    (hu : uses p = false) (hc : continues p = false) : Callable p m := by
  refine ⟨ha,hk,?_,?_,?_⟩
  · intro h
    cases hu.symm.trans h
  · intro h
    cases hc.symm.trans h
  · rintro rfl
    cases hc

theorem callable_cont {p : Point} (ha : m.alive = true) (hk : m.stack = []) (hu : uses p = false)
    (hn : p = .nextCont → m.state ≠ .connected) : Callable p m := by
  refine ⟨ha,?_,?_,fun _ => hk,hn⟩
  · rw [hk]
    trivial
  · intro h
    cases hu.symm.trans h

theorem callable_use (q : ℕ) (ha : m.alive = true) (hk : Nested m.stack) (hs : Busy m.state) :
    Callable (.useResult q) m := by
  refine ⟨ha,hk,fun _ => hs,?_,?_⟩
  · intro h
    cases h
  · intro h
    cases h

theorem nested_suffix {k k' : List Frame} (h : Nested k) (hk : k' <:+ k) : Nested k' := by
  obtain ⟨l,rfl⟩ := hk
  induction l with
  | nil => exact h
  | cons f l ih => exact ih h.2.2

theorem landing_suffix {s : ConnState} {k k' : List Frame} (h : Landing s k) (hk : k' <:+ k) :
    Landing s k' := by
  obtain ⟨l,rfl⟩ := hk
  induction l with
  | nil => exact h
  | cons f l ih => exact ih (.nested _ (nested_tail h).1)

theorem continuation_point {s : ConnState} {p : Point} (h : continuation s = some p) :
    uses p = false ∧ continues p = true ∧ p ≠ .connectStart ∧ s ≠ .connected ∧
      (p = .connectCont → s = .connecting) := by
  cases s with
  | connecting | querying | rowFetching | resultFreeing | nextResulting =>
    cases h
    decide
  | closed | connected | queried | rowFetched | nextResulted | resultFreed => cases h

theorem ready_user (hr : Ready m) (hp : m.point = none) : Landing m.state m.stack := by
  cases hr with
  | user _ hk => exact hk
  | calls p hq _ => cases hp.symm.trans hq

theorem ready_calls (hr : Ready m) (p : Point) (hp : m.point = some p) : Callable p m := by
  cases hr with
  | user hq _ => cases hp.symm.trans hq
  | calls p' hq hc =>
    cases hp.symm.trans hq
    exact hc

/-- While the library is called only its answer comes. -/
theorem called_answer {p : Point} (hp : m.point = some p) (a : Input) (t : Machine)
    (h : step m a = .ok t) : ∃ x, a = .answer x ∧ answered m.stack m x p = .ok t := by
  cases a with
  | answer x =>
    rw [step, hp] at h
    exact ⟨x,rfl,h⟩
  | connectAsync _ | queryAsync _ _ _ _ | disconnectAsync _ | abortAsync _ | read
  | callbackReturns => simp [step, hp] at h

/-- Above the event loop there is only what `mariadb_on_read` pushes. -/
theorem above_read (k : List Frame) (hk : k = []) (f : Frame) (hf : tells f = false) :
    Nested (f::k) := by
  rw [hk]
  exact ⟨hf,.inr rfl,trivial⟩

end Relations

section Stacks

variable {k : List Frame} {m t : Machine} {a : Answer} {p : Point} {e : Ending}

theorem looked_ready (h : Looked k m t) (hk : Nested k) (ha : m.alive = true) : Ready t := by
  cases h with
  | started q hp hs hl =>
    exact .calls _ hp (callable_start (hl.trans ha) (nested_suffix hk hs) rfl rfl)
  | emptied hp hs hq => exact .user hp (.nested _ (nested_suffix hk hs))

theorem stopped_ready (h : Stopped k m t) (hk : Landing m.state k) : Ready t := by
  cases h with
  | user l k' heq hl ht =>
    subst ht
    exact .user rfl (landing_suffix hk ⟨l,heq.symm⟩)
  | next q k' ha hst hs ht =>
    subst ht
    exact .calls _ rfl (callable_start ha (nested_tail (landing_suffix hk hs)).1 rfl rfl)
  | readNext k' ha hst hs ht =>
    subst ht
    refine .calls _ rfl (callable_cont ha ((nested_tail (landing_suffix hk hs)).2 rfl) rfl ?_)
    intro _ hconn
    cases hst.symm.trans hconn
  | looked ha hst h =>
    refine looked_ready h ?_ ha
    cases k with
    | nil => trivial
    | cons f k => exact (nested_tail hk).1

theorem asks_callable {s : ConnState} {p' : Point} {k' : List Frame} (hc : Callable p m)
    (h : Asks m.stack m p a s p' k') : Callable p' ({ m with state := s }.await p' k') := by
  have hn := hc.nested
  have ha := hc.alive
  cases h with
  | queried q i => exact callable_use i ha ⟨rfl,.inl rfl,hn⟩ (by simp [Busy, Machine.await])
  | more q i => exact callable_use i ha ⟨rfl,.inl rfl,hn⟩ (by simp [Busy, Machine.await])
  | readQueried i =>
    exact callable_use i ha (above_read _ (hc.bottom rfl) _ rfl) (by simp [Busy, Machine.await])
  | readMore i =>
    exact callable_use i ha (above_read _ (hc.bottom rfl) _ rfl) (by simp [Busy, Machine.await])
  | readLast => exact callable_start ha (above_read _ (hc.bottom rfl) _ rfl) rfl rfl
  | readRow => exact callable_cont ha (hc.bottom rfl) rfl (fun h => by cases h)
  | readError => exact callable_cont ha (hc.bottom rfl) rfl (fun _ => by simp [Machine.await])
  | aborted | rows | row | last | freed | readFreed | error =>
    exact callable_start ha hn rfl rfl

theorem tells_landing {s : ConnState} {ev : Event} {f : Frame} (hc : Callable p m)
    (h : Tells m p a s ev f) : Landing s (f::m.stack) := by
  have hfetched : Busy .rowFetched := by simp [Busy]
  cases h with
  | result => exact .told _ _ rfl (.inl rfl) hc.nested (hc.result rfl)
  | row | last => exact .told _ _ rfl (.inl rfl) hc.nested hfetched
  | readRow | readLast => exact .told _ _ rfl (.inr (hc.bottom rfl)) hc.nested hfetched

theorem handled_ready (hc : Callable p m) (h : Handled m.stack m p a e)
    (hr : e.run m.stack = .ok t) : Ready t := by
  cases h with
  | connecting | lost | unpolled | waits | still | frees =>
    exact stopped_ready (ret_walked hr).2 (.nested _ hc.nested)
  | established | again => exact looked_ready (handleQuery_walked hr).2 hc.nested hc.alive
  | failed q u h | readFailed x hx u h =>
    obtain ⟨y,-,rfl⟩ := map_ok h
    exact looked_ready (handleQuery_walked hr).2 hc.nested hc.alive
  | connects p a ok s f h =>
    cases hr
    refine .user rfl (.nested _ ?_)
    cases h with
    | refused | connected => exact ⟨rfl,.inl rfl,hc.nested⟩
    | readRefused | readConnected => exact above_read _ (hc.bottom rfl) _ rfl
  | asks p a s p' k' h =>
    cases hr
    exact .calls p' rfl (asks_callable hc h)
  | tells p a s ev f h =>
    cases hr
    exact .user rfl (tells_landing hc h)

theorem reentered_ready {f : Frame} (hk : Landing m.state (f::k)) (h : Reentered k m f e)
    (hr : e.run k = .ok t) : Ready t := by
  obtain ⟨hn,hbottom⟩ := nested_tail hk
  cases h with
  | unpolled | lost | waits => exact stopped_ready (ret_walked hr).2 (.nested _ hn)
  | connected ha | readConnected ha => exact looked_ready (handleQuery_walked hr).2 hn ha
  | asks ha f p k' h =>
    cases hr
    refine .calls p rfl ?_
    cases h with
    | result | row | last => exact callable_start ha hn rfl rfl
    | readRow => exact callable_cont ha (hbottom rfl) rfl (fun h => by cases h)
    | readLast => exact callable_start ha ⟨rfl,.inr (hbottom rfl),hn⟩ rfl rfl

/-- Every step leaves the stack in order. -/
theorem step_ready (hm : Ready m) (a : Input) (t : Machine) (h : step m a = .ok t) : Ready t := by
  have hland : m.point = none → Landing m.state m.stack := ready_user hm
  cases step_moves a h with
  | connects cb hp ha hst =>
    have hn := landing_nested (hland hp) (fun hs => hs.1 hst)
    exact .calls _ rfl (callable_start ha hn rfl rfl)
  | connecting cb hp | leaves cb hp | aborts q hp => exact .user hp (hland hp)
  | waits s r w e t hp ha hst h => exact stopped_ready (ret_walked h).2 (hland hp)
  | looks s r w e t hp ha hst h =>
    have hn := landing_nested (hland hp) (fun hs => hs.2.2 hst)
    exact looked_ready (handleQuery_walked h).2 hn ha
  | releases cb l hp ha hst hl =>
    have hn := landing_nested (hland hp) (fun hs => hs.2.2 hst)
    exact .user hp (.nested _ hn)
  | idle => exact hm
  | reads p hp hk ha hc =>
    obtain ⟨hu,-,-,hs,-⟩ := continuation_point hc
    exact .calls p rfl (callable_cont ha rfl hu (fun _ => hs))
  | answers p a e t hp he hr => exact handled_ready (ready_calls hm p hp) he hr
  | returns f k e t hp hk he hr => exact reentered_ready (hk ▸ hland hp) he hr

end Stacks

section Queues

variable {F : List ℕ} {k : List Frame} {m t : Machine} {a : Answer} {p : Point} {e : Ending}

/-- The queries that an input may take off the queue without a look at them:
that of the call of the library, those of a refused connection, and those of a
connection that is released. -/
def lost (m : Machine) : Input → List ℕ
  | .answer _ =>
    match m.point with
    | some (.queryStart q) | some (.useResult q) | some (.freeStart q) | some (.nextStart q) => [q]
    | some .queryCont => m.current_query.toList
    | _ => []
  | .callbackReturns => if Frame.refusedCb ∈ m.stack then m.queries.map Query.id else []
  | .disconnectAsync _ => if m.state = .connected then m.queries.map Query.id else []
  | _ => []

/-- The connection with what the user enqueues or aborts. -/
def noted (m : Machine) : Input → Machine
  | .queryAsync query_str result_cb row_cb end_cb => { m with
    queries := m.queries++[⟨m.next,query_str,false,result_cb,row_cb,end_cb⟩], next := m.next+1 }
  | .abortAsync q => queryAbort m q
  | _ => m

theorem handled_tame (hp : m.point = some p) (hne : p ≠ .connectStart) (hne' : p ≠ .connectCont)
    (h : Handled k m p a e) (hr : e.run k = .ok t) : Tame (lost m (.answer a)) m t := by
  rw [lost, hp]
  cases h with
  | connecting | lost | unpolled => simp at hne hne'
  | connects p a ok s f h => cases h <;> simp at hne hne'
  | established p hc => rcases hc with rfl | rfl <;> simp at hne hne'
  | waits p s hs =>
    refine tame_after (walked_tame (ret_walked hr).1) (tame_same rfl ?_ rfl rfl rfl)
    rintro rfl
    cases p <;> cases hs
  | still => exact walked_tame (ret_walked hr).1
  | again => exact walked_tame (handleQuery_walked hr).1
  | failed q u h =>
    obtain ⟨x,-,rfl⟩ := map_ok h
    exact tame_after (walked_tame (handleQuery_walked hr).1)
      (tame_freed [q] (List.Subset.refl _) rfl id rfl (List.filter_subset_self _) rfl)
  | readFailed x hx u h =>
    obtain ⟨y,-,rfl⟩ := map_ok h
    refine tame_after (walked_tame (handleQuery_walked hr).1)
      (tame_freed [x.id] ?_ rfl (fun h => by cases h) rfl (List.filter_subset_self _) rfl)
    simp [(currentQuery_told m x hx).1]
  | frees p a q s c hf u h =>
    obtain ⟨y,-,rfl⟩ := map_ok h
    refine tame_after (walked_tame (ret_walked hr).1)
      (tame_freed [q] ?_ rfl (fun h => by cases h) rfl (List.filter_subset_self _) rfl)
    cases hf <;> simp
  | asks p a s p' k' h =>
    cases hr
    cases h <;> exact tame_same rfl (fun hs => by first | exact hs | cases hs) rfl rfl rfl
  | tells p a s ev f h =>
    cases hr
    have hlog := connects_logged { m with state := s } ev
    cases h <;>
      exact tame_same (hlog.trans (List.append_nil _)) (fun hs => by first | exact hs | cases hs)
        rfl rfl rfl

theorem reentered_tame {f : Frame} (hF : f = .refusedCb → m.queries.map Query.id ⊆ F)
    (h : Reentered k m f e) (hr : e.run k = .ok t) : Tame F m t := by
  cases h with
  | unpolled | waits =>
    exact tame_after (walked_tame (ret_walked hr).1) (tame_same rfl id rfl rfl rfl)
  | connected | readConnected =>
    exact tame_after (walked_tame (handleQuery_walked hr).1) (tame_same rfl id rfl rfl rfl)
  | lost =>
    exact tame_after (walked_tame (ret_walked hr).1)
      (tame_freed _ (hF rfl) rfl id rfl (List.nil_subset _) rfl)
  | asks ha f p k' h =>
    cases hr
    exact tame_same rfl id rfl rfl rfl

/-- A step of a connection that is not being connected. -/
theorem step_tame (a : Input) (hstart : m.point ≠ some .connectStart)
    (hcont : m.point ≠ some .connectCont) (h : step m a = .ok t) :
    Tame (lost m a) (noted m a) t := by
  cases step_moves a h with
  | connects | connecting | leaves | idle | reads => exact tame_same rfl id rfl rfl rfl
  | aborts => exact tame_same rfl id rfl rfl rfl
  | waits s r w e t hp ha hst h => exact walked_tame (ret_walked h).1
  | looks s r w e t hp ha hst h => exact walked_tame (handleQuery_walked h).1
  | releases cb l hp ha hst hl =>
    rw [lost, if_pos hst]
    exact tame_freed _ (List.Subset.refl _) (connects_disconnect m.log l hl)
      (fun h => by cases h) rfl (List.nil_subset _) rfl
  | answers p a e t hp he hr =>
    exact handled_tame hp (fun h => hstart (h ▸ hp)) (fun h => hcont (h ▸ hp)) he hr
  | returns f k e t hp hk he hr =>
    refine reentered_tame (fun hf => ?_) he hr
    rw [lost, if_pos (by simp [hk, hf])]
    exact List.Subset.refl _

/-- Only `connect_async` and a read event lead to a call that connects. -/
theorem step_unconnected (a : Input) (hc : ∀ cb, a ≠ .connectAsync cb) (hread : a ≠ .read)
    (h : step m a = .ok t) : t.point ≠ some .connectStart ∧ t.point ≠ some .connectCont := by
  constructor
  · intro hp
    cases step_arises h hp with
    | connects cb ha => exact hc cb ha
    | reads p ha => exact hread ha
    | asks p p' x s k' ha hp hst h => cases h
    | follows f k k' p ha hk hst h => cases h
  · intro hp
    cases step_arises h hp with
    | reads p ha => exact hread ha
    | asks p p' x s k' ha hp hst h => cases h
    | follows f k k' p ha hk hst h => cases h

end Queues

end Duda.MariadbFrame
