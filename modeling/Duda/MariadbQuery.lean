import Duda.MariadbServer

/-!
# What a query comes to

A query in flight runs through the handlers of its results, of their rows, of
their release and of the next results, some of them called by the loop over
the queue and some by read events. This module computes the callbacks and the
end of a query from the answers of the server, and proves that the machine
does the same.
-/

set_option autoImplicit false

namespace Duda.MariadbQuery
open Duda.Mariadb Duda.MariadbQueue Duda.MariadbServer StateTransition

/-- What becomes of a query: it is freed, with or without a look at the rest
of the queue; or a freed query is used; or the handler does not return. -/
inductive Verdict where
  | freed (bare : Bool)
  | crash
  | hang
  deriving DecidableEq, Repr

def rowEvents (x : Query) : List Event := if x.row_cb then [.row x.id] else []

def endEvents (x : Query) (failed : Bool) : List Event :=
  if failed = false ∧ x.end_cb = true then [.last x.id] else []

/-- The callbacks for the rows of a result set, and whether the last fetch was
deferred. A deferred row is the last that is seen. -/
def fetched (x : Query) (failed : Bool) (last : ℕ) : List ℕ → List Event × Bool
  | [] => (endEvents x failed,decide (last ≠ 0))
  | b::rows =>
    if b = 0 then (rowEvents x++(fetched x failed last rows).1,(fetched x failed last rows).2)
    else (rowEvents x,true)

def resultEvents (x : Query) : List Event := if x.result_cb then [.result x.id] else []

/-- What the statement `st` of a query comes to, if it does not fail: `bare`
tells that the handlers will not look at the rest of the queue. -/
def resultOf (multi : Bool) (x : Query) (bare : Bool) (st : Statement)
    (rest : Bool → List Event × Verdict) : List Event × Verdict :=
  match st with
  | .set rows failed last free =>
    let f := fetched x failed last rows
    let here := resultEvents x++f.1
    if multi then
      let r := rest ((bare && !f.2) || decide (unread rows free ≠ 0))
      (here++r.1,r.2)
    else (here,if unread rows free = 0 then .freed (bare && !f.2) else .crash)
  | _ => ([],.freed bare)

def following (x : Query) (done : ℕ) : Bool → List (ℕ × Statement) → List Event × Verdict
  | bare,[] => ([],if done = 0 then .freed bare else .crash)
  | bare,(b,.error)::rest => if b = 0 then following x done bare rest else ([],.hang)
  | bare,(b,st)::rest =>
    resultOf true x (bare && decide (b = 0)) st fun bare => following x done bare rest

def queryRun (multi : Bool) (x : Query) (r : Reply) : List Event × Verdict :=
  match r.statements with
  | [] | (_,.error)::_ => ([],.freed false)
  | (_,st)::rest => resultOf multi x false st fun bare => following x r.done bare rest

/-- The query `x` in flight on an open connection, before the queries `qs`. -/
structure Serving (m : Machine) (x : Query) (qs : List Query) : Prop where
  working : Working m x.id []
  queries : m.queries = x::qs
  wanted : x.abort = false
  polled : m.polled = true
  finish : m.disconnect_on_finish = false

section Phases

variable {m : Machine} {x : Query} {qs : List Query} {k : List Frame}

theorem serving_at (hv : Serving m x qs) (s : ConnState) (l : List Event) (p : Option Point)
    (k : List Frame) : Serving { m with state := s, log := l, point := p, stack := k } x qs :=
  ⟨working_at hv.working s l p k,hv.queries,hv.wanted,hv.polled,hv.finish⟩

theorem serving_lookup (hv : Serving m x qs) : m.lookup x.id = .ok x := by
  rw [Machine.lookup, hv.queries, List.find?_cons_of_pos (by simp)]

theorem serving_current (hv : Serving m x qs) : m.currentQuery = .ok x := by
  rw [Machine.currentQuery, hv.working.current]
  exact serving_lookup hv

theorem serving_open (hv : Serving m x qs) (s : ConnState) : Open { m with state := s } [] :=
  (working_at hv.working s m.log m.point m.stack).isOpen

/-- Where an operation of a query is started, where it is continued, and the
state in between. -/
inductive Deferral (q : ℕ) : Op → Point → Point → ConnState → Prop where
  | query : Deferral q .query (.queryStart q) .queryCont .querying
  | fetch : Deferral q .fetch (.fetchStart q) .fetchCont .rowFetching
  | free : Deferral q .free (.freeStart q) .freeCont .resultFreeing
  | next : Deferral q .next (.nextStart q) .nextCont .nextResulting

theorem onRead_serving (hv : Serving m x qs) {o : Op} {p p' : Point} {s : ConnState}
    (hd : Deferral x.id o p p' s) (hst : m.state = s) : onRead m = .ok (m.await p' []) := by
  rw [onRead, if_pos hv.working.isOpen.alive, hst, serving_current hv]
  cases hd with
  | query => rfl
  | fetch => rfl
  | free => rfl
  | next => rfl

theorem deferral_continued {q : ℕ} {o : Op} {p p' : Point} {s : ConnState}
    (hd : Deferral q o p p' s) (e : Server) : e.answer p' = e.continued o := by
  cases hd with
  | query => rfl
  | fetch => rfl
  | free => rfl
  | next => rfl

variable (q : ℕ) (e : Server)

/-- The handlers return to the event loop when an operation would block, and a
read event finds it done. -/
theorem suspends_serving (e' : Server) (hv : Serving m x qs) (hk : Returns x.id [] k) {o : Op}
    {p p' : Point} {s : ConnState} (hd : Deferral x.id o p p' s) (b : ℕ)
    (hs : e.answer p = e'.start o) (hb : e'.blocks o = b+1) :
    Reaches turn (e,.ok (m.await p k))
      ({ e' with suspended := some 0 },.ok ({ m with state := s }.await p' [])) := by
  have hwait : Busy s → s ≠ .resultFreed →
      ret k { m.await p k with state := s } = .ok ({ m with state := s }.user []) := by
    intro hbusy hfree
    exact ret_waiting (serving_open (serving_at hv m.state m.log (some p) k) s) hbusy hfree hk
  have hread := onRead_serving (m := { m with state := s }.user []) (serving_at hv s m.log none [])
    hd rfl
  have hr := reaches_suspended e e' m p k { m with state := s } o b p' hs hb (deferral_continued hd)
    hv.polled
  cases hd with
  | query => exact hr (hwait (by simp [Busy]) (by simp)) hread rfl
  | fetch => exact hr (hwait (by simp [Busy]) (by simp)) hread rfl
  | free => exact hr (hwait (by simp [Busy]) (by simp)) hread rfl
  | next => exact hr (hwait (by simp [Busy]) (by simp)) hread rfl

theorem reaches_serving (e' : Server) (hv : Serving m x qs) (hk : Returns x.id [] k) {o : Op}
    {p p' : Point} {s : ConnState} (hd : Deferral x.id o p p' s) (b : ℕ)
    (hs : e.answer p = e'.start o) (hb : e'.blocks o = b+1) (hsus : e'.suspended = none)
    {a : Answer} {d : Server} (hdone : e'.complete o = (a,d)) :
    Reaches turn (e,.ok (m.await p k))
      (d,answered [] ({ m with state := s }.await p' []) a p') :=
  (suspends_serving e e' hv hk hd b hs hb).tail
    (turn_last e' { m with state := s } p' o (deferral_continued hd) hsus hdone)

theorem serving_call (hv : Serving m x qs) (p : ℕ → Point) :
    (m.currentQuery.map fun q => m.await (p q.id) k) = .ok (m.await (p x.id) k) := by
  rw [serving_current hv]
  rfl

theorem serving_returned (hv : Serving m x qs) :
    returned m (.resultCb::k) = .ok (m.await (.fetchStart x.id) k) ∧
    returned m (.rowCb x.id::k) = .ok (m.await (.fetchStart x.id) k) ∧
    returned m (.endCb::k) = .ok (m.await (.freeStart x.id) k) ∧
    returned m (.readRowCb::k) = .ok (m.await .fetchCont k) ∧
    returned m (.readEndCb::k) = .ok (m.await (.freeStart x.id) (.readRowEnd::k)) := by
  have ha := hv.working.isOpen.alive
  refine ⟨?_,?_,?_,?_,?_⟩
  · rw [returned, if_pos ha]
    exact serving_call hv .fetchStart
  · rw [returned, if_pos ha]
    show (m.lookup x.id).map _ = _
    rw [serving_lookup hv]
    rfl
  · rw [returned, if_pos ha]
    exact serving_call hv .freeStart
  · rw [returned, if_pos ha]
    show m.currentQuery.map _ = _
    rw [serving_current hv]
    rfl
  · rw [returned, if_pos ha]
    exact serving_call hv .freeStart

theorem reaches_callback (f : Frame) (r : Except Fault Machine)
    (h : returned (m.user (f::k)) (f::k) = r) : Reaches turn (e,.ok (m.user (f::k))) (e,r) := by
  apply reaches_head (turn_callback e m k f)
  rw [h]
  exact .refl

/-- A callback is called if the query has it, and returns to the call of `p`. -/
theorem reaches_told (has : Bool) (ev : Event) (f : Frame) (p : Point) (k' : List Frame)
    (hret : returned ((m.logged ev).user (f::k)) (f::k) = .ok ((m.logged ev).await p k')) :
    Reaches turn
      (e,if has = true then .ok ((m.logged ev).user (f::k)) else .ok (m.await p k'))
      (e,.ok ({ m with log := m.log++if has = true then [ev] else [] }.await p k')) := by
  split_ifs with hcb
  · exact reaches_callback e f _ hret
  · rw [List.append_nil]
    exact .refl

/-- A row is fetched in the loop of `mariadb_async_handle_row`. -/
theorem row_started (hv : Serving m x qs) :
    Reaches turn (e,rowStarted k m x.id .row)
      (e,.ok ({ m with state := .rowFetched, log := m.log++rowEvents x }.await
        (.fetchStart x.id) k)) := by
  rw [rowStarted, serving_lookup hv]
  exact reaches_told (m := { m with state := .rowFetched }) e x.row_cb (.row x.id) (.rowCb x.id) _ k
    (serving_returned (serving_at hv _ _ _ _)).2.1

/-- A row is fetched in the loop of `mariadb_on_read`. -/
theorem row_continued (hv : Serving m x qs) :
    Reaches turn (e,rowContinued k m .row)
      (e,.ok ({ m with state := .rowFetched, log := m.log++rowEvents x }.await .fetchCont k)) := by
  rw [rowContinued, serving_current hv]
  exact reaches_told (m := { m with state := .rowFetched }) e x.row_cb (.row x.id) .readRowCb _ k
    (serving_returned (serving_at hv _ _ _ _)).2.2.2.1

theorem rows_told (hv : Serving m x qs) (failed : Bool) (f : Frame) (k' : List Frame)
    (hret : ∀ m, Serving m x qs → returned m (f::k) = .ok (m.await (.freeStart x.id) k')) :
    Reaches turn
      (e,if failed = true then handleResultFree k' { m with state := .rowFetched }
        else if x.end_cb = true then
          .ok (({ m with state := .rowFetched }.logged (.last x.id)).user (f::k))
        else handleResultFree k' { m with state := .rowFetched })
      (e,.ok ({ m with state := .rowFetched, log := m.log++endEvents x failed }.await
        (.freeStart x.id) k')) := by
  have hfree : handleResultFree k' { m with state := .rowFetched } = _ :=
    serving_call (serving_at hv _ _ _ _) .freeStart
  rw [hfree]
  cases failed with
  | true =>
    rw [if_pos rfl, endEvents, if_neg (by simp), List.append_nil]
    exact .refl
  | false =>
    rw [if_neg (by simp), show endEvents x false = if x.end_cb = true then [.last x.id] else [] by
      simp [endEvents]]
    exact reaches_told (m := { m with state := .rowFetched }) e x.end_cb (.last x.id) f _ k'
      (hret _ (serving_at hv _ _ _ _))

theorem rows_started (hv : Serving m x qs) (failed : Bool) :
    Reaches turn (e,rowStarted k m x.id (.noRow failed))
      (e,.ok ({ m with state := .rowFetched, log := m.log++endEvents x failed }.await
        (.freeStart x.id) k)) := by
  rw [rowStarted, serving_lookup hv]
  exact rows_told e hv failed .endCb k fun m hm => (serving_returned hm).2.2.1

theorem rows_continued (hv : Serving m x qs) (failed : Bool) :
    Reaches turn (e,rowContinued k m (.noRow failed))
      (e,.ok ({ m with state := .rowFetched, log := m.log++endEvents x failed }.await
        (.freeStart x.id) (.readRowEnd::k))) := by
  rw [rowContinued, serving_current hv]
  exact rows_told e hv failed .readEndCb (.readRowEnd::k) fun m hm => (serving_returned hm).2.2.2.2

theorem continued_outOfSync (o : Op) (h : e.suspended = none) :
    e.continued o = (Server.outOfSync o,e) := by
  rw [Server.continued, h]

/-- An open connection without a query on the way. -/
structure Ready (m : Machine) (n : ℕ) : Prop where
  settled : Settled m n
  isOpen : Open m []
  polled : m.polled = true
  finish : m.disconnect_on_finish = false
  state : m.state = .connected

/-- A connection that has freed the query `x`, after the callbacks `ev`. -/
structure Cleared (m m' : Machine) (x : Query) (qs : List Query) (ev : List Event) : Prop where
  ready : Ready m' (x.id+1)
  multi : m'.multi = m.multi
  log : m'.log = m.log++ev
  freed : m'.freed = m.freed++[x.id]
  queries : m'.queries = qs

/-- Whether the handlers on the stack return to the event loop without a look
at the queue. -/
def bare (k : List Frame) : Bool :=
  k.all fun f =>
    match f with
    | .nextLoop _ => true
    | _ => false

theorem ret_freed (ho : Open m []) (hst : m.state = .connected) (q : ℕ) (hk : Returns q [] k) :
    ret k m = if bare k then .ok (m.user []) else handleQuery [] (ret []) m := by
  induction hk with
  | here => rfl
  | handler f hf =>
    simp only [List.mem_cons, List.not_mem_nil, or_false] at hf
    rcases hf with rfl | rfl | rfl | rfl
    all_goals simp [ret, ho.alive, hst, bare]
  | next k hk ih =>
    rw [show bare (.nextLoop q::k) = bare k by simp [bare], ← ih]
    simp [ret, ho.alive, hst]

/-- A deferred fetch, a deferred release and a deferred next result go on from
their own read events. -/
theorem after_fetch (hk : Returns q [] k) (deferred : Bool) :
    Returns q [] (if deferred then [.readRowEnd] else k) ∧
      bare (if deferred then [.readRowEnd] else k) = (bare k && !deferred) := by
  cases deferred with
  | true => exact ⟨.handler .readRowEnd (by simp),by simp [bare]⟩
  | false => exact ⟨hk,by simp⟩

theorem after_free (hk : Returns q [] k) (free : ℕ) :
    Returns q [] (if free = 0 then k else []) ∧
      bare (if free = 0 then k else []) = (bare k || decide (free ≠ 0)) := by
  by_cases h : free = 0
  · rw [if_pos h]
    exact ⟨hk,by simp [h]⟩
  · rw [if_neg h]
    exact ⟨.here,by simp [h, bare]⟩

theorem after_next (hk : Returns q [] k) (b : ℕ) :
    Returns q [] (if b = 0 then .nextLoop q::k else [.readNexting]) ∧
      bare (if b = 0 then .nextLoop q::k else [.readNexting]) = (bare k && decide (b = 0)) := by
  by_cases h : b = 0
  · rw [if_pos h]
    exact ⟨.next k hk,by simp [h, bare]⟩
  · rw [if_neg h]
    exact ⟨.handler .readNexting (by simp),by simp [h, bare]⟩

def Comes (c : Config) (m : Machine) (x : Query) (qs : List Query) (r : List Event × Verdict) :
    Prop :=
  match r.2 with
  | .freed bare => ∃ e' m', e'.suspended = none ∧ e'.replies = c.1.replies ∧
      Cleared m m' x qs r.1 ∧
      Reaches turn c (e',if bare then .ok (m'.user []) else handleQuery [] (ret []) m')
  | .crash => ∃ e' f, Reaches turn c (e',.error f)
  | .hang => eval turn c = Part.none

theorem comes_of_reaches {c c' : Config} {m' : Machine} {ev ev' : List Event} {v : Verdict}
    (h : Reaches turn c c') (hr : Comes c' m' x qs (ev',v)) (hrep : c'.1.replies = c.1.replies)
    (hlog : m'.log = m.log++ev) (hfreed : m'.freed = m.freed) (hmulti : m'.multi = m.multi) :
    Comes c m x qs (ev++ev',v) := by
  cases v with
  | freed b =>
    obtain ⟨e',m'',hsus,hrep',hc,hreach⟩ := hr
    refine ⟨e',m'',hsus,hrep'.trans hrep,?_,h.trans hreach⟩
    refine ⟨hc.ready,hc.multi.trans hmulti,?_,?_,hc.queries⟩
    · rw [hc.log, hlog, List.append_assoc]
    · rw [hc.freed, hfreed]
  | crash =>
    obtain ⟨e',f,hreach⟩ := hr
    exact ⟨e',f,h.trans hreach⟩
  | hang => exact (reaches_eval h).trans hr

theorem comes_silent {c c' : Config} {m' : Machine} {r : List Event × Verdict}
    (h : Reaches turn c c') (hr : Comes c' m' x qs r) (hrep : c'.1.replies = c.1.replies)
    (hlog : m'.log = m.log) (hfreed : m'.freed = m.freed) (hmulti : m'.multi = m.multi) :
    Comes c m x qs r :=
  comes_of_reaches h hr hrep (hlog.trans (List.append_nil _).symm) hfreed hmulti

theorem serving_freed (hv : Serving m x qs) (c : Option ℕ) :
    { m with current_query := c }.queryFree x.id =
      .ok { m with current_query := c, queries := qs, freed := m.freed++[x.id] } := by
  obtain ⟨y,ys,hm,-,-,hfree⟩ := inFlight_head { m with current_query := c } x.id
    (inFlight_at hv.working.flight _ rfl rfl rfl rfl)
  have hq : m.queries = y::ys := hm
  obtain ⟨rfl,rfl⟩ := List.cons.inj (hv.queries.symm.trans hq)
  exact hfree

theorem serving_cleared (hv : Serving m x qs) (c : Option ℕ) :
    Cleared m { m with
      current_query := c, queries := qs, freed := m.freed++[x.id], state := .connected }
      x qs [] := by
  have hs := inFlight_freed m x.id x qs hv.queries hv.working.flight
  have ho := hv.working.isOpen
  exact ⟨⟨settled_at hs _ rfl rfl rfl rfl,⟨ho.alive,ho.tail,ho.linked⟩,hv.polled,hv.finish,rfl⟩,rfl,
    (List.append_nil _).symm,rfl,rfl⟩

theorem comes_freed (hsus : e.suspended = none) (hv : Serving m x qs) (hk : Returns x.id [] k)
    (c : Option ℕ) :
    Comes (e,({ m with current_query := c }.queryFree x.id).bind fun m =>
      ret k { m with state := .connected }) m x qs ([],.freed (bare k)) := by
  have hc := serving_cleared hv c
  have hret := ret_freed hc.ready.isOpen rfl x.id hk
  rw [serving_freed hv c]
  refine ⟨e,_,hsus,rfl,hc,?_⟩
  rw [← hret]
  exact .refl

theorem comes_failed (hsus : e.suspended = none) (hv : Serving m x qs) :
    Comes
      (e,(m.queryFree x.id).bind fun m => handleQuery [] (ret []) { m with state := .connected })
      m x qs ([],.freed false) := by
  rw [show m.queryFree x.id = _ from serving_freed hv m.current_query]
  exact ⟨e,_,hsus,rfl,serving_cleared hv m.current_query,.refl⟩

theorem eval_of_loop {σ : Type*} (f : σ → Option σ) (a : σ) (h : f a = some a) :
    eval f a = Part.none := by
  have hstay : ∀ b, Reaches f a b → b = a := by
    intro b hb
    induction hb with
    | refl => rfl
    | tail _ hstep ih =>
      subst ih
      exact (Option.some.inj (h.symm.trans hstep)).symm
  rw [Part.eq_none_iff]
  intro b hb
  obtain ⟨hreach,hhalt⟩ := mem_eval.mp hb
  rw [hstay b hreach, h] at hhalt
  cases hhalt

/-- Nobody ends the loop of `mariadb_on_read` over errors of statements. -/
theorem hang_nextCont (hsus : e.suspended = none) (hst : m.state = .nextResulted) :
    eval turn (e,.ok (m.await .nextCont [])) = Part.none := by
  apply eval_of_loop
  have hout : e.answer .nextCont = (.next .error,e) := continued_outOfSync e .next hsus
  rw [turn_await, hout]
  show some (e,Except.ok ({ m with state := .nextResulted }.await .nextCont [])) = _
  rw [← hst]

theorem freeStarted_single (h : m.multi = false) : freeStarted k m q .done =
    ({ m with state := .resultFreed, current_query := none }.queryFree q).bind fun m =>
      ret k { m with state := .connected } := by
  rw [freeStarted, if_neg (by simpa using h)]

theorem freeContinued_single (h : m.multi = false) : freeContinued k m .done =
    .error .nullPointer := by
  rw [freeContinued, if_neg (by simpa using h)]

theorem freeStarted_multi (hv : Serving m x qs) (q : ℕ) (h : m.multi = true) :
    freeStarted k m q .done = .ok ({ m with state := .resultFreed }.await (.nextStart x.id) k) := by
  rw [freeStarted, if_pos h]
  exact serving_call (serving_at hv _ _ _ _) .nextStart

theorem freeContinued_multi (hv : Serving m x qs) (h : m.multi = true) :
    freeContinued k m .done = .ok ({ m with state := .resultFreed }.await (.nextStart x.id) k) := by
  rw [freeContinued, if_pos h]
  exact serving_call (serving_at hv _ _ _ _) .nextStart

theorem result_reaches (hv : Serving m x qs) (hres : e.useResult = true) :
    Reaches turn (e,.ok (m.await (.useResult x.id) k))
      (e,.ok ({ m with log := m.log++resultEvents x }.await (.fetchStart x.id) k)) := by
  have hv' := serving_at hv m.state m.log (some (.useResult x.id)) k
  apply reaches_head (turn_await e m (.useResult x.id) k)
  show Reaches turn (e,resultUsed k (m.await (.useResult x.id) k) x.id (.result e.useResult)) _
  have hrow : handleRow k (m.await (.useResult x.id) k) = _ := serving_call hv' .fetchStart
  rw [hres, resultUsed, show (m.await (.useResult x.id) k).lookup x.id = .ok x from
    serving_lookup hv']
  show Reaches turn (e,if x.abort = true then _ else if x.result_cb = true then _
    else handleRow k (m.await (.useResult x.id) k)) _
  rw [if_neg (by simp [hv.wanted]), hrow]
  exact reaches_told (m := m.await (.useResult x.id) k) e x.result_cb (.result x.id) .resultCb _ k
    (serving_returned (serving_at hv _ _ _ _)).1

section Results

variable (hsus : e.suspended = none) (hv : Serving m x qs) (hk : Returns x.id [] k) {b : ℕ}
  {rest : List (ℕ × Statement)}

include hsus hv hk

section ResultSet

variable {rows : List ℕ} {failed : Bool} {last free : ℕ}
  (he : e.now.statements = (b,.set rows failed last free)::rest)

include he

/-- The rows are fetched, and the result is freed: by the handler that was
asked for it, or by the read event of the last fetch. -/
theorem fetch_reaches :
    ∃ rows', Reaches turn (e,.ok (m.await (.fetchStart x.id) k))
      (e.left ((b,.set rows' failed last (unread rows free))::rest),
        .ok ({ m with state := .rowFetched, log := m.log++(fetched x failed last rows).1 }.await
          (.freeStart x.id) (if (fetched x failed last rows).2 then [.readRowEnd] else k))) := by
  induction rows generalizing e m with
  | nil =>
    refine ⟨[],?_⟩
    have hdone : e.complete .fetch =
        (.noRow failed,e.left ((b,.set [] failed last 0)::rest)) := by
      rw [Server.complete, he]
    rw [unread_nil, fetched]
    cases last with
    | zero =>
      have hb : e.blocks .fetch = 0 := by rw [Server.blocks, he]
      have hr := reaches_start e e m (.fetchStart x.id) k .fetch rfl hb hdone
      exact hr.trans (rows_started _ (serving_at hv _ _ _ _) failed)
    | succ l =>
      have hb : e.blocks .fetch = l+1 := by rw [Server.blocks, he]
      have hr := reaches_serving e e hv hk .fetch l rfl hb hsus hdone
      exact hr.trans (rows_continued _ (serving_at hv _ _ _ _) failed)
  | cons r rows ih =>
    have hdone : e.complete .fetch = (.row,e.left ((b,.set rows failed last free)::rest)) := by
      rw [Server.complete, he]
    rw [fetched]
    cases r with
    | zero =>
      have hb : e.blocks .fetch = 0 := by rw [Server.blocks, he]
      have hr := reaches_start e e m (.fetchStart x.id) k .fetch rfl hb hdone
      obtain ⟨rows',hrest⟩ := ih (e.left ((b,.set rows failed last free)::rest)) hsus
        (serving_at hv .rowFetched (m.log++rowEvents x) m.point m.stack) rfl
      refine ⟨rows',(hr.trans (row_started _ (serving_at hv _ _ _ _))).trans ?_⟩
      rw [if_pos rfl, ← List.append_assoc, unread_immediate]
      exact hrest
    | succ l =>
      have hb : e.blocks .fetch = l+1 := by rw [Server.blocks, he]
      have hr := reaches_serving e e hv hk .fetch l rfl hb hsus hdone
      refine ⟨rows,(hr.trans (row_continued _ (serving_at hv _ _ _ _))).trans ?_⟩
      have hout : (e.left ((b,.set rows failed last free)::rest)).answer .fetchCont =
          (.noRow true,e.left ((b,.set rows failed last free)::rest)) :=
        continued_outOfSync (e.left _) .fetch hsus
      apply reaches_head (turn_await _ _ _ _)
      rw [hout]
      have hend := rows_continued (k := []) (e.left ((b,.set rows failed last free)::rest))
        (serving_at hv .rowFetched (m.log++rowEvents x) (some .fetchCont) []) true
      rw [endEvents, if_neg (by simp), List.append_nil] at hend
      rw [unread_deferred]
      exact hend

/-- A result is freed at once, or after read events. -/
theorem free_reaches :
    Reaches turn (e,.ok (m.await (.freeStart x.id) k)) (e.left rest,
      if free = 0 then freeStarted k (m.await (.freeStart x.id) k) x.id .done
      else freeContinued [] ({ m with state := .resultFreeing }.await .freeCont []) .done) := by
  have hdone : e.complete .free = (.done,e.left rest) := by
    rw [Server.complete, he]
    rfl
  have hb : e.blocks .free = free := by rw [Server.blocks, he]
  cases free with
  | zero => exact reaches_start e e m (.freeStart x.id) k .free rfl hb hdone
  | succ l => exact reaches_serving e e hv hk .free l rfl hb hsus hdone

theorem free_single (hmulti : m.multi = false) :
    Comes (e,.ok (m.await (.freeStart x.id) k)) m x qs
      ([],if free = 0 then .freed (bare k) else .crash) := by
  have hr := free_reaches e hsus hv hk he
  split_ifs with hfree
  · rw [if_pos hfree] at hr
    have hf := comes_freed (e.left rest) hsus
      (serving_at hv .resultFreed m.log (some (.freeStart x.id)) k) hk none
    exact comes_silent (reaches_to hr (freeStarted_single (m := m.await (.freeStart x.id) k) x.id
      hmulti)) hf rfl rfl rfl rfl
  · rw [if_neg hfree] at hr
    have hcrash : freeContinued [] ({ m with state := .resultFreeing }.await .freeCont []) .done =
        .error .nullPointer := freeContinued_single hmulti
    exact ⟨e.left rest,.nullPointer,reaches_to hr hcrash⟩

/-- With several statements the result is freed, and the next one asked for:
after a read event nobody waits for the query to end. -/
theorem free_multi (hmulti : m.multi = true) :
    Reaches turn (e,.ok (m.await (.freeStart x.id) k))
      (e.left rest,.ok ({ m with state := .resultFreed }.await (.nextStart x.id)
        (if free = 0 then k else []))) := by
  have hr := free_reaches e hsus hv hk he
  split_ifs with hfree
  · rw [if_pos hfree] at hr
    have hf := freeStarted_multi (k := k)
      (serving_at hv m.state m.log (some (.freeStart x.id)) k) x.id hmulti
    exact reaches_to hr hf
  · rw [if_neg hfree] at hr
    have hf := freeContinued_multi (k := [])
      (serving_at hv .resultFreeing m.log (some .freeCont) []) hmulti
    exact reaches_to hr hf

theorem set_reaches :
    ∃ rows', Reaches turn (e,.ok (m.await (.useResult x.id) k))
      (e.left ((b,.set rows' failed last (unread rows free))::rest),
        .ok ({ m with
          state := .rowFetched,
          log := m.log++(resultEvents x++(fetched x failed last rows).1) }.await
          (.freeStart x.id) (if (fetched x failed last rows).2 then [.readRowEnd] else k))) := by
  have hres : e.useResult = true := by rw [Server.useResult, he]
  obtain ⟨rows',hfetch⟩ := fetch_reaches e hsus
    (serving_at hv m.state (m.log++resultEvents x) m.point m.stack) hk he
  refine ⟨rows',(result_reaches e hv hres).trans ?_⟩
  rw [← List.append_assoc]
  exact hfetch

/-- With several statements the next result is asked for behind a result set. -/
theorem set_passes (hmulti : m.multi = true) :
    ∃ k', Reaches turn (e,.ok (m.await (.useResult x.id) k))
        (e.left rest,.ok ({ m with
          state := .resultFreed,
          log := m.log++(resultEvents x++(fetched x failed last rows).1) }.await
          (.nextStart x.id) k')) ∧
      Returns x.id [] k' ∧
      bare k' = (bare k && !(fetched x failed last rows).2 || decide (unread rows free ≠ 0)) := by
  obtain ⟨rows',hset⟩ := set_reaches e hsus hv hk he
  obtain ⟨hk',hbare⟩ := after_fetch x.id hk (fetched x failed last rows).2
  have hfree := free_multi (e.left ((b,.set rows' failed last (unread rows free))::rest)) hsus
    (serving_at hv .rowFetched (m.log++(resultEvents x++(fetched x failed last rows).1)) m.point
      m.stack) hk' rfl hmulti
  obtain ⟨hk'',hbare'⟩ := after_free x.id hk' (unread rows free)
  exact ⟨_,hset.trans hfree,hk'',hbare'.trans (by rw [hbare])⟩

end ResultSet

theorem noResult_comes (hres : e.useResult = false) :
    Comes (e,.ok (m.await (.useResult x.id) k)) m x qs ([],.freed (bare k)) := by
  have hf := comes_freed e hsus (serving_at hv m.state m.log (some (.useResult x.id)) k) hk
    m.current_query
  refine comes_silent (reaches_head (turn_await e m (.useResult x.id) k) ?_) hf rfl rfl rfl rfl
  show Reaches turn (e,resultUsed k (m.await (.useResult x.id) k) x.id (.result e.useResult)) _
  rw [hres]
  exact .refl

/-- A result is used, and the query goes on to its end. -/
theorem result_comes (st : Statement) (hst : st ≠ .error) (he : e.now.statements = (b,st)::rest)
    (hrest : ∀ e' : Server, ∀ m' : Machine, ∀ k' : List Frame, e'.now = ⟨rest,e.now.done⟩ →
      e'.suspended = none → Serving m' x qs → m'.multi = true → Returns x.id [] k' →
      Comes (e',.ok (m'.await (.nextStart x.id) k')) m' x qs
        (following x e.now.done (bare k') rest)) :
    Comes (e,.ok (m.await (.useResult x.id) k)) m x qs
      (resultOf m.multi x (bare k) st fun bare => following x e.now.done bare rest) := by
  cases st with
  | error => exact absurd rfl hst
  | noResult => exact noResult_comes e hsus hv hk (by rw [Server.useResult, he])
  | set rows failed last free =>
    rw [resultOf]
    cases hmulti : m.multi with
    | true =>
      obtain ⟨k',hset,hk',hbare⟩ := set_passes e hsus hv hk he hmulti
      have hc := hrest (e.left rest) _ k' rfl hsus (serving_at hv .resultFreed
        (m.log++(resultEvents x++(fetched x failed last rows).1)) m.point m.stack) hmulti hk'
      rw [hbare] at hc
      exact comes_of_reaches hset hc rfl rfl rfl rfl
    | false =>
      obtain ⟨rows',hset⟩ := set_reaches e hsus hv hk he
      obtain ⟨hk',hbare⟩ := after_fetch x.id hk (fetched x failed last rows).2
      have hc := free_single (e.left ((b,.set rows' failed last (unread rows free))::rest)) hsus
        (serving_at hv .rowFetched (m.log++(resultEvents x++(fetched x failed last rows).1)) m.point
          m.stack) hk' rfl hmulti
      rw [hbare] at hc
      have hend := comes_of_reaches hset hc rfl rfl rfl rfl
      rw [List.append_nil] at hend
      exact hend

theorem more_reaches (st : Statement) (hst : st ≠ .error) (he : e.now.statements = (b,st)::rest) :
    Reaches turn (e,.ok (m.await (.nextStart x.id) k))
      (e,.ok ({ m with state := .nextResulted }.await (.useResult x.id)
        (if b = 0 then .nextLoop x.id::k else [.readNexting]))) := by
  have hdone : e.complete .next = (.next .more,e) := by
    rw [Server.complete, he]
    cases st with
    | error => exact absurd rfl hst
    | noResult => rfl
    | set => rfl
  have hb : e.blocks .next = b := by rw [Server.blocks, he]
  cases b with
  | zero =>
    have hr := reaches_start e e m (.nextStart x.id) k .next rfl hb hdone
    exact reaches_to hr (serving_call (serving_at hv .nextResulted m.log (some (.nextStart x.id)) k)
      .useResult)
  | succ l =>
    have hr := reaches_serving e e hv hk .next l rfl hb hsus hdone
    exact reaches_to hr (serving_call (serving_at hv .nextResulted m.log (some .nextCont) [])
      .useResult)

/-- There is no further result: in a read event the query is lost before it is
freed. -/
theorem last_comes (he : e.now.statements = []) :
    Comes (e,.ok (m.await (.nextStart x.id) k)) m x qs
      ([],if e.now.done = 0 then .freed (bare k) else .crash) := by
  have hdone : e.complete .next = (.next .none,e) := by rw [Server.complete, he]
  have hb : e.blocks .next = e.now.done := by rw [Server.blocks, he]
  cases hd : e.now.done with
  | zero =>
    have hr := reaches_start e e m (.nextStart x.id) k .next rfl (hb.trans hd) hdone
    have hf := comes_freed e hsus
      (serving_at hv .nextResulted m.log (some (.nextStart x.id)) k) hk none
    exact comes_silent hr hf rfl rfl rfl rfl
  | succ l =>
    exact ⟨e,.nullPointer,reaches_serving e e hv hk .next l rfl (hb.trans hd) hsus hdone⟩

/-- The next statement failed: the one behind it is asked for, or, in a read
event, nobody asks. -/
theorem error_comes (he : e.now.statements = (b,.error)::rest) (r : List Event × Verdict)
    (hrest : ∀ m' : Machine, Serving m' x qs → m'.multi = m.multi →
      Comes (e.left rest,.ok (m'.await (.nextStart x.id) k)) m' x qs r) :
    Comes (e,.ok (m.await (.nextStart x.id) k)) m x qs (if b = 0 then r else ([],.hang)) := by
  have hdone : e.complete .next = (.next .error,e.left rest) := by rw [Server.complete, he]
  have hb : e.blocks .next = b := by rw [Server.blocks, he]
  cases b with
  | zero =>
    have hr := reaches_start e e m (.nextStart x.id) k .next rfl hb hdone
    have hc := hrest _ (serving_at hv .nextResulted m.log m.point m.stack) rfl
    exact comes_silent hr hc rfl rfl rfl rfl
  | succ l =>
    have hr := reaches_serving e e hv hk .next l rfl hb hsus hdone
    have hhang := hang_nextCont (m := { m with state := .nextResulted }) (e.left rest) hsus rfl
    exact (reaches_eval hr).trans hhang

end Results

theorem following_cons (done : ℕ) (bare : Bool) (b : ℕ) (st : Statement) (hst : st ≠ .error)
    (rest : List (ℕ × Statement)) :
    following x done bare ((b,st)::rest) =
      resultOf true x (bare && decide (b = 0)) st fun bare => following x done bare rest := by
  cases st with
  | error => exact absurd rfl hst
  | noResult => rfl
  | set => rfl

/-- The further statements of a query, after a result was freed. -/
theorem following_comes (done : ℕ) (sts : List (ℕ × Statement)) (he : e.now = ⟨sts,done⟩)
    (hsus : e.suspended = none) (hv : Serving m x qs) (hmulti : m.multi = true)
    (hk : Returns x.id [] k) :
    Comes (e,.ok (m.await (.nextStart x.id) k)) m x qs (following x done (bare k) sts) := by
  induction sts generalizing e m k with
  | nil =>
    have hlast := last_comes e hsus hv hk (by rw [he])
    rw [he] at hlast
    exact hlast
  | cons head rest ih =>
    obtain ⟨b,st⟩ := head
    have hsts : e.now.statements = (b,st)::rest := by rw [he]
    by_cases hst : st = .error
    · subst hst
      apply error_comes e hsus hv hk hsts
      intro m' hv' hmulti'
      exact ih (e.left rest) (by rw [Server.left, he]) hsus hv' (hmulti'.trans hmulti) hk
    · have hmore := more_reaches e hsus hv hk st hst hsts
      obtain ⟨hk',hbare⟩ := after_next x.id hk b
      have hd : e.now.done = done := by rw [he]
      have hc := result_comes e hsus (serving_at hv .nextResulted m.log m.point m.stack) hk' st
        hst hsts
        (fun e' m' k' he' hsus' hv' hm' hk' => hd.symm ▸ ih e' (hd ▸ he') hsus' hv' hm' hk')
      rw [hbare, hd] at hc
      rw [following_cons done (bare k) b st hst rest, ← hmulti]
      exact comes_silent hmore hc rfl rfl rfl rfl

theorem query_reaches (hsus : e.suspended = none) (hv : Serving m x qs)
    (hdone : { e with now := e.replies x.id }.complete .query =
      (.done,{ e with now := e.replies x.id })) :
    ∃ f, Returns x.id [] [f] ∧ bare [f] = false ∧
      Reaches turn (e,.ok (m.await (.queryStart x.id) []))
        ({ e with now := e.replies x.id },.ok ({ m with state := .queried }.await
          (.useResult x.id) [f])) := by
  cases hb : { e with now := e.replies x.id }.blocks .query with
  | zero =>
    have hr := reaches_start e { e with now := e.replies x.id } m (.queryStart x.id) [] .query rfl
      hb hdone
    exact ⟨.queryLoop,.handler .queryLoop (by simp),rfl,reaches_to hr
      (serving_call (serving_at hv .queried m.log (some (.queryStart x.id)) []) .useResult)⟩
  | succ l =>
    have hr := reaches_serving e { e with now := e.replies x.id } hv .here .query l rfl hb hsus
      hdone
    exact ⟨.readQuerying,.handler .readQuerying (by simp),rfl,reaches_to hr
      (serving_call (serving_at hv .queried m.log (some .queryCont) []) .useResult)⟩

theorem queryStarted_failed (hv : Serving m x qs) (hst : m.state = .connected) :
    queryStarted k m x.id .failed =
      (m.queryFree x.id).bind fun m => handleQuery k (ret k) { m with state := .connected } := by
  rw [queryStarted, show m.queryFree x.id = _ from serving_freed hv m.current_query, ← hst]
  rfl

theorem queryContinued_failed (hv : Serving m x qs) :
    queryContinued k m .failed =
      (m.queryFree x.id).bind fun m => handleQuery k (ret k) { m with state := .connected } := by
  rw [queryContinued, serving_current hv]
  rfl

theorem refused_comes (hsus : e.suspended = none) (hv : Serving m x qs)
    (hst : m.state = .connected)
    (hdone : { e with now := e.replies x.id }.complete .query =
      (.failed,{ e with now := e.replies x.id })) :
    Comes (e,.ok (m.await (.queryStart x.id) [])) m x qs ([],.freed false) := by
  cases hb : { e with now := e.replies x.id }.blocks .query with
  | zero =>
    have hr := reaches_start e { e with now := e.replies x.id } m (.queryStart x.id) [] .query rfl
      hb hdone
    have hv' := serving_at hv m.state m.log (some (.queryStart x.id)) []
    exact comes_silent (reaches_to hr (queryStarted_failed hv' hst))
      (comes_failed { e with now := e.replies x.id } hsus hv') rfl rfl rfl rfl
  | succ l =>
    have hr := reaches_serving e { e with now := e.replies x.id } hv .here .query l rfl hb hsus
      hdone
    have hv' := serving_at hv .querying m.log (some .queryCont) []
    exact comes_silent (reaches_to hr (queryContinued_failed hv'))
      (comes_failed { e with now := e.replies x.id } hsus hv') rfl rfl rfl rfl

theorem query_comes (hsus : e.suspended = none) (hv : Serving m x qs)
    (hst : m.state = .connected) :
    Comes (e,.ok (m.await (.queryStart x.id) [])) m x qs
      (queryRun m.multi x (e.replies x.id)) := by
  have hv' := serving_at hv .queried m.log m.point m.stack
  cases h : (e.replies x.id).statements with
  | nil =>
    have hdone : { e with now := e.replies x.id }.complete .query =
        (.done,{ e with now := e.replies x.id }) := by rw [Server.complete, h]
    obtain ⟨f,hk,hbare,hr⟩ := query_reaches e hsus hv hdone
    have hc := noResult_comes { e with now := e.replies x.id } hsus hv' hk
      (by rw [Server.useResult, h])
    rw [hbare] at hc
    rw [queryRun, h]
    exact comes_silent hr hc rfl rfl rfl rfl
  | cons head rest =>
    obtain ⟨b,st⟩ := head
    by_cases hfail : st = .error
    · subst hfail
      rw [queryRun, h]
      apply refused_comes e hsus hv hst
      rw [Server.complete, h]
    · have hdone : { e with now := e.replies x.id }.complete .query =
          (.done,{ e with now := e.replies x.id }) := by
        rw [Server.complete, h]
        cases st with
        | error => exact absurd rfl hfail
        | noResult => rfl
        | set => rfl
      have hrun : queryRun m.multi x (e.replies x.id) =
          resultOf m.multi x false st
            fun bare => following x (e.replies x.id).done bare rest := by
        rw [queryRun, h]
        cases st with
        | error => exact absurd rfl hfail
        | noResult => rfl
        | set => rfl
      obtain ⟨f,hk,hbare,hr⟩ := query_reaches e hsus hv hdone
      have hc := result_comes { e with now := e.replies x.id } hsus hv' hk st hfail h
        (fun e' m' k' he hsus hv hm hk => following_comes e' _ rest he hsus hv hm hk)
      rw [hbare] at hc
      rw [hrun]
      exact comes_silent hr hc rfl rfl rfl rfl

end Phases

/-- What the queries come to, one after the other. -/
def queueOutcome (multi : Bool) (replies : ℕ → Reply) :
    List Query → List Event → List ℕ → Part (Option Outcome)
  | [],log,freed => Part.some (some ⟨log,freed,true,.connected,[]⟩)
  | q::qs,log,freed =>
    if q.abort = true ∨ q.query_str = false then queueOutcome multi replies qs log (freed++[q.id])
    else
      match queryRun multi q (replies q.id) with
      | (ev,.freed false) => queueOutcome multi replies qs (log++ev) (freed++[q.id])
      | (ev,.freed true) =>
        Part.some (some ⟨log++ev,freed++[q.id],true,.connected,qs.map Query.id⟩)
      | (_,.crash) => Part.some none
      | (_,.hang) => Part.none

section Connection

variable {m : Machine} {n : ℕ}

variable (e : Server)

theorem outcome_idle (hsus : e.suspended = none) (a : Bool) (ha : m.alive = a) (s : ConnState)
    (hst : m.state = s) :
    outcome (e,.ok (m.user [])) =
      Part.some (some ⟨m.log,m.freed,a,s,m.queries.map Query.id⟩) := by
  subst ha hst
  apply outcome_of_halt
  have hif : turn (e,.ok (m.user [])) = if e.suspended.isSome ∧ m.polled = true then
      some (e,step (m.user []) .read) else none := rfl
  rw [hif, hsus, if_neg (by simp)]

theorem outcome_crash (f : Fault) : outcome (e,.error f) = Part.some none :=
  outcome_of_halt rfl

theorem outcome_hang (c : Config) (h : eval turn c = Part.none) : outcome c = Part.none := by
  rw [outcome, h, Part.map_none]

theorem query_outcome (q : Query) (qs : List Query) (hsus : e.suspended = none)
    (hv : Serving m q qs) (hst : m.state = .connected)
    (hrest : ∀ e' : Server, ∀ m' : Machine, e'.suspended = none → ∀ ev, Cleared m m' q qs ev →
      outcome (e',handleQuery [] (ret []) m') =
        queueOutcome m'.multi e'.replies qs m'.log m'.freed) :
    outcome (e,.ok (m.await (.queryStart q.id) [])) =
      match queryRun m.multi q (e.replies q.id) with
      | (ev,.freed false) => queueOutcome m.multi e.replies qs (m.log++ev) (m.freed++[q.id])
      | (ev,.freed true) =>
        Part.some (some ⟨m.log++ev,m.freed++[q.id],true,.connected,qs.map Query.id⟩)
      | (_,.crash) => Part.some none
      | (_,.hang) => Part.none := by
  have hcomes := query_comes e hsus hv hst
  generalize queryRun m.multi q (e.replies q.id) = r at hcomes
  obtain ⟨ev,v⟩ := r
  cases v with
  | freed b =>
    obtain ⟨e',m',hsus',hrep,hc,hreach⟩ := hcomes
    rw [outcome_of_reaches hreach]
    cases b with
    | false =>
      have hnext := hrest e' m' hsus' ev hc
      rw [hc.log, hc.freed, hc.multi, hrep] at hnext
      exact hnext
    | true =>
      have hidle := outcome_idle e' hsus' true hc.ready.isOpen.alive .connected hc.ready.state
      rw [hc.log, hc.freed, hc.queries] at hidle
      exact hidle
  | crash =>
    obtain ⟨e',f,hreach⟩ := hcomes
    rw [outcome_of_reaches hreach]
    exact outcome_crash e' f
  | hang => exact outcome_hang _ hcomes

/-- A query that is not passed to the server is dropped. -/
theorem ready_pop (q : Query) (qs : List Query) (hm : Ready { m with queries := q::qs } n)
    (s : ConnState) (hs : s = .connected) :
    Ready { m with queries := qs, state := s, freed := m.freed++[q.id] } (n+1) :=
  ⟨settled_pop m n q qs s hm.settled,⟨hm.isOpen.alive,hm.isOpen.tail,hm.isOpen.linked⟩,hm.polled,
    hm.finish,hs⟩

theorem ready_serves (q : Query) (qs : List Query) (hm : Ready { m with queries := q::qs } n)
    (habort : q.abort = false) : q.id = n ∧ Serving { m with
      queries := q::qs, current_query := some q.id, started := m.started++[q.id] } q qs := by
  have hid := (ledger_head m n q qs hm.settled.toLedger).1
  have hflight := settled_start m n q qs hm.settled
  refine ⟨hid,⟨⟨hm.isOpen.alive,hm.isOpen.tail,hm.isOpen.linked⟩,fun h => absurd rfl h,?_,rfl⟩,rfl,
    habort,hm.polled,hm.finish⟩
  rw [hid]
  exact hid ▸ hflight

theorem loop_outcome (qs : List Query) (hsus : e.suspended = none)
    (hm : Ready { m with queries := qs } n) : outcome (e,queryLoop [] (ret []) qs m) =
      queueOutcome m.multi e.replies qs m.log m.freed := by
  induction qs generalizing e m n with
  | nil =>
    have hfinish : m.disconnect_on_finish = false := hm.finish
    rw [queryLoop, if_neg (by simp [hfinish])]
    exact outcome_idle (m := { m with queries := [], current_query := none, state := .connected })
      e hsus true hm.isOpen.alive .connected rfl
  | cons q qs ih =>
    rw [queryLoop, queueOutcome]
    by_cases hskip : q.abort = true ∨ q.query_str = false
    · rw [if_pos hskip]
      by_cases habort : q.abort = true
      · rw [if_pos habort]
        exact ih e hsus (ready_pop q qs hm .connected rfl)
      · have hstr : q.query_str = false := hskip.resolve_left habort
        rw [if_neg habort, if_neg (by simp [hstr])]
        exact ih e hsus (ready_pop q qs hm m.state hm.state)
    · have habort : q.abort = false := by simpa using fun h => hskip (.inl h)
      have hstr : q.query_str = true := by simpa using fun h => hskip (.inr h)
      rw [if_neg hskip, if_neg (by simp [habort]), if_pos hstr]
      obtain ⟨-,hv⟩ := ready_serves q qs hm habort
      apply query_outcome e q qs hsus hv hm.state
      intro e' m' hsus' ev hc
      have hsame : { m' with queries := qs } = m' := by rw [← hc.queries]
      rw [handleQuery, hc.queries]
      exact ih e' hsus' (hsame ▸ hc.ready)

theorem queue_outcome (hsus : e.suspended = none) (hm : Ready m n) :
    outcome (e,handleQuery [] (ret []) m) =
      queueOutcome m.multi e.replies m.queries m.log m.freed :=
  loop_outcome e m.queries hsus hm

def connectEvents (cb ok : Bool) : List Event := if cb then [.connect ok] else []

def refusedOutcome (m : Machine) (connect : ℕ) : Outcome :=
  if connect = 0 then
    ⟨m.log++connectEvents m.connect_cb false,m.freed++m.queries.map Query.id,false,.closed,[]⟩
  else ⟨m.log++connectEvents m.connect_cb false,m.freed,true,.connecting,m.queries.map Query.id⟩

/-- `mysql_real_connect` is called. -/
structure Unconnected (m : Machine) (n : ℕ) : Prop where
  settled : Settled m n
  alive : m.alive = true
  state : m.state = .closed
  finish : m.disconnect_on_finish = false

/-- The connection `m` has become the open connection `m'`. -/
structure Opened (m m' : Machine) (n : ℕ) : Prop where
  ready : Ready m' n
  multi : m'.multi = m.multi
  queries : m'.queries = m.queries
  log : m'.log = m.log++connectEvents m.connect_cb true
  freed : m'.freed = m.freed

theorem connectEnd_connected (ha : m.alive = true) (hst : m.state = .connected) :
    returned m [.connectedCb] =
      handleQuery [] (ret []) { m with linked := true, polled := true } := by
  rw [returned, if_pos ha]
  show connectEnd [] m = _
  rw [connectEnd, resume, if_pos hst]

theorem started_reaches (hm : Unconnected m n) : ∃ m', Opened m m' n ∧
    Reaches turn (e,connectStarted [] m .done) (e,handleQuery [] (ret []) m') := by
  have hready : ∀ l : List Event, ∀ p : Option Point, ∀ k : List Frame, Ready { m with
      state := .connected, log := l, point := p, stack := k, linked := true, polled := true } n :=
    fun l p k => ⟨settled_at hm.settled _ rfl rfl rfl rfl,⟨hm.alive,.loop,fun _ => rfl⟩,rfl,
      hm.finish,rfl⟩
  rw [connectStarted]
  split_ifs with hcb
  · have hret := connectEnd_connected
      (m := ({ m with state := .connected }.logged (.connect true)).user [.connectedCb])
      hm.alive rfl
    refine ⟨_,⟨hready (m.log++[Event.connect true]) none [.connectedCb],rfl,rfl,?_,rfl⟩,
      reaches_callback e .connectedCb _ hret⟩
    rw [connectEvents, if_pos hcb]
  · refine ⟨_,⟨hready m.log m.point m.stack,rfl,rfl,?_,rfl⟩,?_⟩
    · rw [connectEvents, if_neg hcb, List.append_nil]
    · rw [connectEnd, resume, if_pos rfl]
      exact .refl

theorem continued_reaches (hs : Settled m n) (ha : m.alive = true) (hl : m.linked = true)
    (hpoll : m.polled = true) (hfinish : m.disconnect_on_finish = false) :
    ∃ m', Opened m m' n ∧
      Reaches turn (e,connectContinued [] m .done) (e,handleQuery [] (ret []) m') := by
  have hready : ∀ l : List Event, ∀ p : Option Point, ∀ k : List Frame,
      Ready { m with state := .connected, log := l, point := p, stack := k } n := fun l p k =>
    ⟨settled_at hs _ rfl rfl rfl rfl,⟨ha,.loop,fun _ => hl⟩,hpoll,hfinish,rfl⟩
  have hret : ∀ m' : Machine, m'.alive = true →
      returned m' [.readConnectedCb] = handleQuery [] (ret []) m' := by
    intro m' ha
    rw [returned, if_pos ha]
  rw [connectContinued]
  split_ifs with hcb
  · refine ⟨_,⟨hready (m.log++[Event.connect true]) none [.readConnectedCb],rfl,rfl,?_,rfl⟩,
      reaches_callback e .readConnectedCb _
        (hret (({ m with state := .connected }.logged (.connect true)).user [.readConnectedCb]) ha)⟩
    rw [connectEvents, if_pos hcb]
  · refine ⟨_,⟨hready m.log m.point m.stack,rfl,rfl,?_,rfl⟩,.refl⟩
    rw [connectEvents, if_neg hcb, List.append_nil]

theorem outcome_callback (f : Frame) (k : List Frame) (r : Except Fault Machine)
    (h : returned (m.user (f::k)) (f::k) = r) : outcome (e,.ok (m.user (f::k))) = outcome (e,r) :=
  outcome_of_reaches (reaches_callback e f r h)

theorem started_refused (hsus : e.suspended = none) (hm : Unconnected m n) :
    outcome (e,connectStarted [] m .failed) = Part.some (some (refusedOutcome m 0)) := by
  rw [connectStarted, refusedOutcome, if_pos rfl, connectEvents]
  split_ifs
  · have hret : ∀ m' : Machine, m'.alive = true →
        returned m' [.refusedCb] = ret [] m'.connFree := by
      intro m' ha
      rw [returned, if_pos ha]
    refine (outcome_callback e .refusedCb [] _ (hret _ ?_)).trans ?_
    · exact hm.alive
    · exact outcome_idle (m := Machine.connFree _) e hsus false rfl .closed hm.state
  · rw [List.append_nil]
    exact outcome_idle (m := m.connFree) e hsus false rfl .closed hm.state

theorem continued_refused (hsus : e.suspended = none) (ha : m.alive = true)
    (hst : m.state = .connecting) (l : ℕ) :
    outcome (e,connectContinued [] m .failed) = Part.some (some (refusedOutcome m (l+1))) := by
  rw [refusedOutcome, if_neg (Nat.succ_ne_zero l), connectContinued, connectEvents]
  split_ifs
  · refine (outcome_callback e .readRefusedCb [] _ rfl).trans ?_
    exact outcome_idle (m := { m with polled := false, log := m.log++[.connect false] }) e hsus true
      ha .connecting hst
  · rw [List.append_nil]
    exact outcome_idle (m := { m with polled := false }) e hsus true ha .connecting hst

theorem connect_deferred (hsus : e.suspended = none) (hm : Unconnected m n) (l : ℕ)
    (hb : e.connect = l+1) : Reaches turn (e,.ok (m.await .connectStart []))
      (e,connectContinued [] ({ m with state := .connecting, linked := true, polled := true }.await
        .connectCont []) (if e.refused then .failed else .done)) := by
  have hread : ∀ m' : Machine, m'.alive = true → m'.state = .connecting →
      onRead m' = .ok (m'.await .connectCont []) := by
    intro m' ha hst
    rw [onRead, if_pos ha, hst]
  have hr := reaches_suspended e e m .connectStart []
    { m with state := .connecting, linked := true, polled := true } .connect l .connectCont rfl hb
    (fun _ => rfl) rfl rfl (hread _ hm.alive rfl) rfl
  exact hr.tail (turn_last e _ .connectCont .connect (fun _ => rfl) hsus rfl)

theorem connect_reaches (hsus : e.suspended = none) (hm : Unconnected m n)
    (hopen : e.refused = false) : ∃ m', Opened m m' n ∧
      Reaches turn (e,.ok (m.await .connectStart [])) (e,handleQuery [] (ret []) m') := by
  cases hb : e.connect with
  | zero =>
    have hr := reaches_start e e m .connectStart [] .connect rfl hb rfl
    rw [hopen] at hr
    obtain ⟨m',ho,hreach⟩ := started_reaches (m := m.await .connectStart []) e
      ⟨settled_at hm.settled _ rfl rfl rfl rfl,hm.alive,hm.state,hm.finish⟩
    exact ⟨m',⟨ho.ready,ho.multi,ho.queries,ho.log,ho.freed⟩,hr.trans hreach⟩
  | succ l =>
    have hr := connect_deferred e hsus hm l hb
    rw [hopen] at hr
    obtain ⟨m',ho,hreach⟩ := continued_reaches (m := { m with
      state := .connecting, linked := true, polled := true }.await .connectCont []) e
      (settled_at hm.settled _ rfl rfl rfl rfl) hm.alive rfl rfl hm.finish
    exact ⟨m',⟨ho.ready,ho.multi,ho.queries,ho.log,ho.freed⟩,hr.trans hreach⟩

/-- What the connection and its queries come to. -/
theorem connect_outcome (hsus : e.suspended = none) (hm : Unconnected m n) :
    outcome (e,.ok (m.await .connectStart [])) =
      if e.refused then Part.some (some (refusedOutcome m e.connect))
      else queueOutcome m.multi e.replies m.queries
        (m.log++connectEvents m.connect_cb true) m.freed := by
  cases href : e.refused with
  | false =>
    obtain ⟨m',ho,hreach⟩ := connect_reaches e hsus hm href
    rw [outcome_of_reaches hreach, queue_outcome e hsus ho.ready, ho.multi, ho.queries, ho.log,
      ho.freed]
    rfl
  | true =>
    have hm' : Unconnected (m.await .connectStart []) n :=
      ⟨settled_at hm.settled _ rfl rfl rfl rfl,hm.alive,hm.state,hm.finish⟩
    cases hb : e.connect with
    | zero =>
      have hr := reaches_start e e m .connectStart [] .connect rfl hb rfl
      rw [href] at hr
      rw [outcome_of_reaches hr]
      exact started_refused e hsus hm'
    | succ l =>
      have hr := connect_deferred e hsus hm l hb
      rw [href] at hr
      rw [outcome_of_reaches hr]
      exact continued_refused (m := { m with
        state := .connecting, linked := true, polled := true }.await .connectCont []) e hsus
        hm.alive rfl l

end Connection

end Duda.MariadbQuery
