import Duda.MariadbDeferral
import Duda.MariadbHistory

/-!
# A query of several statements

On a connection with `CLIENT_MULTI_STATEMENTS` a query may return several
results, which `mysql_next_result` reports one after the other. This module
settles for which queries all of them are consumed before the query is freed:
the run of a connection is deterministic, so it is enough to follow a query to
the last call that is made for it.
-/

set_option autoImplicit false

namespace Duda.MariadbStatements
open Duda.Mariadb Duda.MariadbQueue Duda.MariadbServer Duda.MariadbQuery Duda.MariadbDeferral
open Duda.MariadbHistory Duda.Runs StateTransition
open Duda.MariadbMoves (queryLoop_walked ret_walked)

def start (j : Job) (s : Script) : Config :=
  (⟨s.refused,s.connect,s.replies,⟨[],0⟩,none⟩,.ok j.machine)

/-- The result and row callbacks of the query `q`. -/
def tellsOf (q : ℕ) : Event → Bool
  | .result i | .row i => decide (i = q)
  | .connect _ | .last _ | .disconnect => false

/-- The result and row callbacks for all that the statements return. -/
def outcomeEvents (x : Query) (sts : List (ℕ × Statement)) : List Event :=
  sts.flatMap fun p =>
    match p.2 with
    | .set rows _ _ _ => resultEvents x++rows.flatMap fun _ => rowEvents x
    | .error | .noResult => []

/-- The query `x` is with the server, `mysql_next_result` reports that there are
no more results, and all of them have been told. -/
structure Exhausted (e : Server) (m : Machine) (x : Query) (sts : List (ℕ × Statement)) : Prop where
  started : x.id ∈ m.started
  unfreed : x.id ∉ m.freed
  state : m.state ≠ .connected
  last : ∃ p, m.point = some p ∧ (e.answer p).1 = .next .none
  told : m.log.filter (tellsOf x.id) = outcomeEvents x sts

/-- The query `x` is freed, and the connection is `CONNECTED`, with the queries
`after` to go on with. -/
structure Followed (m m' : Machine) (x : Query) (after : List Query) : Prop where
  state : m'.state = .connected
  queries : m'.queries = after
  freed : m'.freed = m.freed++[x.id]
  log : m'.log = m.log

/-- The next turn frees the query `x` and goes on with the queue. -/
def Follows (e : Server) (m : Machine) (x : Query) (after : List Query) : Prop :=
  ∃ e' m', turn (e,.ok m) = some (e',handleQuery [] (ret []) m') ∧ Followed m m' x after

/-- On the run from `c` the query `x` is freed when all its results are consumed,
and only then the queue is gone on with. -/
def Consumed (c : Config) (x : Query) (after : List Query) (sts : List (ℕ × Statement)) : Prop :=
  ∃ e m, Reaches turn c (e,.ok m) ∧ Exhausted e m x sts ∧ Follows e m x after

def isSet : Statement → Bool
  | .set .. => true
  | .error | .noResult => false

/-- No row that has a callback is behind a deferred row. -/
def RowsSeen (x : Query) (rows : List ℕ) : Prop :=
  ∀ before b after, rows = before++b::after → b ≠ 0 → after = [] ∨ x.row_cb = false

/-- The operations on the results of a query; the first of them is reported by
`mysql_real_query`, the others by `mysql_next_result`. -/
def operations (sts : List (ℕ × Statement)) : List (Op × ℕ) :=
  sts.flatMap fun p =>
    match p.2 with
    | .set rows _ last free =>
      (.next,p.1)::(rows++[last]).map (fun r => (Op.fetch,r))++[(.free,unread rows free)]
    | .error | .noResult => [(.next,p.1)]

/-- Every statement returns a result set, with no row with a callback behind a
deferred one; the end of the results is not deferred; and `mysql_free_result` is
the last deferred operation only if no query is behind. -/
structure Consumable (x : Query) (r : Reply) (last : Prop) : Prop where
  nonempty : r.statements ≠ []
  sets : ∀ p ∈ r.statements, isSet p.2 = true
  rows : ∀ p ∈ r.statements, ∀ rows failed lastRow free, p.2 = .set rows failed lastRow free →
    RowsSeen x rows
  done : r.done = 0
  onward : freesLast false (operations r.statements) = true → last

section Sets

variable {m : Machine} {x : Query} {qs : List Query} {k : List Frame}

/-- The callbacks that are really made for result sets. -/
def seenEvents (x : Query) (sts : List (ℕ × Statement)) : List Event :=
  sts.flatMap fun p =>
    match p.2 with
    | .set rows failed last _ => resultEvents x++(fetched x failed last rows).1
    | .error | .noResult => []

theorem seenEvents_cons (b : ℕ) (rows : List ℕ) (failed : Bool) (last free : ℕ)
    (rest : List (ℕ × Statement)) : seenEvents x ((b,.set rows failed last free)::rest) =
      resultEvents x++(fetched x failed last rows).1++seenEvents x rest := rfl

theorem operations_bare (bare : Bool) (b : ℕ) (rows : List ℕ) (failed : Bool) (last free : ℕ)
    (rest : List (ℕ × Statement)) :
    freesLast bare (operations ((b,.set rows failed last free)::rest)) =
      freesLast (bare && decide (b = 0) && !(fetched x failed last rows).2 ||
        decide (unread rows free ≠ 0)) (operations rest) := by
  rw [operations, List.flatMap_cons, freesLast_append]
  congr 1
  show freesLast bare ((.next,b)::((rows++[last]).map (fun r => (Op.fetch,r))++
    [(.free,unread rows free)])) = _
  rw [freesLast_cons, freesLast_append, fetched_deferred x failed, freesLast_cons]
  by_cases hb : b = 0 <;> by_cases hf : unread rows free = 0 <;> simp [hb, hf, freesLast]

/-- The results of `before` are consumed one after the other. -/
theorem sets_reach (e : Server) (before rest : List (ℕ × Statement)) (done : ℕ)
    (he : e.now = ⟨before++rest,done⟩) (hset : ∀ p ∈ before, isSet p.2 = true)
    (hsus : e.suspended = none) (hv : Serving m x qs) (hmulti : m.multi = true)
    (hst : m.state = .resultFreed) (hk : Returns x.id [] k) :
    ∃ e' k', Reaches turn (e,.ok (m.await (.nextStart x.id) k))
        (e',.ok ({ m with state := .resultFreed, log := m.log++seenEvents x before }.await
          (.nextStart x.id) k')) ∧
      e'.now = ⟨rest,done⟩ ∧ e'.suspended = none ∧ e'.replies = e.replies ∧
      Returns x.id [] k' ∧ bare k' = freesLast (bare k) (operations before) := by
  -- one result set a round, from one `mysql_next_result_start` to the next
  induction before generalizing e m k with
  | nil =>
    refine ⟨e,k,?_,he,hsus,rfl,hk,rfl⟩
    rw [seenEvents, List.flatMap_nil, List.append_nil, ← hst]
    exact .refl
  | cons p before ih =>
    obtain ⟨b,st⟩ := p
    cases st with
    | error => cases hset _ List.mem_cons_self
    | noResult => cases hset _ List.mem_cons_self
    | set rows failed last free =>
      have hsts : e.now.statements = (b,.set rows failed last free)::(before++rest) := by
        rw [he]
        rfl
      have hmore := more_reaches e hsus hv hk (.set rows failed last free) (by simp) hsts
      obtain ⟨hk₁,hbare₁⟩ := after_next x.id hk b
      obtain ⟨k₂,hpass,hk₂,hbare₂⟩ := set_passes e hsus
        (serving_at hv .nextResulted m.log m.point m.stack) hk₁ hsts hmulti
      obtain ⟨e',k',hreach,hnow,hsus',hrep,hk',hbare⟩ := ih (e.left (before++rest))
        (by rw [Server.left, he]) (fun p hp => hset p (List.mem_cons_of_mem _ hp)) hsus
        (serving_at hv .resultFreed (m.log++(resultEvents x++(fetched x failed last rows).1))
          m.point m.stack) hmulti rfl hk₂
      refine ⟨e',k',(hmore.trans hpass).trans ?_,hnow,hsus',hrep,hk',?_⟩
      · rw [seenEvents_cons, ← List.append_assoc m.log (resultEvents x++_) (seenEvents x before)]
        exact hreach
      · rw [hbare, hbare₂, hbare₁, operations_bare (x := x)]

theorem passes (e : Server) (before rest : List (ℕ × Statement)) (done : ℕ)
    (he : e.replies x.id = ⟨before++rest,done⟩) (hne : before ≠ [])
    (hset : ∀ p ∈ before, isSet p.2 = true) (hsus : e.suspended = none) (hv : Serving m x qs)
    (hmulti : m.multi = true) :
    ∃ e' k, Reaches turn (e,.ok (m.await (.queryStart x.id) []))
        (e',.ok ({ m with state := .resultFreed, log := m.log++seenEvents x before }.await
          (.nextStart x.id) k)) ∧
      e'.now = ⟨rest,done⟩ ∧ e'.suspended = none ∧ e'.replies = e.replies ∧
      Returns x.id [] k ∧ bare k = freesLast false (operations before) := by
  cases before with
  | nil => exact absurd rfl hne
  | cons p before =>
    obtain ⟨b,st⟩ := p
    cases st with
    | error => cases hset _ List.mem_cons_self
    | noResult => cases hset _ List.mem_cons_self
    | set rows failed last free =>
      have hsts : (e.replies x.id).statements = (b,.set rows failed last free)::(before++rest) := by
        rw [he]
        rfl
      obtain ⟨f,hf,hbare₀,hquery⟩ := query_reaches e hsus hv (by rw [Server.complete, hsts])
      obtain ⟨k₁,hpass,hk₁,hbare₁⟩ := set_passes { e with now := e.replies x.id } hsus
        (serving_at hv .queried m.log m.point m.stack) hf hsts hmulti
      obtain ⟨e',k,hreach,hnow,hsus',hrep,hk,hbare⟩ := sets_reach
        ({ e with now := e.replies x.id }.left (before++rest)) before rest done
        (by rw [Server.left, he]) (fun p hp => hset p (List.mem_cons_of_mem _ hp)) hsus
        (serving_at hv .resultFreed (m.log++(resultEvents x++(fetched x failed last rows).1))
          m.point m.stack) hmulti rfl hk₁
      refine ⟨e',k,(hquery.trans hpass).trans ?_,hnow,hsus',hrep,hk,?_⟩
      · rw [seenEvents_cons, ← List.append_assoc m.log (resultEvents x++_) (seenEvents x before)]
        exact hreach
      · rw [hbare, hbare₁, hbare₀, operations_bare (x := x)]
        rfl

theorem first_bare (sts : List (ℕ × Statement)) (h : ∃ p ∈ sts, isSet p.2 = false) :
    ∃ before p rest, sts = before++p::rest ∧ (∀ q ∈ before, isSet q.2 = true) ∧
      isSet p.2 = false := by
  have hfind : (sts.find? fun p => !isSet p.2).isSome := by
    simpa [List.find?_isSome] using h
  obtain ⟨p,hp⟩ := Option.isSome_iff_exists.mp hfind
  obtain ⟨hbare,before,rest,hsts,hbefore⟩ := List.find?_eq_some_iff_append.mp hp
  exact ⟨before,p,rest,hsts,by simpa using hbefore,by simpa using hbare⟩

theorem stops (e : Server) (sts : List (ℕ × Statement)) (done : ℕ)
    (he : e.replies x.id = ⟨sts,done⟩) (hplain : ∀ p ∈ sts, p.2 ≠ .error)
    (hstop : sts = [] ∨ ∃ p ∈ sts, isSet p.2 = false) (hsus : e.suspended = none)
    (hv : Serving m x qs) (hmulti : m.multi = true) :
    ∃ e' m' k, Reaches turn (e,.ok (m.await (.queryStart x.id) []))
        (e',.ok (m'.await (.useResult x.id) k)) ∧
      e'.useResult = false ∧ Serving m' x qs := by
  -- `mysql_real_query` reports the first statement
  have hfirst : { e with now := e.replies x.id }.complete .query =
        (.done,{ e with now := e.replies x.id }) →
      { e with now := e.replies x.id }.useResult = false →
      ∃ e' m' k, Reaches turn (e,.ok (m.await (.queryStart x.id) []))
          (e',.ok (m'.await (.useResult x.id) k)) ∧
        e'.useResult = false ∧ Serving m' x qs := by
    intro hdone huse
    obtain ⟨f,-,-,hquery⟩ := query_reaches e hsus hv hdone
    exact ⟨_,_,[f],hquery,huse,serving_at hv .queried m.log m.point m.stack⟩
  rcases hstop with rfl | hbare
  · exact hfirst (by rw [Server.complete, he]) (by rw [Server.useResult, he])
  · obtain ⟨before,⟨b,st⟩,rest,rfl,hbefore,hst⟩ := first_bare sts hbare
    cases st with
    | error => exact absurd rfl (hplain (b,.error) (by simp))
    | set => cases hst
    | noResult =>
      by_cases hne : before = []
      · subst hne
        exact hfirst (by rw [Server.complete, he]; rfl) (by rw [Server.useResult, he]; rfl)
      · obtain ⟨e',k,hpass,hnow,hsus',-,hk,-⟩ := passes e before ((b,.noResult)::rest) done he hne
          hbefore hsus hv hmulti
        have hmore := more_reaches e' hsus' (serving_at hv .resultFreed
          (m.log++seenEvents x before) m.point m.stack) hk .noResult (by simp) (by rw [hnow])
        exact ⟨e',_,_,hpass.trans hmore,by rw [Server.useResult, hnow],
          serving_at hv .nextResulted (m.log++seenEvents x before) m.point m.stack⟩

end Sets

section Told

variable (x : Query)

theorem tells_rows : (rowEvents x).filter (tellsOf x.id) = rowEvents x := by
  rw [rowEvents]
  split
  · simp [tellsOf]
  · rfl

theorem tells_result : (resultEvents x).filter (tellsOf x.id) = resultEvents x := by
  rw [resultEvents]
  split
  · simp [tellsOf]
  · rfl

theorem tells_end (failed : Bool) : (endEvents x failed).filter (tellsOf x.id) = [] := by
  rw [endEvents]
  split
  · simp [tellsOf]
  · rfl

theorem tells_fetched (failed : Bool) (last : ℕ) (rows : List ℕ) :
    (fetched x failed last rows).1.filter (tellsOf x.id) =
      (fetched { x with end_cb := false } failed last rows).1 := by
  induction rows with
  | nil =>
    rw [fetched, tells_end, fetched, endEvents]
    simp
  | cons b rows ih =>
    have hrow : rowEvents { x with end_cb := false } = rowEvents x := rfl
    rw [fetched, fetched, hrow]
    split
    · rw [List.filter_append, tells_rows, ih]
    · exact tells_rows x

theorem allRows_silent (failed : Bool) (rows : List ℕ) :
    allRows { x with end_cb := false } failed rows = rows.flatMap fun _ => rowEvents x := by
  rw [allRows, endEvents, if_neg (by simp), List.append_nil]
  rfl

theorem rowsTold_silent (failed : Bool) (rows : List ℕ) :
    RowsTold { x with end_cb := false } rows failed ↔ RowsSeen x rows := by
  constructor
  · intro h before b after hsplit hb
    exact (h before b after hsplit hb).1
  · intro h before b after hsplit hb
    exact ⟨h before b after hsplit hb,.inr rfl⟩

theorem tells_sublist (sts : List (ℕ × Statement)) :
    List.Sublist ((seenEvents x sts).filter (tellsOf x.id)) (outcomeEvents x sts) := by
  induction sts with
  | nil => exact List.Sublist.refl _
  | cons p sts ih =>
    obtain ⟨b,st⟩ := p
    cases st with
    | error => exact ih
    | noResult => exact ih
    | set rows failed last free =>
      rw [seenEvents_cons, List.filter_append, List.filter_append, tells_result, tells_fetched]
      have hrows := fetched_sublist { x with end_cb := false } failed last rows
      rw [allRows_silent] at hrows
      exact ((List.Sublist.refl _).append hrows).append ih

/-- All results are told exactly if no row with a callback is behind a deferred
one. -/
theorem tells_iff (sts : List (ℕ × Statement)) :
    (seenEvents x sts).filter (tellsOf x.id) = outcomeEvents x sts ↔
      ∀ p ∈ sts, ∀ rows failed last free, p.2 = .set rows failed last free → RowsSeen x rows := by
  induction sts with
  | nil => simp [seenEvents, outcomeEvents]
  | cons p sts ih =>
    obtain ⟨b,st⟩ := p
    rw [List.forall_mem_cons, ← ih]
    cases st with
    | error => simp [seenEvents, outcomeEvents]
    | noResult => simp [seenEvents, outcomeEvents]
    | set rows failed last free =>
      have hrows := fetched_sublist { x with end_cb := false } failed last rows
      rw [allRows_silent] at hrows
      have hseen : (∀ rows' failed' last' free',
          Statement.set rows failed last free = .set rows' failed' last' free' →
            RowsSeen x rows') ↔ RowsSeen x rows := by
        constructor
        · intro h
          exact h rows failed last free rfl
        · intro h rows' failed' last' free' heq
          cases heq
          exact h
      have hout : outcomeEvents x ((b,.set rows failed last free)::sts) =
          resultEvents x++(rows.flatMap fun _ => rowEvents x)++outcomeEvents x sts := rfl
      rw [seenEvents_cons, List.filter_append, List.filter_append, tells_result, tells_fetched,
        hout, append_eq_iff ((List.Sublist.refl _).append hrows) (tells_sublist x sts),
        List.append_cancel_left_eq, ← allRows_silent x failed, fetched_iff, rowsTold_silent, hseen]

instance (r : Reply) (last : Prop) [Decidable last] : Decidable (Consumable x r last) :=
  decidable_of_iff (r.statements ≠ [] ∧ (∀ p ∈ r.statements, isSet p.2 = true) ∧
      (seenEvents x r.statements).filter (tellsOf x.id) = outcomeEvents x r.statements ∧
      r.done = 0 ∧ (freesLast false (operations r.statements) = true → last))
    ⟨fun h => ⟨h.1,h.2.1,(tells_iff x _).mp h.2.2.1,h.2.2.2.1,h.2.2.2.2⟩,
      fun h => ⟨h.nonempty,h.sets,(tells_iff x _).mpr h.rows,h.done,h.onward⟩⟩

end Told

section Determined

variable {e e' : Server} {m m' : Machine} {x : Query} {qs : List Query}

theorem turn_step {d : Config} (h : turn (e,.ok m) = some d) : ∃ a, d.2 = step m a := by
  simp only [turn] at h
  split at h
  · next p _ =>
    cases h
    exact ⟨.answer (e.answer p).1,rfl⟩
  · cases h
    exact ⟨.callbackReturns,rfl⟩
  · split at h
    · cases h
      exact ⟨.read,rfl⟩
    · cases h

theorem reaches_error {f : Fault} (h : Reaches turn (e,.error f) (e',.ok m')) : False := by
  rcases Relation.ReflTransGen.cases_head h with heq | ⟨d,hd,-⟩
  · cases heq
  · cases hd

/-- A freed query stays freed. -/
theorem reaches_freed {c d : Config} (h : Reaches turn c d) (hc : c.2 = .ok m)
    (hd : d.2 = .ok m') : m.freed ⊆ m'.freed := by
  induction h using Relation.ReflTransGen.head_induction_on generalizing m with
  | refl =>
    cases hc.symm.trans hd
    exact List.Subset.refl _
  | head hstep hrest ih =>
    rename_i a b
    obtain ⟨e₁,r₁⟩ := a
    obtain ⟨e₂,r₂⟩ := b
    cases hc
    obtain ⟨i,hi⟩ := turn_step hstep
    cases r₂ with
    | error f =>
      obtain ⟨e₃,r₃⟩ := d
      cases hd
      exact (reaches_error hrest).elim
    | ok m₂ => exact List.Subset.trans (step_grows i m₂ hi.symm).freed.subset (ih rfl)

/-- The next turn frees the query `q`, or is the last. -/
def Ends (q : ℕ) (c : Config) : Prop := ∀ e m, turn c = some (e,.ok m) → q ∈ m.freed

theorem ends_here {q : ℕ} (h : Reaches turn (e,.ok m) (e',.ok m')) (hend : Ends q (e,.ok m))
    (hq : q ∉ m'.freed) : e' = e ∧ m' = m := by
  rcases Relation.ReflTransGen.cases_head h with heq | ⟨⟨e₁,r₁⟩,hturn,hrest⟩
  · cases heq
    exact ⟨rfl,rfl⟩
  · cases r₁ with
    | error f => exact (reaches_error hrest).elim
    | ok m₁ => exact absurd (reaches_freed hrest rfl rfl (hend e₁ m₁ hturn)) hq

theorem follows_ends (h : Follows e m x qs) : Ends x.id (e,.ok m) := by
  obtain ⟨e₁,m₁,hturn,hf⟩ := h
  intro e₂ m₂ hturn'
  obtain ⟨-,hr⟩ := Prod.mk.inj (Option.some.inj (hturn.symm.trans hturn'))
  apply (handleQuery_grows hr).freed.subset
  rw [hf.freed]
  exact List.mem_append_right _ (List.mem_singleton.mpr rfl)

/-- The run may be followed from any place at which the query is not yet freed. -/
theorem consumed_from {c : Config} (h : Reaches turn c (e',.ok m')) (hq : x.id ∉ m'.freed)
    (sts : List (ℕ × Statement)) : Consumed c x qs sts ↔ Consumed (e',.ok m') x qs sts := by
  constructor
  · rintro ⟨e₁,m₁,hreach,hex,hfollow⟩
    -- the two places are on one run, and behind the first the query is freed
    rcases reaches_total hreach h with hto | hfrom
    · obtain ⟨rfl,rfl⟩ := ends_here hto (follows_ends hfollow) hq
      exact ⟨_,_,.refl,hex,hfollow⟩
    · exact ⟨e₁,m₁,hfrom,hex,hfollow⟩
  · rintro ⟨e₁,m₁,hreach,hex,hfollow⟩
    exact ⟨e₁,m₁,h.trans hreach,hex,hfollow⟩

/-- At its last turn it is decided whether the results of a query are consumed. -/
theorem consumed_here (hend : Ends x.id (e,.ok m)) (sts : List (ℕ × Statement)) :
    Consumed (e,.ok m) x qs sts ↔ Exhausted e m x sts ∧ Follows e m x qs := by
  constructor
  · rintro ⟨e₁,m₁,hreach,hex,hfollow⟩
    obtain ⟨rfl,rfl⟩ := ends_here hreach hend hex.unfreed
    exact ⟨hex,hfollow⟩
  · rintro ⟨hex,hfollow⟩
    exact ⟨e,m,.refl,hex,hfollow⟩

end Determined

section Ends

variable {e : Server} {m : Machine} {x : Query} {qs : List Query} {k : List Frame}

theorem serving_started (hv : Serving m x qs) : x.id ∈ m.started := by
  obtain ⟨st,hst,-,-⟩ := hv.working.flight.started
  rw [hst]
  exact List.mem_append_right _ (List.mem_singleton.mpr rfl)

theorem serving_unfreed (hv : Serving m x qs) : x.id ∉ m.freed := by
  rw [hv.working.flight.freed]
  exact List.not_mem_range_self

theorem queryLoop_error (qs : List Query) (f : Fault)
    (h : queryLoop [] (ret []) qs m = .error f) : f = .wildList := by
  induction qs generalizing m with
  | nil =>
    rw [queryLoop] at h
    split at h
    · rcases bind_error h with hrel | ⟨t,-,ht⟩
      · simp only [handleRelease] at hrel
        split at hrel
        · cases hrel
        · cases hrel
          rfl
      · cases ht
    · cases h
  | cons q qs ih =>
    rw [queryLoop] at h
    split at h
    · exact ih h
    · split at h
      · cases h
      · exact ih h

theorem idle_queue {t : Machine} (h : handleQuery [] (ret []) m = .ok t) (hp : t.point = none)
    (hfreed : t.freed = m.freed) : m.queries = [] := by
  rw [handleQuery] at h
  cases hq : m.queries with
  | nil => rfl
  | cons q qs =>
    exfalso
    have hmore : ∀ u : Machine, u.freed = m.freed++[q.id] →
        queryLoop [] (ret []) qs u = .ok t → False := by
      intro u hu ht
      obtain ⟨hwalk,-⟩ := queryLoop_walked (ret []) (fun _ _ => ret_walked) qs ht
      have hgrow := (walked_grows hwalk).freed.length_le
      have hlen : { u with queries := qs }.freed = m.freed++[q.id] := hu
      rw [hlen, hfreed, List.length_append, List.length_singleton] at hgrow
      omega
    rw [hq, queryLoop] at h
    split at h
    · exact hmore _ rfl h
    · split at h
      · cases h
        cases hp
      · exact hmore _ rfl h

theorem noResult_ends (hres : e.useResult = false) :
    Ends x.id (e,.ok (m.await (.useResult x.id) k)) := by
  intro e' m' hturn
  rw [turn_await] at hturn
  obtain ⟨-,hr⟩ := Prod.mk.inj (Option.some.inj hturn)
  have hans : (e.answer (.useResult x.id)).1 = .result false := by rw [Server.answer, hres]
  rw [hans] at hr
  exact mem_freed x.id k hr

theorem none_answer (he : e.now = ⟨[],0⟩) : e.answer (.nextStart x.id) = (.next .none,e) := by
  rw [Server.answer, Server.start, Server.blocks, he]
  show e.complete .next = _
  rw [Server.complete, he]

theorem last_turn (he : e.now = ⟨[],0⟩) (hv : Serving m x qs) (hk : Returns x.id [] k) :
    ∃ m', Cleared m m' x qs [] ∧ m'.current_query = none ∧
      turn (e,.ok (m.await (.nextStart x.id) k)) =
        some (e,if bare k then .ok (m'.user []) else handleQuery [] (ret []) m') := by
  have hv' := serving_at hv .nextResulted m.log (some (.nextStart x.id)) k
  have hc := serving_cleared hv' none
  refine ⟨_,⟨hc.ready,hc.multi,hc.log,hc.freed,hc.queries⟩,rfl,?_⟩
  rw [turn_await, none_answer he, ← ret_freed hc.ready.isOpen rfl x.id hk]
  exact congrArg (fun r : Except Fault Machine => some (e,r.bind fun m =>
    ret k { m with state := .connected })) (serving_freed hv' none)

theorem last_ends (he : e.now = ⟨[],0⟩) : Ends x.id (e,.ok (m.await (.nextStart x.id) k)) := by
  intro e' m' hturn
  rw [turn_await, none_answer he] at hturn
  obtain ⟨-,hr⟩ := Prod.mk.inj (Option.some.inj hturn)
  exact mem_freed x.id k hr

/-- The queue is gone on with, also if nobody looks at it and it is empty. -/
theorem last_follows (he : e.now = ⟨[],0⟩) (hv : Serving m x qs) (hk : Returns x.id [] k)
    (hlast : bare k = true → qs = []) : ∃ m', Cleared m m' x qs [] ∧
      turn (e,.ok (m.await (.nextStart x.id) k)) = some (e,handleQuery [] (ret []) m') := by
  obtain ⟨m',hc,hcur,hturn⟩ := last_turn he hv hk
  refine ⟨m',hc,?_⟩
  rw [hturn]
  split
  · next hbare =>
    have hqueue : m'.queries = [] := hc.queries.trans (hlast hbare)
    have hstate := hc.ready.state
    have hfinish := hc.ready.finish
    rw [handleQuery, hqueue, queryLoop, if_neg (by simp [hfinish])]
    cases m'
    cases hqueue
    cases hcur
    cases hstate
    rfl
  · rfl

theorem follows_iff (he : e.now = ⟨[],0⟩) (hv : Serving m x qs) (hk : Returns x.id [] k) :
    Follows e (m.await (.nextStart x.id) k) x qs ↔ (bare k = true → qs = []) := by
  constructor
  · rintro ⟨e₁,m₁,hturn₁,hf⟩ hbare
    obtain ⟨m',hc,-,hturn⟩ := last_turn he hv hk
    rw [hturn, if_pos hbare] at hturn₁
    obtain ⟨-,hr⟩ := Prod.mk.inj (Option.some.inj hturn₁)
    rw [← hf.queries]
    exact idle_queue hr.symm rfl (hc.freed.trans hf.freed.symm)
  · intro hlast
    obtain ⟨m',hc,hturn⟩ := last_follows he hv hk hlast
    exact ⟨e,m',hturn,hc.ready.state,hc.queries,hc.freed,hc.log.trans (List.append_nil _)⟩

/-- A deferred end of the results is a crash. -/
theorem deferred_end (hv : Serving m x qs) (hk : Returns x.id [] k) (l : ℕ)
    (he : e.now = ⟨[],l+1⟩) (hsus : e.suspended = none) :
    ∃ e' m', Reaches turn (e,.ok (m.await (.nextStart x.id) k)) (e',.ok m') ∧
      m'.freed = m.freed ∧ ∃ e'', turn (e',.ok m') = some (e'',.error .nullPointer) := by
  have hb : e.blocks .next = l+1 := by rw [Server.blocks, he]
  have hdone : e.complete .next = (.next .none,e) := by rw [Server.complete, he]
  exact ⟨_,_,suspends_serving e e hv hk .next l rfl hb,rfl,e,
    turn_last e { m with state := .nextResulting } .nextCont .next (fun _ => rfl) hsus hdone⟩

end Ends

section Queries

variable {e : Server} {m : Machine} {x : Query} {qs : List Query}

theorem log_told (hlog : m.log.filter (tellsOf x.id) = []) (sts : List (ℕ × Statement)) :
    (m.log++seenEvents x sts).filter (tellsOf x.id) = outcomeEvents x sts ↔
      ∀ p ∈ sts, ∀ rows failed last free, p.2 = .set rows failed last free → RowsSeen x rows := by
  rw [List.filter_append, hlog, List.nil_append]
  exact tells_iff x sts

theorem stopped_unconsumed (hsus : e.suspended = none) (hv : Serving m x qs)
    (hmulti : m.multi = true) (sts : List (ℕ × Statement)) (done : ℕ)
    (he : e.replies x.id = ⟨sts,done⟩) (hplain : ∀ p ∈ sts, p.2 ≠ .error)
    (hstop : sts = [] ∨ ∃ p ∈ sts, isSet p.2 = false) :
    ¬Consumed (e,.ok (m.await (.queryStart x.id) [])) x qs sts := by
  obtain ⟨e',m',k,hreach,hres,hv'⟩ := stops e sts done he hplain hstop hsus hv hmulti
  have hq : x.id ∉ m'.freed := serving_unfreed hv'
  rw [consumed_from hreach hq, consumed_here (noResult_ends hres)]
  -- the call that frees the query is not `mysql_next_result`
  rintro ⟨hex,-⟩
  obtain ⟨p,hp,hans⟩ := hex.last
  cases hp
  cases hans

theorem deferred_unconsumed (hsus : e.suspended = none) (hv : Serving m x qs)
    (hmulti : m.multi = true) (sts : List (ℕ × Statement)) (l : ℕ)
    (he : e.replies x.id = ⟨sts,l+1⟩) (hne : sts ≠ []) (hset : ∀ p ∈ sts, isSet p.2 = true) :
    ¬Consumed (e,.ok (m.await (.queryStart x.id) [])) x qs sts := by
  obtain ⟨e',k,hreach,hnow,hsus',-,hk,-⟩ := passes e sts [] (l+1) (by rw [he, List.append_nil]) hne
    hset hsus hv hmulti
  have hv' := serving_at hv .resultFreed (m.log++seenEvents x sts) m.point m.stack
  obtain ⟨e₁,m₁,hdefer,hfreed,e₂,hcrash⟩ := deferred_end hv' hk l hnow hsus'
  have hends : Ends x.id (e₁,.ok m₁) := by
    intro e₃ m₃ hturn
    cases hcrash.symm.trans hturn
  rw [consumed_from (hreach.trans hdefer) (hfreed ▸ serving_unfreed hv'), consumed_here hends]
  rintro ⟨-,e₃,m₃,hturn,-⟩
  obtain ⟨-,hr⟩ := Prod.mk.inj (Option.some.inj (hcrash.symm.trans hturn))
  cases queryLoop_error m₃.queries .nullPointer hr.symm

theorem reached_consumed_iff (hsus : e.suspended = none) (hv : Serving m x qs)
    (hmulti : m.multi = true) (hlog : m.log.filter (tellsOf x.id) = [])
    (sts : List (ℕ × Statement)) (he : e.replies x.id = ⟨sts,0⟩) (hne : sts ≠ [])
    (hset : ∀ p ∈ sts, isSet p.2 = true) :
    Consumed (e,.ok (m.await (.queryStart x.id) [])) x qs sts ↔
      (∀ p ∈ sts, ∀ rows failed last free, p.2 = .set rows failed last free → RowsSeen x rows) ∧
        (freesLast false (operations sts) = true → qs = []) := by
  obtain ⟨e',k,hreach,hnow,-,-,hk,hbare⟩ := passes e sts [] 0 (by rw [he, List.append_nil]) hne hset
    hsus hv hmulti
  have hv' := serving_at hv .resultFreed (m.log++seenEvents x sts) m.point m.stack
  have hq : x.id ∉ m.freed := serving_unfreed hv
  rw [consumed_from hreach hq, consumed_here (last_ends hnow), follows_iff hnow hv' hk, hbare,
    ← log_told hlog]
  constructor
  · rintro ⟨hex,hlast⟩
    exact ⟨hex.told,hlast⟩
  · rintro ⟨htold,hlast⟩
    have hstarted : x.id ∈ m.started := serving_started hv
    refine ⟨⟨hstarted,hq,?_,?_,htold⟩,hlast⟩
    · intro hst
      cases hst
    · exact ⟨.nextStart x.id,rfl,by rw [none_answer hnow]⟩

/-- The results of a query are all consumed exactly if it is consumable. -/
theorem consumed_iff (hsus : e.suspended = none) (hv : Serving m x qs) (hmulti : m.multi = true)
    (hlog : m.log.filter (tellsOf x.id) = [])
    (hplain : ∀ p ∈ (e.replies x.id).statements, p.2 ≠ .error) :
    Consumed (e,.ok (m.await (.queryStart x.id) [])) x qs (e.replies x.id).statements ↔
      Consumable x (e.replies x.id) (qs = []) := by
  cases he : e.replies x.id with
  | mk sts done =>
    rw [he] at hplain
    by_cases hstop : sts = [] ∨ ∃ p ∈ sts, isSet p.2 = false
    · refine iff_of_false (stopped_unconsumed hsus hv hmulti sts done he hplain hstop) (fun h => ?_)
      rcases hstop with hnil | ⟨p,hp,hbare⟩
      · exact h.nonempty hnil
      · exact absurd (h.sets p hp) (by simp [hbare])
    · rw [not_or] at hstop
      have hset : ∀ p ∈ sts, isSet p.2 = true := by simpa using hstop.2
      cases done with
      | succ l =>
        refine iff_of_false (deferred_unconsumed hsus hv hmulti sts l he hstop.1 hset) (fun h => ?_)
        cases h.done
      | zero =>
        rw [reached_consumed_iff hsus hv hmulti hlog sts he hstop.1 hset]
        exact ⟨fun h => ⟨hstop.1,hset,h.1,rfl,h.2⟩,fun h => ⟨h.rows,h.onward⟩⟩

theorem consumable_follows (hsus : e.suspended = none) (hv : Serving m x qs)
    (hmulti : m.multi = true) (h : Consumable x (e.replies x.id) (qs = [])) :
    ∃ e' m', Reaches turn (e,.ok (m.await (.queryStart x.id) []))
        (e',handleQuery [] (ret []) m') ∧
      e'.suspended = none ∧ e'.replies = e.replies ∧
      Cleared m m' x qs (seenEvents x (e.replies x.id).statements) := by
  obtain ⟨e',k,hreach,hnow,hsus',hrep,hk,hbare⟩ := passes e (e.replies x.id).statements [] 0
    (by rw [List.append_nil, ← h.done]) h.nonempty h.sets hsus hv hmulti
  have hv' := serving_at hv .resultFreed (m.log++seenEvents x (e.replies x.id).statements) m.point
    m.stack
  obtain ⟨m',hc,hturn⟩ := last_follows hnow hv' hk (hbare ▸ h.onward)
  have hlog := hc.log.trans (List.append_nil _)
  exact ⟨e',m',hreach.tail hturn,hsus',hrep,hc.ready,hc.multi,hlog,hc.freed,hc.queries⟩

end Queries

section Queues

variable {m : Machine} {n : ℕ}

/-- The callbacks so far are of queries before `n`. -/
def Past (n : ℕ) (l : List Event) : Prop := ∀ ev ∈ l, ∀ q, about ev = some q → q < n

theorem past_untold {l : List Event} (h : Past n l) : l.filter (tellsOf n) = [] := by
  rw [List.filter_eq_nil_iff]
  intro ev hev htells
  have hlt := h ev hev n
  cases ev with
  | result q | row q =>
    have hq : q = n := of_decide_eq_true htells
    exact absurd (hlt (by rw [about, hq])) (Nat.lt_irrefl n)
  | connect _ | last _ | disconnect => cases htells

/-- A query has callbacks of its own only. -/
theorem seen_about (x : Query) (sts : List (ℕ × Statement)) (ev : Event)
    (hev : ev ∈ seenEvents x sts) : about ev = some x.id := by
  obtain ⟨⟨b,st⟩,-,hmem⟩ := List.mem_flatMap.mp hev
  cases st with
  | error | noResult => cases hmem
  | set rows failed last free =>
    have hall : ev ∈ resultEvents x++allRows x failed rows :=
      ((List.Sublist.refl _).append (fetched_sublist x failed last rows)).subset hmem
    simp only [resultEvents, allRows, rowEvents, endEvents, List.mem_append, List.mem_flatMap,
      List.mem_ite_nil_right, List.mem_singleton] at hall
    rcases hall with ⟨-,rfl⟩ | ⟨-,-,-,rfl⟩ | ⟨-,rfl⟩
    · rfl
    · rfl
    · rfl

theorem past_seen {l : List Event} (x : Query) (h : Past x.id l) (sts : List (ℕ × Statement)) :
    Past (x.id+1) (l++seenEvents x sts) := by
  intro ev hev q hq
  rcases List.mem_append.mp hev with hev | hev
  · exact (h ev hev q hq).trans (Nat.lt_succ_self x.id)
  · rw [seen_about x sts ev hev] at hq
    cases hq
    exact Nat.lt_succ_self x.id

/-- On a run that comes to the queue `qs`, the results of all its queries are
consumed exactly if all are consumable. -/
theorem queue_consumed_iff (c : Config) (e : Server) (qs : List Query)
    (hreach : Reaches turn c (e,queryLoop [] (ret []) qs m)) (hsus : e.suspended = none)
    (hm : Ready { m with queries := qs } n) (hmulti : m.multi = true) (hlog : Past n m.log)
    (hplain : Each (fun q _ => ∀ p ∈ (e.replies q.id).statements, p.2 ≠ .error) qs) :
    Each (fun q after => Consumed c q after (e.replies q.id).statements) qs ↔
      Each (fun q after => Consumable q (e.replies q.id) (after = [])) qs := by
  induction qs generalizing e m n with
  | nil => exact iff_of_true (each_nil _) (each_nil _)
  | cons q qs ih =>
    obtain ⟨hfirst,hrest⟩ := (each_cons _ q qs).mp hplain
    rw [each_cons, each_cons]
    rw [queryLoop] at hreach
    by_cases hskip : q.abort = true ∨ q.query_str = false
    · have hpast : Past (n+1) m.log := fun ev hev i hi =>
        (hlog ev hev i hi).trans (Nat.lt_succ_self n)
      have hnone : ∀ P : Prop, ¬(q.abort = true ∨ q.query_str = false) → P := fun _ h =>
        absurd hskip h
      rw [and_iff_right (hnone _), and_iff_right (hnone _)]
      by_cases habort : q.abort = true
      · rw [if_pos habort] at hreach
        exact ih e hreach hsus (ready_pop q qs hm .connected rfl) hmulti hpast hrest
      · have hstr : q.query_str = false := hskip.resolve_left habort
        rw [if_neg habort, if_neg (by simp [hstr])] at hreach
        exact ih e hreach hsus (ready_pop q qs hm m.state hm.state) hmulti hpast hrest
    · have habort : q.abort = false := by simpa using fun h => hskip (.inl h)
      have hstr : q.query_str = true := by simpa using fun h => hskip (.inr h)
      rw [if_neg (by simp [habort]), if_pos hstr] at hreach
      obtain ⟨hid,hv⟩ := ready_serves q qs hm habort
      have hpast : Past q.id m.log := hid ▸ hlog
      have hunfreed := serving_unfreed hv
      rw [imp_iff_right hskip, imp_iff_right hskip, consumed_from hreach hunfreed,
        consumed_iff hsus hv hmulti (past_untold hpast) (hfirst hskip)]
      -- what is behind the query is reached only if it is consumable itself
      apply and_congr_right
      intro hq
      obtain ⟨e',m',hnext,hsus',hrep,hc⟩ := consumable_follows hsus hv hmulti hq
      have hsame : { m' with queries := qs } = m' := by rw [← hc.queries]
      rw [handleQuery, hc.queries] at hnext
      rw [← hrep]
      exact ih e' (hreach.trans hnext) hsus' (hsame ▸ hc.ready) (hc.multi.trans hmulti)
        (hc.log ▸ past_seen q hpast _) (hrep ▸ hrest)

end Queues

theorem job_queue (j : Job) (s : Script) (hopen : s.refused = false) : ∃ m,
    Ready { m with queries := j.queries } 0 ∧ m.multi = j.multi ∧ Past 0 m.log ∧
      Reaches turn (start j s) (⟨s.refused,s.connect,s.replies,⟨[],0⟩,none⟩,
        queryLoop [] (ret []) j.queries m) := by
  obtain ⟨m,ho,hreach⟩ := connect_reaches ⟨s.refused,s.connect,s.replies,⟨[],0⟩,none⟩ rfl
    (job_unconnected j) hopen
  have hqueries : m.queries = j.queries := ho.queries
  have hlog : m.log = connectEvents j.connect_cb true := ho.log
  have hsame : { m with queries := j.queries } = m := by rw [← hqueries]
  have hpast : Past 0 m.log := by
    intro ev hev q hq
    rw [hlog, connectEvents, List.mem_ite_nil_right, List.mem_singleton] at hev
    cases hev.2
    cases hq
  rw [handleQuery, hqueries] at hreach
  exact ⟨m,hsame ▸ ho.ready,ho.multi,hpast,hreach⟩

/-- On a connection with `CLIENT_MULTI_STATEMENTS` that is established, and with
statements that do not fail, the results of every query are all consumed before
it is freed and the queue gone on with, exactly if every query is consumable. -/
theorem statements_consumed_iff (j : Job) (s : Script) (hmulti : j.multi = true)
    (hopen : s.refused = false)
    (hplain : Each (fun q _ => ∀ p ∈ (s.replies q.id).statements, p.2 ≠ .error) j.queries) :
    Each (fun q after => Consumed (start j s) q after (s.replies q.id).statements) j.queries ↔
      Each (fun q after => Consumable q (s.replies q.id) (after = [])) j.queries := by
  obtain ⟨m,hready,hm,hpast,hreach⟩ := job_queue j s hopen
  exact queue_consumed_iff (start j s) _ j.queries hreach rfl hready (hm.trans hmulti) hpast hplain

def twoQueries : Job :=
  ⟨true,true,[⟨0,true,false,true,true,true⟩,⟨1,true,false,true,true,false⟩],rfl⟩

/-- Two result sets for every query, the last row of each query deferred. -/
def twoSets : Script :=
  ⟨false,1,fun _ => ⟨[(0,.set [0,0] false 0 0),(1,.set [0,2] false 1 0)],0⟩⟩

theorem two_sets_consumed : Each (fun q after => Consumed (start twoQueries twoSets) q after
    (twoSets.replies q.id).statements) twoQueries.queries := by
  have hplain : ∀ q : ℕ, ∀ p ∈ (twoSets.replies q).statements, p.2 ≠ .error := by
    intro q
    show ∀ p ∈ [((0 : ℕ),Statement.set [0,0] false 0 0),(1,.set [0,2] false 1 0)], p.2 ≠ .error
    decide
  refine (statements_consumed_iff twoQueries twoSets rfl rfl fun _ q _ _ _ => hplain q.id).mpr ?_
  rw [show twoQueries.queries = [⟨0,true,false,true,true,true⟩,⟨1,true,false,true,true,false⟩] from
    rfl, each_cons, each_cons]
  exact ⟨fun _ => by decide,fun _ => by decide,each_nil _⟩

/-- A statement without a result set, before one with a row. -/
def insertSelect : Script := ⟨false,0,fun _ => ⟨[(0,.noResult),(0,.set [0] false 0 0)],0⟩⟩

def insertSelectQuery : Job := { oneQuery with multi := true }

/-- The query is freed at its first statement, without a callback for the result
set of the second. -/
theorem insert_select_dropped :
    insertSelectQuery.outcome insertSelect =
        Part.some (some ⟨[.connect true],[0],true,.connected,[]⟩) ∧
      ¬Each (fun q after => Consumed (start insertSelectQuery insertSelect) q after
        (insertSelect.replies q.id).statements) insertSelectQuery.queries := by
  constructor
  · rw [job_outcome]
    rfl
  · obtain ⟨m,hready,hm,hpast,hreach⟩ := job_queue insertSelectQuery insertSelect rfl
    have hplain : ∀ q : ℕ, ∀ p ∈ (insertSelect.replies q).statements, p.2 ≠ .error := by
      intro q
      show ∀ p ∈ [((0 : ℕ),Statement.noResult),(0,.set [0] false 0 0)], p.2 ≠ .error
      decide
    rw [queue_consumed_iff _ _ insertSelectQuery.queries hreach rfl hready hm hpast
      fun _ q _ _ _ => hplain q.id]
    intro h
    have hq := ((each_cons _ _ []).mp h).1 (by decide)
    exact absurd (hq.sets (0,.noResult) List.mem_cons_self) (by decide)

end Duda.MariadbStatements
