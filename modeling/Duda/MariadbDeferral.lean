import Duda.MariadbQuery

/-!
# What deferred operations change

The same answers of the server can come at once or in read events. This module
compares the end of a connection with the end that it has when every operation
completes in its call, and tells which operations may be deferred without a
difference.
-/

set_option autoImplicit false

namespace Duda.MariadbDeferral
open Duda.Mariadb Duda.MariadbQueue Duda.MariadbServer Duda.MariadbQuery Duda.Runs

/-- A new connection with its enqueued queries. -/
structure Job where
  multi : Bool
  connect_cb : Bool
  queries : List Query
  numbered : queries.map Query.id = List.range queries.length

/-- The connection, at the call of `mysql_real_connect_start`. -/
def Job.machine (j : Job) : Machine :=
  { connCreate j.multi with
    connect_cb := j.connect_cb, queries := j.queries, next := j.queries.length }.await
      .connectStart []

/-- What the server returns, and how often each operation would block. -/
structure Script where
  refused : Bool
  connect : ℕ
  replies : ℕ → Reply

noncomputable def Job.outcome (j : Job) (s : Script) : Part (Option Outcome) :=
  MariadbServer.outcome (⟨s.refused,s.connect,s.replies,⟨[],0⟩,none⟩,.ok j.machine)

def Statement.immediate : Statement → Statement
  | .set rows failed _ _ => .set (rows.map fun _ => 0) failed 0 0
  | st => st

def Reply.immediate (r : Reply) : Reply := ⟨r.statements.map fun p => (0,Statement.immediate p.2),0⟩

/-- The same server, with every operation done in its call. -/
def Script.immediate (s : Script) : Script := ⟨s.refused,0,fun q => Reply.immediate (s.replies q)⟩

/-- After a deferred row there is nothing more to be told. -/
def RowsTold (x : Query) (rows : List ℕ) (failed : Bool) : Prop :=
  ∀ before b after, rows = before++b::after → b ≠ 0 →
    (after = [] ∨ x.row_cb = false) ∧ (failed = true ∨ x.end_cb = false)

/-- Whether `mysql_free_result` is the last of the deferred operations. -/
def freesLast (bare : Bool) (ops : List (Op × ℕ)) : Bool :=
  ops.foldl (fun bare o => if o.2 = 0 then bare else decide (o.1 = .free)) bare

theorem freesLast_cons (bare : Bool) (o : Op) (b : ℕ) (ops : List (Op × ℕ)) :
    freesLast bare ((o,b)::ops) = freesLast (if b = 0 then bare else decide (o = .free)) ops := rfl

theorem freesLast_append (bare : Bool) (os ops : List (Op × ℕ)) :
    freesLast bare (os++ops) = freesLast (freesLast bare os) ops :=
  List.foldl_append

section Rows

variable (x : Query) (failed : Bool)

def allRows (rows : List ℕ) : List Event := (rows.flatMap fun _ => rowEvents x)++endEvents x failed

theorem fetched_sublist (last : ℕ) (rows : List ℕ) :
    List.Sublist (fetched x failed last rows).1 (allRows x failed rows) := by
  induction rows with
  | nil => exact List.Sublist.refl _
  | cons b rows ih =>
    rw [fetched, allRows, List.flatMap_cons, List.append_assoc]
    split_ifs
    · exact (List.Sublist.refl _).append ih
    · exact List.sublist_append_left _ _

theorem allRows_nil_iff (rows : List ℕ) : allRows x failed rows = [] ↔
    (rows = [] ∨ x.row_cb = false) ∧ (failed = true ∨ x.end_cb = false) := by
  have hrows : (rows.flatMap fun _ => rowEvents x) = [] ↔ rows = [] ∨ x.row_cb = false := by
    cases rows with
    | nil => simp
    | cons b rows => cases hcb : x.row_cb <;> simp [rowEvents, hcb]
  have hend : endEvents x failed = [] ↔ failed = true ∨ x.end_cb = false := by
    rw [endEvents]
    cases failed <;> cases x.end_cb <;> simp
  rw [allRows, List.append_eq_nil_iff, hrows, hend]

/-- Every callback comes exactly if nothing is behind a deferred row. -/
theorem fetched_iff (last : ℕ) (rows : List ℕ) :
    (fetched x failed last rows).1 = allRows x failed rows ↔ RowsTold x rows failed := by
  induction rows with
  | nil =>
    refine ⟨fun _ before b after h => ?_,fun _ => rfl⟩
    cases before <;> cases h
  | cons b rows ih =>
    rw [fetched, allRows, List.flatMap_cons, List.append_assoc]
    by_cases hb : b = 0
    · rw [if_pos hb]
      show _++_ = _++allRows x failed rows ↔ _
      rw [List.append_cancel_left_eq, ih]
      constructor
      · intro h before c after hsplit hc
        cases before with
        | nil => exact absurd ((List.cons.inj hsplit).1.symm.trans hb) hc
        | cons d before => exact h before c after (List.cons.inj hsplit).2 hc
      · intro h before c after hsplit hc
        exact h (b::before) c after (by rw [hsplit]; rfl) hc
    · rw [if_neg hb]
      show rowEvents x = _++allRows x failed rows ↔ _
      rw [List.self_eq_append_right, allRows_nil_iff]
      constructor
      · rintro ⟨hrows,hend⟩ before c after hsplit -
        cases before with
        | nil =>
          rw [← (List.cons.inj hsplit).2]
          exact ⟨hrows,hend⟩
        | cons d before =>
          refine ⟨.inr (hrows.resolve_left ?_),hend⟩
          rw [(List.cons.inj hsplit).2]
          simp
      · intro h
        exact h [] b rows rfl hb

theorem fetched_deferred (last : ℕ) (rows : List ℕ) (bare : Bool) :
    freesLast bare ((rows++[last]).map fun r => (Op.fetch,r)) =
      (bare && !(fetched x failed last rows).2) := by
  have hfalse : ∀ rows : List ℕ, freesLast false (rows.map fun r => (Op.fetch,r)) = false := by
    intro rows
    induction rows with
    | nil => rfl
    | cons b rows ih =>
      rw [List.map_cons, freesLast_cons]
      split_ifs
      · exact ih
      · exact ih
  induction rows generalizing bare with
  | nil =>
    by_cases h : last = 0
    · simp [freesLast, fetched, h]
    · simp [freesLast, fetched, h]
  | cons b rows ih =>
    rw [List.cons_append, List.map_cons, freesLast_cons, fetched]
    by_cases hb : b = 0
    · rw [if_pos hb, if_pos hb]
      exact ih bare
    · rw [if_neg hb, if_neg hb, show decide (Op.fetch = .free) = false from rfl, hfalse]
      simp

end Rows

theorem append_eq_iff {α : Type*} {a b c d : List α} (hab : List.Sublist a b)
    (hcd : List.Sublist c d) : a++c = b++d ↔ a = b ∧ c = d := by
  constructor
  · intro h
    have hlen := congrArg List.length h
    rw [List.length_append, List.length_append] at hlen
    have hac := hab.length_le
    have hbd := hcd.length_le
    exact ⟨hab.eq_of_length (by omega),hcd.eq_of_length (by omega)⟩
  · rintro ⟨rfl,rfl⟩
    rfl

section Statements

variable (x : Query)

end Statements

/-- The queries that are passed to the server, with those behind them. -/
def Each (P : Query → List Query → Prop) (qs : List Query) : Prop :=
  ∀ before q after, qs = before++q::after → ¬(q.abort = true ∨ q.query_str = false) → P q after

theorem each_nil (P : Query → List Query → Prop) : Each P [] := by
  intro before q after h
  cases before <;> cases h

theorem each_cons (P : Query → List Query → Prop) (q : Query) (qs : List Query) :
    Each P (q::qs) ↔ (¬(q.abort = true ∨ q.query_str = false) → P q qs) ∧ Each P qs := by
  constructor
  · intro h
    refine ⟨h [] q qs rfl,fun before p after hsplit => ?_⟩
    exact h (q::before) p after (by rw [hsplit]; rfl)
  · rintro ⟨hq,hqs⟩ before p after hsplit
    cases before with
    | nil =>
      obtain ⟨rfl,rfl⟩ := List.cons.inj hsplit
      exact hq
    | cons d before => exact hqs before p after (List.cons.inj hsplit).2

section Queues

variable (multi : Bool) (replies : ℕ → Reply)

variable (qs : List Query) (log : List Event)

end Queues

section Jobs

/-- A connection that is not yet opened, with the queries `qs`. -/
def enqueued (multi : Bool) (qs : List Query) (n : ℕ) : Machine :=
  { connCreate multi with queries := qs, next := n }

def Job.calls (j : Job) : List Input :=
  j.queries.map (fun x => .queryAsync x.query_str x.result_cb x.row_cb x.end_cb)++
    (j.queries.filter Query.abort).map (fun x => .abortAsync x.id)++[.connectAsync j.connect_cb]

theorem run_enqueue (multi : Bool) (l qs : List Query) (n : ℕ)
    (hl : l.map Query.id = List.range' n l.length) :
    run step (l.map fun x => .queryAsync x.query_str x.result_cb x.row_cb x.end_cb)
        (enqueued multi qs n) =
      .ok (enqueued multi (qs++l.map fun x => { x with abort := false }) (n+l.length)) := by
  induction l generalizing qs n with
  | nil => simp [run, enqueued]
  | cons x l ih =>
    rw [List.map_cons, List.length_cons, List.range'_succ] at hl
    obtain ⟨hid,hrest⟩ := List.cons.inj hl
    have hstep : step (enqueued multi qs n)
        (.queryAsync x.query_str x.result_cb x.row_cb x.end_cb) =
        .ok (enqueued multi (qs++[{ x with abort := false }]) (n+1)) := by
      rw [← hid]
      rfl
    rw [List.map_cons, run_cons_ok hstep, ih _ _ hrest]
    simp [Nat.add_comm, Nat.add_left_comm]

theorem run_abort (multi : Bool) (ids : List ℕ) (qs : List Query) (n : ℕ)
    (h : ∀ i ∈ ids, i ∈ qs.map Query.id) :
    run step (ids.map Input.abortAsync) (enqueued multi qs n) =
      .ok (enqueued multi
        (qs.map fun x => if x.id ∈ ids then { x with abort := true } else x) n) := by
  induction ids generalizing qs with
  | nil => simp [run]
  | cons i ids ih =>
    have hstep : step (enqueued multi qs n) (.abortAsync i) = .ok (enqueued multi
        (qs.map fun x => if x.id = i then { x with abort := true } else x) n) := by
      rw [step, if_pos ⟨rfl,rfl,h i (by simp)⟩]
      rfl
    have hids : (qs.map fun x => if x.id = i then { x with abort := true } else x).map Query.id =
        qs.map Query.id := by
      rw [List.map_map]
      apply List.map_congr_left
      intro x _
      show Query.id (if x.id = i then { x with abort := true } else x) = x.id
      split <;> rfl
    have hrest : ∀ k ∈ ids, k ∈
        (qs.map fun x => if x.id = i then { x with abort := true } else x).map Query.id := by
      rw [hids]
      exact fun k hk => h k (List.mem_cons_of_mem i hk)
    rw [List.map_cons, run_cons_ok hstep, ih _ hrest, List.map_map]
    apply congrArg (fun l => Except.ok (enqueued multi l n))
    apply List.map_congr_left
    intro x _
    by_cases hx : x.id = i
    · simp [hx]
    · simp [hx]

theorem aborted_back (j : Job) :
    ((j.queries.map fun x => { x with abort := false }).map fun x =>
      if x.id ∈ (j.queries.filter Query.abort).map Query.id then { x with abort := true } else x) =
      j.queries := by
  have hnodup : (j.queries.map Query.id).Nodup := by
    rw [j.numbered]
    exact List.nodup_range
  have hback : ∀ x ∈ j.queries,
      (if x.id ∈ (j.queries.filter Query.abort).map Query.id
        then { x with abort := true } else { x with abort := false }) = x := by
    intro x hx
    have hmem : x.id ∈ (j.queries.filter Query.abort).map Query.id ↔ x.abort = true := by
      rw [List.mem_map]
      constructor
      · rintro ⟨y,hy,hid⟩
        rw [List.mem_filter] at hy
        rw [← List.inj_on_of_nodup_map hnodup hy.1 hx hid]
        exact hy.2
      · intro h
        exact ⟨x,List.mem_filter.mpr ⟨hx,h⟩,rfl⟩
    by_cases h : x.abort = true
    · rw [if_pos (hmem.mpr h), ← h]
    · rw [if_neg (mt hmem.mp h), ← Bool.eq_false_of_not_eq_true h]
  rw [List.map_map]
  exact (List.map_congr_left hback).trans (List.map_id' _)

/-- The connection of a job is reached by enqueueing its queries, aborting the
aborted ones and calling `mariadb_connect_async`. -/
theorem job_reached (j : Job) : run step j.calls (connCreate j.multi) = .ok j.machine := by
  have hids : j.queries.map Query.id = List.range' 0 j.queries.length := by
    rw [j.numbered, List.range_eq_range']
  have hmem : ∀ i ∈ (j.queries.filter Query.abort).map Query.id,
      i ∈ (j.queries.map fun x => { x with abort := false }).map Query.id := by
    intro i hi
    rw [List.map_map]
    exact List.map_subset _ (List.filter_subset_self _) hi
  have habort := run_abort j.multi _ (j.queries.map fun x => { x with abort := false })
    j.queries.length hmem
  rw [aborted_back, List.map_map] at habort
  have henqueue := run_enqueue j.multi j.queries [] 0 hids
  rw [List.nil_append, Nat.zero_add] at henqueue
  have hstart : connCreate j.multi = enqueued j.multi [] 0 := rfl
  rw [Job.calls, List.append_assoc, hstart, run_append_ok henqueue]
  exact run_append_ok habort _

end Jobs

theorem job_unconnected (j : Job) : Unconnected { connCreate j.multi with
    connect_cb := j.connect_cb, queries := j.queries, next := j.queries.length } 0 :=
  ⟨⟨⟨rfl,by rw [Nat.sub_zero, ← List.range_eq_range']; exact j.numbered,Nat.zero_le _⟩,
    List.Pairwise.nil,by simp [connCreate]⟩,rfl,rfl,rfl⟩

theorem job_outcome (j : Job) (s : Script) : j.outcome s =
    if s.refused then Part.some (some (refusedOutcome j.machine s.connect))
    else queueOutcome j.multi s.replies j.queries (connectEvents j.connect_cb true) [] :=
  connect_outcome _ rfl (job_unconnected j)

def oneQuery : Job := ⟨false,true,[⟨0,true,false,true,true,true⟩],rfl⟩

end Duda.MariadbDeferral
