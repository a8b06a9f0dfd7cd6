import Duda.Runs

/-!
# The routines of a connection in a dthread

The routines of the synchronous interface start an operation of the client
library and, as long as it would block, suspend their dthread. A read event
resumes the routine; an error, close or timeout event sets the state of the
connection first, and the routine then releases the connection. Freeing a
result is a routine of its own, called by the one that fetches rows, and it can
be suspended too.
-/

set_option autoImplicit false

namespace Duda.MariadbDthread
open Duda.Runs

/-- `mariadb_conn_state_t`, without the states of statements in sequence. -/
inductive ConnState where
  | closed
  | connecting
  | connected
  | querying
  | queried
  | rowFetching
  | rowFetched
  | resultFreeing
  | resultFreed
  | error
  deriving DecidableEq, Repr

/-- Where `mariadb_dthread_result_free` returns to, in `mariadb_dthread_get_row`:
after the last row, with the error that is reported, or after an event. -/
inductive Caller where
  | rowsEnd (error : Bool)
  | rowError
  deriving DecidableEq, Repr

/-- Where the control is: with the user, at a call of the library, or suspended
after it. -/
inductive Point where
  | user
  | connectStart
  | connectCont
  | connectYield
  | queryStart
  | queryCont
  | queryYield
  | useResult
  | fetchStart
  | fetchCont
  | fetchYield
  | freeStart (k : Caller)
  | freeCont (k : Caller)
  | freeYield (k : Caller)
  deriving DecidableEq, Repr

inductive Answer where
  | wouldBlock
  | failed
  | done
  | result (present : Bool)
  | row
  | noRow (failed : Bool)
  deriving DecidableEq, Repr

/-- What a routine returns: of a query, whether there is a result; of a row,
whether there is one, and what is written to `error`. -/
inductive Return where
  | connect (ok : Bool)
  | query (result : Bool)
  | row (present : Bool) (error : Option Bool)
  | disconnect
  deriving DecidableEq, Repr

inductive Fault where
  | notEnabled
  | useAfterFree
  deriving DecidableEq, Repr

inductive Input where
  | connect
  | query
  | getRow
  | disconnect
  | answer (a : Answer)
  | onRead
  | onError
  | onClose
  | onTimeout
  deriving DecidableEq, Repr

/-- The connection, where its routine is, and what the last routine returned. A
connection is released when it is closed and freed, or returned to its pool. -/
structure Machine where
  state : ConnState
  is_pooled : Bool
  linked : Bool
  released : Bool
  point : Point
  ret : Option Return
  deriving DecidableEq, Repr

/-- A connection of the user, new or from the pool. -/
def start (state : ConnState) (is_pooled linked : Bool) : Machine :=
  ⟨state,is_pooled,linked,false,.user,none⟩

section Routines

variable (m : Machine)

def await (p : Point) : Machine := { m with point := p }

def returns (r : Return) : Machine := { m with point := .user, ret := some r }

/-- `mariadb_dthread_disconnect`. -/
def disconnect : Except Fault Machine :=
  if m.released then .error .useAfterFree
  else if m.is_pooled then .ok { m with state := .connected, released := true }
  else .ok { m with linked := false, released := true }

/-- The error exits: the connection is closed, pooled or not. -/
def closeConn : Except Fault Machine := disconnect { m with is_pooled := false }

/-- `mariadb_dthread_connect`, up to the call of the library. -/
def connect : Machine :=
  if m.state = .closed then await m .connectStart else returns m (.connect true)

/-- A connection that is refused at once is not in any list yet. -/
def connectStarted : Answer → Except Fault Machine
  | .wouldBlock => .ok (await { m with state := .connecting, linked := true } .connectYield)
  | .failed => .ok (returns { m with released := true } (.connect false))
  | .done => .ok (returns { m with state := .connected, linked := true } (.connect true))
  | _ => .error .notEnabled

def connectResumed : Except Fault Machine :=
  if m.state = .connected then .ok (returns m (.connect true))
  else if m.state = .error then (closeConn m).map (returns · (.connect false))
  else .ok (await m .connectCont)

def connectContinued : Answer → Except Fault Machine
  | .wouldBlock => .ok (await m .connectYield)
  | .failed => (closeConn m).map (returns · (.connect false))
  | .done => .ok (returns { m with state := .connected } (.connect true))
  | _ => .error .notEnabled

/-- `mysql_real_query_start` and `mysql_real_query_cont` are handled alike. -/
def queryAnswered : Answer → Except Fault Machine
  | .wouldBlock => .ok (await { m with state := .querying } .queryYield)
  | .failed => .ok (returns m (.query false))
  | .done => .ok (await { m with state := .queried } .useResult)
  | _ => .error .notEnabled

def queryResumed : Except Fault Machine :=
  if m.state = .error then (closeConn m).map (returns · (.query false))
  else .ok (await m .queryCont)

/-- `mariadb_dthread_handle_result`. -/
def resultUsed : Answer → Except Fault Machine
  | .result present => .ok (returns m (.query present))
  | _ => .error .notEnabled

/-- `mysql_fetch_row_start` and `mysql_fetch_row_cont` are handled alike. -/
def fetchAnswered : Answer → Except Fault Machine
  | .wouldBlock => .ok (await { m with state := .rowFetching } .fetchYield)
  | .row => .ok (returns { m with state := .rowFetched } (.row true none))
  | .noRow failed => .ok (await { m with state := .rowFetched } (.freeStart (.rowsEnd failed)))
  | _ => .error .notEnabled

def fetchResumed : Machine :=
  if m.state = .error then await m (.freeStart .rowError) else await m .fetchCont

/-- `mariadb_dthread_result_free` returns; after an event the connection is
released then. -/
def resultFreed : Caller → Except Fault Machine
  | .rowsEnd error => .ok (returns m (.row false (some error)))
  | .rowError =>
    if m.released then .error .useAfterFree
    else (closeConn m).map (returns · (.row false (some true)))

/-- `mysql_free_result_start` and `mysql_free_result_cont` are handled alike. -/
def freeAnswered (k : Caller) : Answer → Except Fault Machine
  | .wouldBlock => .ok (await { m with state := .resultFreeing } (.freeYield k))
  | .done => resultFreed { m with state := .resultFreed } k
  | _ => .error .notEnabled

def freeResumed (k : Caller) : Except Fault Machine :=
  if m.state = .error then (closeConn m).bind (resultFreed · k) else .ok (await m (.freeCont k))

def answered (a : Answer) : Except Fault Machine :=
  match m.point with
  | .connectStart => connectStarted m a
  | .connectCont => connectContinued m a
  | .queryStart | .queryCont => queryAnswered m a
  | .useResult => resultUsed m a
  | .fetchStart | .fetchCont => fetchAnswered m a
  | .freeStart k | .freeCont k => freeAnswered m k a
  | _ => .error .notEnabled

/-- `dthread->resume`, as far as it concerns the connection: a dthread that is
suspended elsewhere, or not at all, does not use it. -/
def resume : Except Fault Machine :=
  match m.point with
  | .user => .ok m
  | .connectYield => connectResumed m
  | .queryYield => queryResumed m
  | .fetchYield => .ok (fetchResumed m)
  | .freeYield k => freeResumed m k
  | _ => .error .notEnabled

/-- `mariadb_dthread_on_error`, `mariadb_dthread_on_close` and
`mariadb_dthread_on_timeout`. -/
def fail : Except Fault Machine := resume { m with state := .error }

end Routines

/-- The user calls a routine, or an event arrives, only while the connection is
not released. -/
def step (m : Machine) : Input → Except Fault Machine
  | .connect =>
    if m.point = .user ∧ m.released = false then .ok (connect m) else .error .notEnabled
  | .query =>
    if m.point = .user ∧ m.released = false then .ok (await m .queryStart)
    else .error .notEnabled
  | .getRow =>
    if m.point = .user ∧ m.released = false then .ok (await m .fetchStart)
    else .error .notEnabled
  | .disconnect =>
    if m.point = .user ∧ m.released = false ∧ m.linked = true then
      (disconnect m).map (returns · .disconnect)
    else .error .notEnabled
  | .answer a => answered m a
  | .onRead => if m.released = false then resume m else .error .notEnabled
  | .onError | .onClose | .onTimeout => if m.released = false then fail m else .error .notEnabled

/-- A return value that reports an error; only `query` and `get_row` report. -/
def Reports : Return → Prop
  | .query result => result = false
  | .row _ error => error = some true
  | .connect _ | .disconnect => True

/-- A routine that released the connection reports an error. -/
def Told (m : Machine) : Prop := m.released = true → ∀ r, m.ret = some r → Reports r

/-- What is expected of a step: the connection is not used after its release, in
particular not released again, and a release is reported. -/
structure Sound (r : Except Fault Machine) : Prop where
  unused : r ≠ .error .useAfterFree
  told : ∀ t, r = .ok t → Told t

/-- No error, close or timeout event arrives while a result is freed, unless an
error is reported anyway. -/
def Undisturbed (m : Machine) : Input → Prop
  | .onError | .onClose | .onTimeout =>
    m.point ≠ .freeYield .rowError ∧ m.point ≠ .freeYield (.rowsEnd false)
  | _ => True

/-- After the release no routine runs, and a routine that is suspended while it
frees a result has seen no event yet. -/
structure Inv (m : Machine) : Prop where
  settled : m.released = true → m.point = .user
  waiting : ∀ k, m.point = .freeYield k → m.state ≠ .error

structure Fine (r : Except Fault Machine) : Prop extends Sound r where
  inv : ∀ t, r = .ok t → Inv t

theorem fine_held (t : Machine) (h : t.released = false)
    (hw : ∀ k, t.point = .freeYield k → t.state ≠ .error) : Fine (.ok t) := by
  refine ⟨⟨by simp,?_⟩,?_⟩
  · intro u hu hr
    cases hu
    cases h.symm.trans hr
  · intro u hu
    cases hu
    refine ⟨?_,hw⟩
    intro hr
    cases h.symm.trans hr

def frees : Point → Bool
  | .freeYield _ => true
  | _ => false

theorem fine_elsewhere (t : Machine) (h : t.released = false) (hp : frees t.point = false) :
    Fine (.ok t) := by
  refine fine_held t h ?_
  intro k hk
  rw [hk] at hp
  cases hp

theorem fine_refused : Fine (.error .notEnabled) where
  unused := by simp
  told := by simp
  inv := by simp

theorem fine_returns (t : Machine) (r : Return) (h : Reports r) : Fine (.ok (returns t r)) := by
  refine ⟨⟨by simp,?_⟩,?_⟩
  · intro u hu _ r' hr
    cases hu
    cases hr
    exact h
  · intro u hu
    cases hu
    refine ⟨fun _ => rfl,?_⟩
    intro k hk
    cases hk

section Steps

variable (m : Machine) (h : m.released = false)
include h

theorem closeConn_eq :
    closeConn m = .ok { m with is_pooled := false, linked := false, released := true } := by
  simp [closeConn, disconnect, h]

theorem fine_closed (r : Return) (hr : Reports r) : Fine ((closeConn m).map (returns · r)) := by
  rw [closeConn_eq m h]
  exact fine_returns _ r hr

theorem connect_fine : Fine (.ok (connect m)) := by
  rw [connect]
  split
  · exact fine_elsewhere _ h rfl
  · exact fine_elsewhere _ h rfl

variable (k : Caller) (a : Answer)

theorem connectStarted_fine : Fine (connectStarted m a) := by
  cases a with
  | wouldBlock => exact fine_elsewhere _ h rfl
  | failed => exact fine_returns _ _ trivial
  | done => exact fine_elsewhere _ h rfl
  | result _ | row | noRow _ => exact fine_refused

theorem connectResumed_fine : Fine (connectResumed m) := by
  rw [connectResumed]
  split
  · exact fine_elsewhere _ h rfl
  · split
    · exact fine_closed m h _ trivial
    · exact fine_elsewhere _ h rfl

theorem connectContinued_fine : Fine (connectContinued m a) := by
  cases a with
  | wouldBlock => exact fine_elsewhere _ h rfl
  | failed => exact fine_closed m h _ trivial
  | done => exact fine_elsewhere _ h rfl
  | result _ | row | noRow _ => exact fine_refused

theorem queryAnswered_fine : Fine (queryAnswered m a) := by
  cases a with
  | wouldBlock | failed | done => exact fine_elsewhere _ h rfl
  | result _ | row | noRow _ => exact fine_refused

theorem queryResumed_fine : Fine (queryResumed m) := by
  rw [queryResumed]
  split
  · exact fine_closed m h _ rfl
  · exact fine_elsewhere _ h rfl

theorem resultUsed_fine : Fine (resultUsed m a) := by
  cases a with
  | result _ => exact fine_elsewhere _ h rfl
  | wouldBlock | failed | done | row | noRow _ => exact fine_refused

theorem fetchAnswered_fine : Fine (fetchAnswered m a) := by
  cases a with
  | wouldBlock | row | noRow _ => exact fine_elsewhere _ h rfl
  | failed | done | result _ => exact fine_refused

theorem fetchResumed_fine : Fine (.ok (fetchResumed m)) := by
  rw [fetchResumed]
  split
  · exact fine_elsewhere _ h rfl
  · exact fine_elsewhere _ h rfl

theorem resultFreed_fine : Fine (resultFreed m k) := by
  cases k with
  | rowsEnd error => exact fine_elsewhere _ h rfl
  | rowError =>
    rw [resultFreed, h]
    exact fine_closed m h _ rfl

theorem freeAnswered_fine : Fine (freeAnswered m k a) := by
  cases a with
  | wouldBlock => exact fine_held _ h (by simp [await])
  | done => exact resultFreed_fine { m with state := .resultFreed } h k
  | failed | result _ | row | noRow _ => exact fine_refused

theorem freeResumed_fine (hs : m.state ≠ .error) : Fine (freeResumed m k) := by
  rw [freeResumed, if_neg hs]
  exact fine_elsewhere _ h rfl

/-- After an event other than a read, freeing a result releases the connection, and returns. -/
theorem freeResumed_error (hs : m.state = .error) : freeResumed m k =
    resultFreed { m with is_pooled := false, linked := false, released := true } k := by
  rw [freeResumed, if_pos hs, closeConn_eq m h]
  rfl

/-- This is right where an error is reported and the connection not used again. -/
theorem freeResumed_reported (hs : m.state = .error) :
    Fine (freeResumed m (.rowsEnd true)) := by
  rw [freeResumed_error m h _ hs]
  exact fine_returns _ _ rfl

theorem freeResumed_unsound (hs : m.state = .error) (hk : k ≠ .rowsEnd true) :
    ¬Sound (freeResumed m k) := by
  rw [freeResumed_error m h k hs]
  intro hf
  cases k with
  | rowError => exact hf.unused rfl
  | rowsEnd error =>
    cases error with
    | true => exact hk rfl
    | false => cases hf.told _ rfl rfl _ rfl

end Steps

variable (m : Machine)

theorem answered_fine (a : Answer) (hi : Inv m) : Fine (answered m a) := by
  by_cases hr : m.released = true
  · rw [answered, hi.settled hr]
    exact fine_refused
  · have h : m.released = false := by simpa using hr
    rw [answered]
    split
    · exact connectStarted_fine m h a
    · exact connectContinued_fine m h a
    · exact queryAnswered_fine m h a
    · exact queryAnswered_fine m h a
    · exact resultUsed_fine m h a
    · exact fetchAnswered_fine m h a
    · exact fetchAnswered_fine m h a
    · exact freeAnswered_fine m h _ a
    · exact freeAnswered_fine m h _ a
    · exact fine_refused

theorem resume_fine (h : m.released = false)
    (hk : ∀ k, m.point = .freeYield k → Fine (freeResumed m k)) : Fine (resume m) := by
  rw [resume]
  split
  · next hp => exact fine_elsewhere _ h (hp ▸ rfl)
  · exact connectResumed_fine m h
  · exact queryResumed_fine m h
  · exact fetchResumed_fine m h
  · next k hp => exact hk k hp
  · exact fine_refused

theorem fail_fine (h : m.released = false) (hrow : m.point ≠ .freeYield .rowError)
    (hend : m.point ≠ .freeYield (.rowsEnd false)) : Fine (fail m) := by
  refine resume_fine { m with state := .error } h (fun k hp => ?_)
  cases k with
  | rowError => exact absurd hp hrow
  | rowsEnd error =>
    cases error with
    | true => exact freeResumed_reported { m with state := .error } h rfl
    | false => exact absurd hp hend

theorem fail_unsound (h : m.released = false) (k : Caller) (hp : m.point = .freeYield k)
    (hk : k ≠ .rowsEnd true) : ¬Sound (fail m) := by
  have hfail : fail m = freeResumed { m with state := .error } k := by
    simp only [fail, resume, hp]
  rw [hfail]
  exact freeResumed_unsound { m with state := .error } h k rfl hk

theorem disconnect_fine (h : m.released = false) :
    Fine ((disconnect m).map (returns · .disconnect)) := by
  rw [disconnect, h]
  simp only [Bool.false_eq_true, if_false]
  split
  · exact fine_returns _ _ trivial
  · exact fine_returns _ _ trivial

theorem held_of_yield (k : Caller) (hi : Inv m) (hp : m.point = .freeYield k) :
    m.released = false := by
  by_contra hr
  cases hp.symm.trans (hi.settled (by simpa using hr))

theorem event_fine (hrow : m.point ≠ .freeYield .rowError)
    (hend : m.point ≠ .freeYield (.rowsEnd false)) :
    Fine (if m.released = false then fail m else .error .notEnabled) := by
  split
  · next h => exact fail_fine m h hrow hend
  · exact fine_refused

theorem step_fine (a : Input) (hi : Inv m) (hu : Undisturbed m a) : Fine (step m a) := by
  cases a with
  | connect =>
    rw [step]
    split
    · next h => exact connect_fine m h.2
    · exact fine_refused
  | query | getRow =>
    rw [step]
    split
    · next h => exact fine_elsewhere _ h.2 rfl
    · exact fine_refused
  | disconnect =>
    rw [step]
    split
    · next h => exact disconnect_fine m h.2.1
    · exact fine_refused
  | answer a => exact answered_fine m a hi
  | onRead =>
    rw [step]
    split
    · next h => exact resume_fine m h (fun k hp => freeResumed_fine m h k (hi.waiting k hp))
    · exact fine_refused
  | onError | onClose | onTimeout => exact event_fine m hu.1 hu.2

theorem event_unsound (hi : Inv m)
    (hu : ¬(m.point ≠ .freeYield .rowError ∧ m.point ≠ .freeYield (.rowsEnd false))) :
    ¬Sound (if m.released = false then fail m else .error .notEnabled) := by
  have hk : ∃ k, m.point = .freeYield k ∧ k ≠ .rowsEnd true := by
    by_cases hrow : m.point = .freeYield .rowError
    · exact ⟨_,hrow,by decide⟩
    · exact ⟨_,not_not.mp (fun hend => hu ⟨hrow,hend⟩),by decide⟩
  obtain ⟨k,hp,hne⟩ := hk
  have h := held_of_yield m k hi hp
  rw [if_pos h]
  exact fail_unsound m h k hp hne

theorem step_sound_iff (a : Input) (hi : Inv m) : Sound (step m a) ↔ Undisturbed m a := by
  refine ⟨fun hs => ?_,fun hu => (step_fine m a hi hu).toSound⟩
  cases a with
  | onError | onClose | onTimeout => exact not_not.mp (fun hu => event_unsound m hi hu hs)
  | connect | query | getRow | disconnect | answer _ | onRead => trivial

/-- A run of the routines releases the connection at most once, does not use it
afterwards and reports the release, exactly when no error, close or timeout
event arrives while a result is freed without an error to report. -/
theorem routines_sound_iff (state : ConnState) (is_pooled linked : Bool) (inputs : List Input) :
    Along step (fun _ _ r => Sound r) inputs (start state is_pooled linked) ↔
      Along step (fun m a _ => Undisturbed m a) inputs (start state is_pooled linked) := by
  refine along_iff (I := Inv) ?_ (fun m a hi => step_sound_iff m a hi) inputs _ ?_
  · intro m a t hi hu ht
    exact (step_fine m a hi hu).inv t ht
  · exact ⟨by simp [start],by simp [start]⟩

/-- The connection fails while a row is fetched and once more while the result is
freed for this reason: it is used after its release. -/
theorem failure_in_free_mishandled :
    ∃ m, run step [.getRow,.answer .wouldBlock,.onError,.answer .wouldBlock]
        (start .connected false true) = .ok m ∧ step m .onError = .error .useAfterFree :=
  ⟨⟨.resultFreeing,false,true,false,.freeYield .rowError,none⟩,by decide,by decide⟩

end Duda.MariadbDthread
