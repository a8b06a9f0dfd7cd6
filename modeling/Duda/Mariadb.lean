import Duda.Runs

/-!
# An asynchronous connection of the MariaDB package

The handlers of a connection call each other, the client library and the
callbacks of the user. The machine stops at every call of the library and at
every callback: what the library answers, and what the user calls before a
callback returns, are inputs. The places to which a call returns are kept on a
stack. A query is known by the number under which it was enqueued; the queries
that were passed to the server and those that were freed are recorded.
-/

set_option autoImplicit false

namespace Duda.Mariadb

/-- `mariadb_conn_state_t`; `CONN_STATE_ERROR` is never set. -/
inductive ConnState where
  | closed
  | connecting
  | connected
  | querying
  | queried
  | rowFetching
  | rowFetched
  | nextResulting
  | nextResulted
  | resultFreeing
  | resultFreed
  deriving DecidableEq, Repr

structure Query where
  id : ℕ
  query_str : Bool
  abort : Bool
  result_cb : Bool
  row_cb : Bool
  end_cb : Bool
  deriving DecidableEq, Repr

/-- The calls of callbacks. -/
inductive Event where
  | connect (ok : Bool)
  | result (q : ℕ)
  | row (q : ℕ)
  | last (q : ℕ)
  | disconnect
  deriving DecidableEq, Repr

/-- The calls of the client library. A handler that keeps its query in a local
variable names it; `mariadb_on_read` uses `current_query`. -/
inductive Point where
  | connectStart
  | queryStart (q : ℕ)
  | useResult (q : ℕ)
  | fetchStart (q : ℕ)
  | freeStart (q : ℕ)
  | nextStart (q : ℕ)
  | connectCont
  | queryCont
  | fetchCont
  | freeCont
  | nextCont
  deriving DecidableEq, Repr

/-- The places to which a callback returns, in `mariadb_async_handle_connect`,
in `mariadb_on_read` for a connection, in the handlers of a result, and in
`mariadb_on_read` for a row; then the places to which a handler returns. -/
inductive Frame where
  | connectedCb
  | refusedCb
  | readConnectedCb
  | readRefusedCb
  | resultCb
  | rowCb (q : ℕ)
  | endCb
  | readRowCb
  | readEndCb
  | queryLoop
  | nextLoop (q : ℕ)
  | readQuerying
  | readRowEnd
  | readNexting
  deriving DecidableEq, Repr

/-- What `mysql_next_result` reports: `-1`, `0` or an error number. -/
inductive More where
  | none
  | more
  | error
  deriving DecidableEq, Repr

inductive Answer where
  | wouldBlock
  | failed
  | done
  | result (present : Bool)
  | row
  | noRow (failed : Bool)
  | next (n : More)
  deriving DecidableEq, Repr

inductive Fault where
  | notEnabled
  | useAfterFree
  | nullPointer
  | wildList
  deriving DecidableEq, Repr

inductive Input where
  | connectAsync (cb : Bool)
  | queryAsync (query_str result_cb row_cb end_cb : Bool)
  | disconnectAsync (cb : Bool)
  | abortAsync (q : ℕ)
  | read
  | answer (a : Answer)
  | callbackReturns
  deriving DecidableEq, Repr

/-- The connection, with `multi` for `CLIENT_MULTI_STATEMENTS`, `linked` for its
place in the list of connections and `polled` for its descriptor in the event
loop; the history of its queries; and where the control is: at a call of the
library, or in the code of the user, above the stack. -/
structure Machine where
  state : ConnState
  queries : List Query
  current_query : Option ℕ
  connect_cb : Bool
  disconnect_cb : Bool
  disconnect_on_finish : Bool
  multi : Bool
  linked : Bool
  polled : Bool
  alive : Bool
  next : ℕ
  started : List ℕ
  freed : List ℕ
  log : List Event
  point : Option Point
  stack : List Frame
  deriving DecidableEq, Repr

/-- `mariadb_conn_create`. -/
def connCreate (multi : Bool) : Machine :=
  ⟨.closed,[],none,false,false,false,multi,false,false,true,0,[],[],[],none,[]⟩

namespace Machine

variable (m : Machine)

def await (p : Point) (k : List Frame) : Machine := { m with point := some p, stack := k }

def user (k : List Frame) : Machine := { m with point := none, stack := k }

def logged (e : Event) : Machine := { m with log := m.log++[e] }

def lookup (q : ℕ) : Except Fault Query :=
  match m.queries.find? (fun x => x.id = q) with
  | some x => .ok x
  | none => .error .useAfterFree

def currentQuery : Except Fault Query :=
  match m.current_query with
  | some q => m.lookup q
  | none => .error .nullPointer

/-- `mariadb_query_free`. -/
def queryFree (q : ℕ) : Except Fault Machine :=
  (m.lookup q).map fun _ =>
    { m with queries := m.queries.filter (fun x => x.id ≠ q), freed := m.freed++[q] }

/-- `mariadb_conn_free`. -/
def connFree : Machine :=
  { m with alive := false, queries := [], freed := m.freed++m.queries.map Query.id }

end Machine

/-- `mariadb_async_handle_release` of a connection without a pool. -/
def handleRelease (m : Machine) : Except Fault Machine :=
  let notified := if m.state ≠ .closed ∧ m.state ≠ .connecting ∧ m.disconnect_cb = true then
    m.logged .disconnect else m
  if m.linked then
    .ok { notified with polled := false, state := .closed, linked := false }.connFree
  else .error .wildList

/-- The loop of `mariadb_async_handle_query`, over what is left in the queue. -/
def queryLoop (k : List Frame) (ret : Machine → Except Fault Machine) :
    List Query → Machine → Except Fault Machine
  | [], m =>
    let m := { m with queries := [], current_query := none, state := .connected }
    if m.disconnect_on_finish then (handleRelease m).bind ret else ret m
  | q::qs, m =>
    if q.abort then queryLoop k ret qs { m with state := .connected, freed := m.freed++[q.id] }
    else if q.query_str then
      .ok ({ m with queries := q::qs, current_query := some q.id, started := m.started++[q.id] }.await
        (.queryStart q.id) k)
    else queryLoop k ret qs { m with freed := m.freed++[q.id] }

def handleQuery (k : List Frame) (ret : Machine → Except Fault Machine) (m : Machine) :
    Except Fault Machine :=
  queryLoop k ret m.queries m

/-- A handler returns. In the code of the user, and in the event loop, nothing
else happens. -/
def ret : List Frame → Machine → Except Fault Machine
  | [], m => .ok (m.user [])
  | f::k, m =>
    match f with
    | .queryLoop | .readQuerying | .readRowEnd =>
      if m.alive then
        if m.state = .connected then handleQuery k (ret k) m else ret k m
      else .error .useAfterFree
    | .nextLoop q =>
      if m.alive then
        if m.state = .resultFreed then .ok (m.await (.nextStart q) k) else ret k m
      else .error .useAfterFree
    | .readNexting =>
      if m.alive then
        if m.state = .resultFreed then .ok (m.await .nextCont k)
        else if m.state = .connected then handleQuery k (ret k) m else ret k m
      else .error .useAfterFree
    | _ => .ok (m.user (f::k))

def resume (k : List Frame) (m : Machine) : Except Fault Machine :=
  if m.state = .connected then handleQuery k (ret k) m else ret k m

/-- `mariadb_async_handle_result`, up to `mysql_use_result`. -/
def handleResult (k : List Frame) (m : Machine) : Except Fault Machine :=
  m.currentQuery.map fun q => m.await (.useResult q.id) k

def handleRow (k : List Frame) (m : Machine) : Except Fault Machine :=
  m.currentQuery.map fun q => m.await (.fetchStart q.id) k

def handleResultFree (k : List Frame) (m : Machine) : Except Fault Machine :=
  m.currentQuery.map fun q => m.await (.freeStart q.id) k

def handleNextResult (k : List Frame) (m : Machine) : Except Fault Machine :=
  m.currentQuery.map fun q => m.await (.nextStart q.id) k

section Answers

variable (k : List Frame) (m : Machine)

/-- The end of `mariadb_async_handle_connect`. -/
def connectEnd : Except Fault Machine := resume k { m with linked := true, polled := true }

def connectStarted : Answer → Except Fault Machine
  | .wouldBlock => connectEnd k { m with state := .connecting }
  | .failed =>
    if m.connect_cb then .ok ((m.logged (.connect false)).user (.refusedCb::k))
    else ret k m.connFree
  | .done =>
    let m := { m with state := .connected }
    if m.connect_cb then .ok ((m.logged (.connect true)).user (.connectedCb::k))
    else connectEnd k m
  | _ => .error .notEnabled

def queryStarted (q : ℕ) : Answer → Except Fault Machine
  | .wouldBlock => ret k { m with state := .querying }
  | .failed => (m.queryFree q).bind (handleQuery k (ret k))
  | .done => handleResult (.queryLoop::k) { m with state := .queried }
  | _ => .error .notEnabled

/-- The rest of `mariadb_async_handle_result`. -/
def resultUsed (q : ℕ) : Answer → Except Fault Machine
  | .result false => (m.queryFree q).bind fun m => ret k { m with state := .connected }
  | .result true => (m.lookup q).bind fun query =>
    if query.abort then handleResultFree k m
    else if query.result_cb then .ok ((m.logged (.result q)).user (.resultCb::k))
    else handleRow k m
  | _ => .error .notEnabled

def rowStarted (q : ℕ) : Answer → Except Fault Machine
  | .wouldBlock => ret k { m with state := .rowFetching }
  | .row => (m.lookup q).bind fun query =>
    let m := { m with state := .rowFetched }
    if query.row_cb then .ok ((m.logged (.row q)).user (.rowCb q::k))
    else .ok (m.await (.fetchStart q) k)
  | .noRow failed => (m.lookup q).bind fun query =>
    let m := { m with state := .rowFetched }
    if failed then handleResultFree k m
    else if query.end_cb then .ok ((m.logged (.last q)).user (.endCb::k))
    else handleResultFree k m
  | _ => .error .notEnabled

def freeStarted (q : ℕ) : Answer → Except Fault Machine
  | .wouldBlock => ret k { m with state := .resultFreeing }
  | .done =>
    let m := { m with state := .resultFreed }
    if m.multi then handleNextResult k m
    else ({ m with current_query := none }.queryFree q).bind fun m =>
      ret k { m with state := .connected }
  | _ => .error .notEnabled

def nextStarted (q : ℕ) : Answer → Except Fault Machine
  | .wouldBlock => ret k { m with state := .nextResulting }
  | .next .none =>
    ({ m with state := .nextResulted, current_query := none }.queryFree q).bind fun m =>
      ret k { m with state := .connected }
  | .next .more => handleResult (.nextLoop q::k) { m with state := .nextResulted }
  | .next .error => .ok ({ m with state := .nextResulted }.await (.nextStart q) k)
  | _ => .error .notEnabled

/-- The cases of `mariadb_on_read`, after the library was called. -/
def connectContinued : Answer → Except Fault Machine
  | .wouldBlock => ret k m
  | .failed =>
    if m.connect_cb then .ok ((m.logged (.connect false)).user (.readRefusedCb::k))
    else ret k { m with polled := false }
  | .done =>
    let m := { m with state := .connected }
    if m.connect_cb then .ok ((m.logged (.connect true)).user (.readConnectedCb::k))
    else handleQuery k (ret k) m
  | _ => .error .notEnabled

def queryContinued : Answer → Except Fault Machine
  | .wouldBlock => ret k m
  | .failed => m.currentQuery.bind fun q => (m.queryFree q.id).bind fun m =>
    handleQuery k (ret k) { m with state := .connected }
  | .done => handleResult (.readQuerying::k) { m with state := .queried }
  | _ => .error .notEnabled

def rowContinued : Answer → Except Fault Machine
  | .wouldBlock => ret k m
  | .row => m.currentQuery.bind fun query =>
    let m := { m with state := .rowFetched }
    if query.row_cb then .ok ((m.logged (.row query.id)).user (.readRowCb::k))
    else .ok (m.await .fetchCont k)
  | .noRow failed => m.currentQuery.bind fun query =>
    let m := { m with state := .rowFetched }
    if failed then handleResultFree (.readRowEnd::k) m
    else if query.end_cb then .ok ((m.logged (.last query.id)).user (.readEndCb::k))
    else handleResultFree (.readRowEnd::k) m
  | _ => .error .notEnabled

/-- Without several statements `current_query` is cleared, and then freed. -/
def freeContinued : Answer → Except Fault Machine
  | .wouldBlock => ret k m
  | .done =>
    let m := { m with state := .resultFreed }
    if m.multi then handleNextResult k m else .error .nullPointer
  | _ => .error .notEnabled

def nextContinued : Answer → Except Fault Machine
  | .wouldBlock => resume k m
  | .next .none => .error .nullPointer
  | .next .more => handleResult (.readNexting::k) { m with state := .nextResulted }
  | .next .error => .ok ({ m with state := .nextResulted }.await .nextCont k)
  | _ => .error .notEnabled

def answered (a : Answer) : Point → Except Fault Machine
  | .connectStart => connectStarted k m a
  | .queryStart q => queryStarted k m q a
  | .useResult q => resultUsed k m q a
  | .fetchStart q => rowStarted k m q a
  | .freeStart q => freeStarted k m q a
  | .nextStart q => nextStarted k m q a
  | .connectCont => connectContinued k m a
  | .queryCont => queryContinued k m a
  | .fetchCont => rowContinued k m a
  | .freeCont => freeContinued k m a
  | .nextCont => nextContinued k m a

end Answers

/-- `mariadb_on_read`, up to the call of the library. -/
def onRead (m : Machine) : Except Fault Machine :=
  if m.alive then
    match m.state with
    | .connecting => .ok (m.await .connectCont [])
    | .querying => m.currentQuery.map fun _ => m.await .queryCont []
    | .rowFetching => m.currentQuery.map fun _ => m.await .fetchCont []
    | .resultFreeing => m.currentQuery.map fun _ => m.await .freeCont []
    | .nextResulting => m.currentQuery.map fun _ => m.await .nextCont []
    | _ => .ok m
  else .error .useAfterFree

/-- A callback returns to the handler that called it. Only after a refused
connection `mariadb_on_read` does not use the connection again. -/
def returned (m : Machine) : List Frame → Except Fault Machine
  | .readRefusedCb::k => ret k { m with polled := false }
  | f::k =>
    if m.alive then
      match f with
      | .connectedCb => connectEnd k m
      | .refusedCb => ret k m.connFree
      | .readConnectedCb => handleQuery k (ret k) m
      | .resultCb => handleRow k m
      | .rowCb q => (m.lookup q).map fun _ => m.await (.fetchStart q) k
      | .endCb => handleResultFree k m
      | .readRowCb => m.currentQuery.map fun _ => m.await .fetchCont k
      | .readEndCb => handleResultFree (.readRowEnd::k) m
      | _ => .error .notEnabled
    else .error .useAfterFree
  | [] => .error .notEnabled

/-- `mariadb_async_handle_connect`, up to the call of the library. -/
def handleConnect (m : Machine) (cb : Bool) : Machine :=
  let m := { m with connect_cb := m.connect_cb || cb }
  if m.state = .closed then m.await .connectStart m.stack else m

/-- `mariadb_async_handle_add_query`. -/
def handleAddQuery (m : Machine) (query_str result_cb row_cb end_cb : Bool) :
    Except Fault Machine :=
  resume m.stack { m with
    queries := m.queries++[⟨m.next,query_str,false,result_cb,row_cb,end_cb⟩], next := m.next+1 }

/-- `mariadb_async_handle_disconnect`. -/
def handleDisconnect (m : Machine) (cb : Bool) : Except Fault Machine :=
  let m := { m with disconnect_cb := m.disconnect_cb || cb }
  if m.state ≠ .connected then .ok { m with disconnect_on_finish := true } else handleRelease m

/-- `mariadb_query_abort`. -/
def queryAbort (m : Machine) (q : ℕ) : Machine :=
  { m with queries := m.queries.map fun x => if x.id = q then { x with abort := true } else x }

def step (m : Machine) : Input → Except Fault Machine
  | .connectAsync cb =>
    if m.point = none ∧ m.alive = true then .ok (handleConnect m cb) else .error .notEnabled
  | .queryAsync query_str result_cb row_cb end_cb =>
    if m.point = none ∧ m.alive = true then handleAddQuery m query_str result_cb row_cb end_cb
    else .error .notEnabled
  | .disconnectAsync cb =>
    if m.point = none ∧ m.alive = true then handleDisconnect m cb else .error .notEnabled
  | .abortAsync q =>
    if m.point = none ∧ m.alive = true ∧ q ∈ m.queries.map Query.id then .ok (queryAbort m q)
    else .error .notEnabled
  | .read =>
    if m.point = none ∧ m.stack = [] ∧ m.polled = true then onRead m else .error .notEnabled
  | .answer a =>
    match m.point with
    | some p => answered m.stack m a p
    | none => .error .notEnabled
  | .callbackReturns =>
    if m.point = none then returned m m.stack else .error .notEnabled

end Duda.Mariadb
