import Duda.Mariadb
import Duda.MariadbPool

/-!
# From a descriptor to its connection

All connections of a worker, of both front ends, are in one list, and every
event handler first looks for the connection with the descriptor of the event.
The handlers of the asynchronous connections then work on that connection; those
of the dthreads wake the dthread that uses it. The work of `mariadb_on_read`
goes on with every answer of the client library, and may end with the return of
the connection to its pool, which then may close others.
-/

set_option autoImplicit false

namespace Duda.MariadbDispatch
open Duda.Runs
open Duda.Mariadb hiding Input step onRead
open Duda.MariadbPool (Pool)

/-- `mariadb_conn_t`: the descriptor, the pool it belongs to, `CONN_STATE_ERROR`,
the number of times that its dthread was resumed, and the rest as for an
asynchronous connection. -/
structure Conn where
  fd : ℤ
  is_pooled : Bool
  pool : ℕ
  error : Bool
  resumed : ℕ
  machine : Machine
  deriving DecidableEq, Repr

inductive Handler where
  | onRead
  | onWrite
  | onError
  | onClose
  | dthreadOnRead
  | dthreadOnWrite
  | dthreadOnError
  | dthreadOnClose
  | dthreadOnTimeout
  deriving DecidableEq, Repr

/-- `DUDA_EVENT_OWNED` and `DUDA_EVENT_CLOSE`. -/
inductive Ret where
  | owned
  | close
  deriving DecidableEq, Repr

/-- A call of `mariadb_on_read` that has not returned: its connection and its
descriptor, whether the connection was refused, and whether the connection is
on its way back to the pool, sent by the handler (`true`) or by the user. -/
structure Active where
  conn : ℕ
  fd : ℤ
  refused : Bool
  returning : Option Bool
  deriving DecidableEq, Repr

structure Worker where
  conn : ℕ → Conn
  conn_list : List ℕ
  pool : ℕ → Pool
  active : Option Active
  ret : Option Ret

inductive Input where
  | event (h : Handler) (fd : ℤ)
  | own (a : Mariadb.Input)
  | reclaim
  deriving DecidableEq, Repr

/-- `mariadb_get_conn`: `conn` is left at the last entry of the list when no
entry has the descriptor. -/
def getConn (conn : ℕ → Conn) (fd : ℤ) : Option ℕ → List ℕ → Option ℕ
  | found, [] => found
  | _, c::cs => if (conn c).fd = fd then some c else getConn conn fd (some c) cs

namespace Worker

variable (w : Worker)

def put (c : ℕ) (x : Conn) : Worker := { w with conn := Function.update w.conn c x }

def unlink (c : ℕ) : Worker := { w with conn_list := w.conn_list.filter (· ≠ c) }

def returns (r : Ret) : Worker := { w with active := none, ret := some r }

/-- `mariadb_async_handle_release` once `is_pooled` is cleared. -/
def closeConn (c : ℕ) : Except Fault Worker :=
  (handleRelease (w.conn c).machine).map fun m =>
    (w.put c { w.conn c with is_pooled := false, machine := m }).unlink c

end Worker

def closeAll : List ℕ → Worker → Except Fault Worker
  | [], w => .ok w
  | c::cs, w => (w.closeConn c).bind (closeAll cs)

/-- `mariadb_on_close` frees the connection in any state. -/
def freeConn (w : Worker) (c : ℕ) : Worker :=
  let m := (w.conn c).machine
  let notified := if m.disconnect_cb then m.logged .disconnect else m
  let freed := { notified with polled := false, linked := false }.connFree
  (w.put c { w.conn c with machine := freed }).unlink c

/-- `dthread->resume`, after the state was set to `CONN_STATE_ERROR` or not. -/
def resume (w : Worker) (c : ℕ) (error : Bool) : Worker :=
  w.put c { w.conn c with error := (w.conn c).error || error, resumed := (w.conn c).resumed+1 }

/-- `mariadb_on_read`, up to the call of the library. -/
def onRead (w : Worker) (c : ℕ) (fd : ℤ) : Except Fault Worker :=
  if (w.conn c).error then .ok (w.returns .owned)
  else (Mariadb.onRead (w.conn c).machine).map fun m =>
    if m.point = none then w.returns .owned
    else { w.put c { w.conn c with machine := m } with
      active := some ⟨c,fd,false,none⟩, ret := none }

/-- The handlers, once a connection was found. -/
def serve (w : Worker) (c : ℕ) (fd : ℤ) : Handler → Except Fault Worker
  | .onRead => onRead w c fd
  | .onWrite => .ok (w.returns .owned)
  | .onError => (w.closeConn c).map (·.returns .owned)
  | .onClose => .ok ((freeConn w c).returns .close)
  | .dthreadOnRead | .dthreadOnWrite => .ok ((resume w c false).returns .owned)
  | .dthreadOnError | .dthreadOnTimeout => .ok ((resume w c true).returns .owned)
  | .dthreadOnClose => .ok ((resume w c true).returns .close)

def event (w : Worker) (h : Handler) (fd : ℤ) : Except Fault Worker :=
  match getConn w.conn fd none w.conn_list with
  | none => .ok (w.returns .close)
  | some c => if (w.conn c).machine.alive then serve w c fd h else .error .useAfterFree

/-- The steps of the handler itself; the others are calls of the user from the
callbacks. -/
def ofHandler : Mariadb.Input → Bool
  | .answer _ | .callbackReturns => true
  | _ => false

/-- A step of `mariadb_on_read` left the connection as `m`: it may have reached
`mariadb_async_handle_release`, and it may have returned to the event loop. -/
def settle (w : Worker) (act : Active) (a : Mariadb.Input) (m : Machine) : Worker :=
  let x := w.conn act.conn
  let refused := act.refused || (x.machine.point = some .connectCont ∧ a = .answer .failed)
  let next := w.put act.conn { x with machine := m }
  if x.machine.linked = true ∧ m.alive = false ∧ x.is_pooled = true then
    { next with active := some { act with refused := refused, returning := some (ofHandler a) } }
  else
    let next := if m.alive then next else next.unlink act.conn
    if m.point = none ∧ m.stack = [] then next.returns (if refused then .close else .owned)
    else { next with active := some { act with refused := refused } }

/-- The connection as `mariadb_pool_reclaim_conn` leaves it: it is not freed. -/
def reclaimed (m : Machine) : Machine :=
  { m with alive := true, linked := true, polled := true, state := .connected,
           connect_cb := false, disconnect_cb := false, disconnect_on_finish := false }

/-- `mariadb_pool_reclaim_conn`; then the handler goes on or returns. -/
def reclaim (w : Worker) (act : Active) : Except Fault Worker :=
  let x := w.conn act.conn
  match MariadbPool.poolReclaimConn (w.pool x.pool) act.conn with
  | .error _ => .error .wildList
  | .ok (released,p) =>
    let next := { w.put act.conn { x with machine := reclaimed x.machine } with
      pool := Function.update w.pool x.pool p, active := some { act with returning := none } }
    (closeAll released next).map fun next =>
      if x.machine.point = none ∧ x.machine.stack = [] then
        next.returns (if act.refused then .close else .owned)
      else next

def step (w : Worker) : Input → Except Fault Worker
  | .event h fd => if w.active = none then event w h fd else .error .notEnabled
  | .own a =>
    match w.active with
    | none => .error .notEnabled
    | some act =>
      if act.returning = none ∧ a ≠ .read then
        (Mariadb.step (w.conn act.conn).machine a).map (settle w act a)
      else .error .notEnabled
  | .reclaim =>
    match w.active with
    | none => .error .notEnabled
    | some act => if act.returning = none then .error .notEnabled else reclaim w act

/-- A connection with another descriptor is as before, and in the list as
before. -/
def Frame (w : Worker) (fd : ℤ) (t : Worker) : Prop :=
  ∀ c, (w.conn c).fd ≠ fd → t.conn c = w.conn c ∧ (c ∈ t.conn_list ↔ c ∈ w.conn_list)

section Search

variable (conn : ℕ → Conn) (fd : ℤ)

end Search

/-- Of the connections only those of `cs` are changed, and descriptors stay. -/
structure Touches (cs : List ℕ) (w t : Worker) : Prop where
  same : ∀ d ∉ cs, t.conn d = w.conn d ∧ (d ∈ t.conn_list ↔ d ∈ w.conn_list)
  fds : ∀ d, (t.conn d).fd = (w.conn d).fd

variable (cs : List ℕ) (w t : Worker) (h : Handler) (c : ℕ) (fd : ℤ)

/-- What a handler leaves behind: only its connection is changed, and if the
handler goes on, it goes on with this connection. -/
structure Served (w : Worker) (c : ℕ) (fd : ℤ) (t : Worker) : Prop where
  touches : Touches [c] w t
  active : ∀ act, t.active = some act → act.conn = c ∧ act.fd = fd

end Duda.MariadbDispatch
