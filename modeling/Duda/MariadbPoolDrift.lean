import Duda.MariadbPool

/-!
# Connections that a pool loses

The counters of a pool change when a connection is created, lent, returned and
released by the pool itself. A connection can be freed in other places too, when
connecting fails and in the handlers of error and close events. Those do not
tell the pool: it goes on counting the connection, and keeps it in its list. A
connection that fails later to connect is not freed, and never comes back.
-/

set_option autoImplicit false

namespace Duda.MariadbPoolDrift
open Duda.Runs Duda.MariadbPool

/-- The operations, and the events on a connection. The handlers of the
asynchronous connections free the connection; those of the dthreads wake the
routine that waits for it, which frees the connection. -/
inductive Input where
  | op (o : Op)
  | onError (c : ℕ)
  | onClose (c : ℕ)
  | dthreadEvent (c : ℕ) (waiting : Bool)
  deriving DecidableEq, Repr

def step (w : Worker) : Input → Except Fault Worker
  | .op o => opStep w o
  | .onError c => if c ∈ w.live then .ok (w.freed c) else .error .notEnabled
  | .onClose c => if c ∈ w.live then .ok (w.freed c) else .error .notEnabled
  | .dthreadEvent c waiting =>
    if c ∈ w.live then
      if waiting = true ∧ c ∈ w.borrowed then .ok (w.freed c) else .ok w
    else .error .notEnabled

/-- How many connections of the pool it can still hand out: the idle ones, and
those that it may create. -/
def canHandOut (w : Worker) : ℤ := w.pool.free_size+(w.pool.max_size-w.pool.size)

/-- The size is the number of connections that are not freed, the idle ones are
among them, and the pool can hand out all connections but those that are lent. -/
structure Counted (w : Worker) : Prop where
  size : w.pool.size = w.live.card
  idle_live : ∀ c ∈ w.pool.free_conns, c ∈ w.live
  capacity : canHandOut w = w.pool.max_size-w.borrowed.card

/-- What is expected of a step. -/
def Kept (w : Worker) (a : Input) (r : Except Fault Worker) : Prop :=
  r ≠ .error .useAfterFree ∧ After Counted w a r

section Steps

variable (w : Worker) (c : ℕ)

end Steps

end Duda.MariadbPoolDrift
