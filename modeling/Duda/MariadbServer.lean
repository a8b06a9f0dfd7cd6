import Duda.MariadbQueue
import Mathlib.Computability.StateTransition

/-!
# A connection and its server

The answers of the client library are fixed by what the server returns and by
how often each operation would block. A blocked operation is continued by the
read events of the event loop; an operation that is continued without having
been started gets the answer of the library for commands out of sync. The
callbacks of the user return at once.
-/

set_option autoImplicit false

namespace Duda.MariadbServer
open Duda.Mariadb Duda.MariadbQueue StateTransition

/-- What a statement of a query yields. A result set tells, for each of its
rows, how often the fetch would block, whether the fetch behind the last row
fails, how often it would block, and how often the release would, as long as the
set is not fetched to its end. -/
inductive Statement where
  | error
  | noResult
  | set (rows : List ℕ) (failed : Bool) (last free : ℕ)
  deriving DecidableEq, Repr

/-- The statements of a query, each with the number of times that the call
which reports it would block, and the same number for the end. -/
structure Reply where
  statements : List (ℕ × Statement)
  done : ℕ
  deriving DecidableEq, Repr

/-- How often the release of a result set blocks: behind a deferred row the rest
of the set is left to it. -/
def unread (rows : List ℕ) (free : ℕ) : ℕ := if ∀ b ∈ rows, b = 0 then 0 else free

@[simp] theorem unread_nil (free : ℕ) : unread [] free = 0 := by simp [unread]

@[simp] theorem unread_zero (rows : List ℕ) : unread rows 0 = 0 := by simp [unread]

@[simp] theorem unread_immediate (rows : List ℕ) (free : ℕ) :
    unread (0::rows) free = unread rows free := by
  simp [unread]

@[simp] theorem unread_deferred (l : ℕ) (rows : List ℕ) (free : ℕ) :
    unread ((l+1)::rows) free = free := by
  simp [unread]

inductive Op where
  | connect
  | query
  | fetch
  | free
  | next
  deriving DecidableEq, Repr

/-- The server, what is left of the query in flight, and how often a suspended
operation will block again. -/
structure Server where
  refused : Bool
  connect : ℕ
  replies : ℕ → Reply
  now : Reply
  suspended : Option ℕ

namespace Server

variable (e : Server)

def left (sts : List (ℕ × Statement)) : Server := { e with now := ⟨sts,e.now.done⟩ }

def blocks : Op → ℕ
  | .connect => e.connect
  | .query | .next =>
    match e.now.statements with
    | (b,_)::_ => b
    | [] => e.now.done
  | .fetch =>
    match e.now.statements with
    | (_,.set (b::_) _ _ _)::_ => b
    | (_,.set [] _ last _)::_ => last
    | _ => 0
  | .free =>
    match e.now.statements with
    | (_,.set _ _ _ free)::_ => free
    | _ => 0

/-- The operation is done. The release of a result set that was fetched to its
end does not block. -/
def complete : Op → Answer × Server
  | .connect => (if e.refused then .failed else .done,e)
  | .query =>
    match e.now.statements with
    | (_,.error)::_ => (.failed,e)
    | _ => (.done,e)
  | .fetch =>
    match e.now.statements with
    | (b,.set (_::rows) failed last free)::rest =>
      (.row,e.left ((b,.set rows failed last free)::rest))
    | (b,.set [] failed last _)::rest =>
      (.noRow failed,e.left ((b,.set [] failed last 0)::rest))
    | _ => (.noRow true,e)
  | .free => (.done,e.left e.now.statements.tail)
  | .next =>
    match e.now.statements with
    | [] => (.next .none,e)
    | (_,.error)::rest => (.next .error,e.left rest)
    | _ => (.next .more,e)

/-- `CR_COMMANDS_OUT_OF_SYNC`. -/
def outOfSync : Op → Answer
  | .connect | .query => .failed
  | .fetch => .noRow true
  | .free => .done
  | .next => .next .error

def start (o : Op) : Answer × Server :=
  match e.blocks o with
  | 0 => e.complete o
  | b+1 => (.wouldBlock,{ e with suspended := some b })

def continued (o : Op) : Answer × Server :=
  match e.suspended with
  | none => (outOfSync o,e)
  | some 0 => { e with suspended := none }.complete o
  | some (b+1) => (.wouldBlock,{ e with suspended := some b })

def useResult : Bool :=
  match e.now.statements with
  | (_,.set ..)::_ => true
  | _ => false

def answer : Point → Answer × Server
  | .connectStart => e.start .connect
  | .queryStart q => { e with now := e.replies q }.start .query
  | .useResult _ => (.result e.useResult,e)
  | .fetchStart _ => e.start .fetch
  | .freeStart _ => e.start .free
  | .nextStart _ => e.start .next
  | .connectCont => e.continued .connect
  | .queryCont => e.continued .query
  | .fetchCont => e.continued .fetch
  | .freeCont => e.continued .free
  | .nextCont => e.continued .next

end Server

abbrev Config := Server × Except Fault Machine

/-- The library answers, a callback returns, or the event loop reports that a
suspended operation can go on. -/
def turn : Config → Option Config
  | (_,.error _) => none
  | (e,.ok m) =>
    match m.point,m.stack with
    | some p,_ => some ((e.answer p).2,step m (.answer (e.answer p).1))
    | none,_::_ => some (e,step m .callbackReturns)
    | none,[] => if e.suspended.isSome ∧ m.polled = true then some (e,step m .read) else none

/-- The callbacks that were called, the queries that were freed, and the state
and the queue of the connection. -/
structure Outcome where
  log : List Event
  freed : List ℕ
  alive : Bool
  state : ConnState
  queue : List ℕ
  deriving DecidableEq, Repr

def observe (c : Config) : Option Outcome :=
  match c.2 with
  | .ok m => some ⟨m.log,m.freed,m.alive,m.state,m.queries.map Query.id⟩
  | .error _ => none

/-- How it all ends: undefined if it does not, and `none` after a crash. -/
noncomputable def outcome (c : Config) : Part (Option Outcome) := (eval turn c).map observe

theorem outcome_of_reaches {c d : Config} (h : Reaches turn c d) : outcome c = outcome d := by
  rw [outcome, reaches_eval h, outcome]

theorem outcome_of_halt {c : Config} (h : turn c = none) : outcome c = Part.some (observe c) := by
  have hmem : c ∈ eval turn c := mem_eval.mpr ⟨Relation.ReflTransGen.refl,h⟩
  rw [outcome, Part.eq_some_iff.mpr hmem, Part.map_some]

theorem reaches_head {c d r : Config} (h : turn c = some d) (hr : Reaches turn d r) :
    Reaches turn c r :=
  Relation.ReflTransGen.head h hr

theorem reaches_to {c : Config} {e : Server} {r r' : Except Fault Machine}
    (h : Reaches turn c (e,r)) (hr : r = r') : Reaches turn c (e,r') :=
  hr ▸ h

section Operations

variable (e e' : Server) (m : Machine) (p : Point) (k : List Frame)

theorem turn_await : turn (e,.ok (m.await p k)) =
    some ((e.answer p).2,answered k (m.await p k) (e.answer p).1 p) := rfl

theorem turn_callback (f : Frame) : turn (e,.ok (m.user (f::k))) =
    some (e,returned (m.user (f::k)) (f::k)) := rfl

theorem reaches_start (o : Op) (hp : e.answer p = e'.start o) (hb : e'.blocks o = 0)
    {a : Answer} {d : Server} (hdone : e'.complete o = (a,d)) :
    Reaches turn (e,.ok (m.await p k)) (d,answered k (m.await p k) a p) := by
  apply reaches_head (turn_await e m p k)
  rw [hp, Server.start, hb]
  show Reaches turn ((e'.complete o).2,answered k (m.await p k) (e'.complete o).1 p) _
  rw [hdone]
  exact Relation.ReflTransGen.refl

/-- A suspended operation is continued by read events, up to the one in which it
is done. -/
theorem reaches_last (o : Op) (b : ℕ) (hp : ∀ e : Server, e.answer p = e.continued o)
    (hpoll : m.polled = true) (hread : onRead (m.user []) = .ok (m.await p []))
    (hblock : answered [] (m.await p []) .wouldBlock p = .ok (m.user [])) :
    Reaches turn ({ e with suspended := some b },.ok (m.user []))
      ({ e with suspended := some 0 },.ok (m.await p [])) := by
  have hturn : ∀ b, turn ({ e with suspended := some b },.ok (m.user [])) =
      some ({ e with suspended := some b },.ok (m.await p [])) := by
    intro b
    have hif : turn ({ e with suspended := some b },.ok (m.user [])) =
        if true = true ∧ m.polled = true then
          some ({ e with suspended := some b },if none = none ∧ ([] : List Frame) = [] ∧
            m.polled = true then onRead (m.user []) else .error .notEnabled) else none := rfl
    rw [hif, if_pos ⟨rfl,hpoll⟩, if_pos ⟨rfl,rfl,hpoll⟩, hread]
  induction b with
  | zero => exact reaches_head (hturn 0) .refl
  | succ b ih =>
    apply reaches_head (hturn (b+1))
    apply reaches_head (turn_await _ m p [])
    rw [hp, Server.continued, hblock]
    exact ih

theorem turn_last (o : Op) (hp : ∀ e : Server, e.answer p = e.continued o)
    (hsus : e.suspended = none) {a : Answer} {d : Server} (hdone : e.complete o = (a,d)) :
    turn ({ e with suspended := some 0 },.ok (m.await p [])) =
      some (d,answered [] (m.await p []) a p) := by
  have hnone : { e with suspended := none } = e := by
    cases e
    cases hsus
    rfl
  rw [turn_await, hp, Server.continued]
  show some (({ e with suspended := none }.complete o).2,
    answered [] (m.await p []) ({ e with suspended := none }.complete o).1 p) = _
  rw [hnone, hdone]

/-- An operation that would block, up to the read event in which it is done. -/
theorem reaches_suspended (w : Machine) (o : Op) (b : ℕ) (p' : Point)
    (hs : e.answer p = e'.start o) (hb : e'.blocks o = b+1)
    (hp : ∀ e : Server, e.answer p' = e.continued o) (hpoll : w.polled = true)
    (hwait : answered k (m.await p k) .wouldBlock p = .ok (w.user []))
    (hread : onRead (w.user []) = .ok (w.await p' []))
    (hblock : answered [] (w.await p' []) .wouldBlock p' = .ok (w.user [])) :
    Reaches turn (e,.ok (m.await p k)) ({ e' with suspended := some 0 },.ok (w.await p' [])) := by
  apply reaches_head (turn_await e m p k)
  rw [hs, Server.start, hb, hwait]
  exact reaches_last e' w p' o b hp hpoll hread hblock

end Operations

end Duda.MariadbServer
