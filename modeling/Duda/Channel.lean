import Duda.Scheduler

/-!
# Channels between dthreads

A call of `chan_send` on a full channel and a call of `chan_recv` on an empty
one resume the other side and go on when control comes back, whoever gave it
back. The place where a context continues is therefore the user's code or the
second half of such a call. A call is modelled in two phases: the scheduler
transfers control, and the code that control reaches runs on.
-/

set_option autoImplicit false

namespace Duda.Channel
open Duda.Scheduler

/-- `duda_dthread_channel_t`. Its one list node is not a field: it is in the
`chan_list` of the dthread that `receiver` names, or in no list in use. -/
structure Chan where
  size : ℤ
  used : ℤ
  bufs : List ℕ
  sender : ℤ
  receiver : ℤ
  ended : Bool
  done : Bool
  deriving DecidableEq, Repr

inductive Frame where
  | user
  | sendTail (c v : ℕ)
  | recvTail (c : ℕ)
  deriving DecidableEq, Repr

/-- The scheduler, the channels, and for each channel the values that sends
accepted and that receives returned. -/
structure World where
  sched : Sched Frame
  chans : ℕ → Option Chan
  next : ℕ
  accepted : ℕ → List ℕ
  received : ℕ → List ℕ

/-- `badNode` is an operation that leaves a list broken: `mk_list_add` or
`mk_list_del` on the node of `c` when a node it writes to is freed or belongs to
another list. -/
inductive ChanFault where
  | sched (f : Fault)
  | freed (c : ℕ)
  | isDone (c : ℕ)
  | emptyRecv (c : ℕ)
  | badNode (c : ℕ)
  deriving DecidableEq, Repr

inductive Call where
  | create
  | resume (id : ℤ)
  | yield
  | ret
  | chanCreate (size : ℤ)
  | chanFree (c : ℕ)
  | setSender (c : ℕ) (sender : ℤ)
  | setReceiver (c : ℕ) (receiver : ℤ)
  | chanEnd (c : ℕ)
  | send (c v : ℕ)
  | recv (c : ℕ)
  deriving DecidableEq, Repr

/-- Where the executing code goes on: in a frame that the scheduler entered,
in the second half of the same call, or in the user's code. -/
inductive Next where
  | entered (k : Option Frame)
  | own (k : Frame)
  deriving DecidableEq, Repr

def initial : World := ⟨dthreadOpen,fun _ => none,0,fun _ => [],fun _ => []⟩

def getChan (w : World) (c : ℕ) : Except ChanFault Chan :=
  match w.chans c with
  | none => .error (.freed c)
  | some ch => .ok ch

def setChan (w : World) (c : ℕ) (ch : Chan) : World :=
  { w with chans := Function.update w.chans c (some ch) }

/-- The second half of `duda_dthread_channel_send`. -/
def sendTail (w : World) (c v : ℕ) : Except ChanFault World :=
  (getChan w c).map (fun ch => { w with
    chans := Function.update w.chans c (some { ch with
      bufs := ch.bufs++[v]
      used := ch.used+1 })
    accepted := Function.update w.accepted c (w.accepted c++[v]) })

/-- The second half of `duda_dthread_channel_recv`: the first element is taken
without another look at the number of elements. -/
def recvTail (w : World) (c : ℕ) : Except ChanFault World :=
  (getChan w c).bind (fun ch =>
    match ch.bufs with
    | [] => .error (.emptyRecv c)
    | v::bufs => .ok { w with
        chans := Function.update w.chans c (some { ch with
          bufs := bufs
          used := ch.used-1
          done := if ch.used-1 = 0 ∧ ch.ended then true else ch.done })
        received := Function.update w.received c (w.received c++[v]) })

def continueAt (w : World) : Frame → Except ChanFault World
  | .user => .ok w
  | .sendTail c v => sendTail w c v
  | .recvTail c => recvTail w c

def lift (w : World) (r : Except Fault (Sched Frame × Option Frame)) :
    Except ChanFault (World × Next) :=
  match r with
  | .error f => .error (.sched f)
  | .ok (s,k) => .ok ({ w with sched := s },.entered k)

/-- The loop over `chan_list` when a dthread ends. -/
def closeReceivers (w : World) : List ℕ → Except ChanFault World
  | [] => .ok w
  | c::cs => (getChan w c).bind (fun ch =>
      closeReceivers (setChan w c { ch with receiver := -1 }) cs)

def chanList (s : Sched Frame) : List ℕ :=
  match s.cur with
  | .main => []
  | .dthread o =>
    match s.heap o with
    | none => []
    | some d => d.chan_list

/-- `sch->dt[id]` and its list of channels. -/
def listAt (s : Sched Frame) (id : ℤ) : Option (ℕ × List ℕ) :=
  (s.dt id.toNat).bind (fun o => (s.heap o).map (fun d => (o,d.chan_list)))

/-- The nodes of all entries are in the list of `id`: none has been freed, or
linked into another list, since it was added. -/
def intact (w : World) (id : ℤ) (l : List ℕ) : Bool :=
  l.all (fun x => (w.chans x).any (fun ch => ch.receiver == id))

def setList (s : Sched Frame) (o : ℕ) (f : List ℕ → List ℕ) : Except ChanFault (Sched Frame) :=
  match modifyDt s o (fun d => { d with chan_list := f d.chan_list }) with
  | .error f => .error (.sched f)
  | .ok s => .ok s

/-- `mk_list_del` on the node of a channel: the neighbours of the node are in
the list that it was added to, which is gone when its slot has been given to
another dthread. -/
def unlink (w : World) (c : ℕ) (ch : Chan) : Except ChanFault (Sched Frame) :=
  match listAt w.sched ch.receiver with
  | none => .error (.badNode c)
  | some (o,l) =>
    if l.contains c then setList w.sched o (fun l => l.erase c) else .error (.badNode c)

/-- `duda_dthread_add_channel`: `mk_list_add` writes the node of the channel and
the last node of the list. A node that is still in a list is not taken out of
it: that list then runs on into the new one and never comes back to its head. -/
def addChannel (w : World) (id : ℤ) (c : ℕ) (ch : Chan) : Except ChanFault (Sched Frame) :=
  if 0 ≤ id ∧ id < w.sched.cap then
    match listAt w.sched id with
    | none => .error (.sched .null)
    | some (o,l) =>
      if ch.receiver = -1 ∧ intact w id l then setList w.sched o (fun l => l++[c])
      else .error (.badNode c)
  else .error (.sched .assertion)

def transfer (w : World) : Call → Except ChanFault (World × Next)
  | .create =>
    match dthreadCreate w.sched with
    | .error f => .error (.sched f)
    | .ok (s,_) => .ok ({ w with sched := s },.own .user)
  | .resume id => lift w (dthreadResume w.sched id .user)
  | .yield => lift w (dthreadYield w.sched .user)
  | .ret => (closeReceivers w (chanList w.sched)).bind (fun w => lift w (entryReturn w.sched))
  | .chanCreate size => .ok ({ w with
      chans := Function.update w.chans w.next (some ⟨size+1,0,[],-1,-1,false,false⟩)
      next := w.next+1 },.own .user)
  | .chanFree c =>
    (getChan w c).bind (fun ch =>
      (if ch.receiver = -1 then .ok w.sched else unlink w c ch).map (fun s => ({ w with
        chans := Function.update w.chans c none
        sched := s },.own .user)))
  | .setSender c sender =>
    (getChan w c).map (fun ch => (setChan w c { ch with sender := sender },.own .user))
  | .setReceiver c receiver =>
    (getChan w c).bind (fun ch =>
      (addChannel w receiver c ch).map (fun s =>
        ({ setChan w c { ch with receiver := receiver } with sched := s },.own .user)))
  | .chanEnd c => (getChan w c).map (fun ch => (setChan w c { ch with ended := true },.own .user))
  | .send c v =>
    (getChan w c).bind (fun ch =>
      if ch.receiver = -1 then .ok (w,.own .user)
      else if ch.used = ch.size then lift w (dthreadResume w.sched ch.receiver (.sendTail c v))
      else .ok (w,.own (.sendTail c v)))
  | .recv c =>
    (getChan w c).bind (fun ch =>
      if ch.done then .error (.isDone c)
      else if ch.used = 0 then lift w (dthreadResume w.sched ch.sender (.recvTail c))
      else .ok (w,.own (.recvTail c)))

/-- The first phase of a call, up to the point where control has reached the
code that goes on. -/
def control (w : World) (a : Call) : Except ChanFault (World × Next) :=
  match onStack w.sched with
  | .error f => .error (.sched f)
  | .ok _ => transfer w a

def goOn (w : World) : Next → Except ChanFault World
  | .entered none => .ok w
  | .entered (some k) => continueAt w k
  | .own k => continueAt w k

def step (w : World) (a : Call) : Except ChanFault World :=
  (control w a).bind (fun (w,n) => goOn w n)

end Duda.Channel
