import Duda.Runs

/-!
# The cooperative scheduler of dthreads

A dthread lives at an address of its own, so that a context linked to a
released dthread is told from the one that later uses its slot. Whoever
executes is explicit: a saved context names its owner and the place where the
owner continues, of a type left open here. Failed assertions and accesses to
released memory are faults.
-/

set_option autoImplicit false

namespace Duda.Scheduler

inductive Status where
  | dead
  | ready
  | running
  | suspend
  deriving DecidableEq, Repr

inductive Party where
  | main
  | dthread (o : ℕ)
  deriving DecidableEq, Repr

inductive Context (κ : Type) where
  | unset
  | entry (o : ℕ)
  | saved (who : Party) (k : κ)
  deriving DecidableEq, Repr

/-- `duda_dthread_t`; the link of its context is fixed at the first resume. -/
structure Dthread (κ : Type) where
  context : Context κ
  uc_link : Option Party
  status : Status
  parent_id : ℤ
  chan_list : List ℕ
  deriving DecidableEq, Repr

/-- `duda_dthread_scheduler_t` with the heap of dthreads and the party that
executes. -/
structure Sched (κ : Type) where
  main : Context κ
  n_dthread : ℤ
  cap : ℕ
  running_id : ℤ
  dt : ℕ → Option ℕ
  heap : ℕ → Option (Dthread κ)
  next : ℕ
  cur : Party

inductive Fault where
  | assertion
  | null
  | dangling (o : ℕ)
  | noContext
  | notDthread
  deriving DecidableEq, Repr

variable {κ : Type}

def dthreadOpen : Sched κ := ⟨.unset,0,16,-1,fun _ => none,fun _ => none,0,.main⟩

def modifyDt (s : Sched κ) (o : ℕ) (f : Dthread κ → Dthread κ) : Except Fault (Sched κ) :=
  match s.heap o with
  | none => .error (.dangling o)
  | some d => .ok { s with heap := Function.update s.heap o (some (f d)) }

/-- Control continues in the context of the given party. -/
def setcontext (s : Sched κ) (p : Party) : Except Fault (Sched κ × Option κ) :=
  let enter : Context κ → Except Fault (Sched κ × Option κ)
    | .unset => .error .noContext
    | .entry o => .ok ({ s with cur := .dthread o },none)
    | .saved who k => .ok ({ s with cur := who },some k)
  match p with
  | .main => enter s.main
  | .dthread o =>
    match s.heap o with
    | none => .error (.dangling o)
    | some d => enter d.context

def swapcontext (s : Sched κ) (p : Party) (k : κ) (q : Party) :
    Except Fault (Sched κ × Option κ) :=
  match p with
  | .main => setcontext { s with main := .saved s.cur k } q
  | .dthread o =>
    (modifyDt s o (fun d => { d with context := .saved s.cur k })).bind (setcontext · q)

/-- The slot search of `duda_dthread_create`; without a free slot the last one
visited is left as the result. -/
def findSlot (s : Sched κ) : ℕ → ℕ → Except Fault ℕ
  | 0, id => .ok id
  | n+1, _ =>
    let id := (s.cap-(n+1)+s.cap) % s.cap
    match s.dt id with
    | none => .ok id
    | some o =>
      match s.heap o with
      | none => .error (.dangling o)
      | some d => if d.status = .dead then .ok id else findSlot s n id

def chooseSlot (s : Sched κ) : Except Fault (Sched κ × ℕ) :=
  if s.cap ≤ s.n_dthread then
    .ok ({ s with
      dt := fun i => if s.cap ≤ i ∧ i < s.cap*2 then none else s.dt i
      cap := s.cap*2 },s.cap)
  else (findSlot s s.cap 0).map (s,·)

def release (s : Sched κ) (id : ℕ) : Except Fault (Sched κ) :=
  match s.dt id with
  | none => .ok s
  | some o =>
    match s.heap o with
    | none => .error (.dangling o)
    | some d =>
      if d.status = .dead then
        .ok { s with heap := Function.update s.heap o none, dt := Function.update s.dt id none }
      else .ok s

def newDthread : Dthread κ := ⟨.unset,none,.ready,-1,[]⟩

def dthreadCreate (s : Sched κ) : Except Fault (Sched κ × ℕ) :=
  (chooseSlot s).bind (fun (s,id) => (release s id).bind (fun s =>
    .ok ({ s with
      heap := Function.update s.heap s.next (some newDthread)
      next := s.next+1
      dt := Function.update s.dt id (some s.next)
      n_dthread := s.n_dthread+1 },id)))

def runningDt (s : Sched κ) : Option ℕ :=
  if s.running_id = -1 then none else s.dt s.running_id.toNat

def resumeReady (s : Sched κ) (id : ℤ) (o : ℕ) (k : κ) : Except Fault (Sched κ × Option κ) :=
  match runningDt s with
  | some r =>
    (modifyDt s o (fun d => { d with
      uc_link := some (.dthread r), parent_id := s.running_id })).bind (fun s =>
    (modifyDt s r (fun d => { d with status := .suspend })).bind (fun s =>
    (modifyDt { s with running_id := id } o (fun d => { d with
      status := .running, context := .entry o })).bind (fun s =>
    swapcontext s (.dthread r) k (.dthread o))))
  | none =>
    (modifyDt s o (fun d => { d with uc_link := some .main })).bind (fun s =>
    (modifyDt { s with running_id := id } o (fun d => { d with
      status := .running, context := .entry o })).bind (fun s =>
    swapcontext s .main k (.dthread o)))

def resumeSuspended (s : Sched κ) (id : ℤ) (o : ℕ) (k : κ) :
    Except Fault (Sched κ × Option κ) :=
  (modifyDt { s with running_id := id } o (fun d => { d with status := .running })).bind (fun t =>
  match runningDt s with
  | some r =>
    (modifyDt t r (fun d => { d with status := .suspend })).bind (fun t =>
    swapcontext t (.dthread r) k (.dthread o))
  | none => swapcontext t .main k (.dthread o))

/-- The place `k` is where the caller continues. An empty slot lets it
continue at once. -/
def dthreadResume (s : Sched κ) (id : ℤ) (k : κ) : Except Fault (Sched κ × Option κ) :=
  if 0 ≤ id ∧ id < s.cap then
    match s.dt id.toNat with
    | none => .ok (s,some k)
    | some o =>
      match s.heap o with
      | none => .error (.dangling o)
      | some d =>
        match d.status with
        | .ready => resumeReady s id o k
        | .suspend => resumeSuspended s id o k
        | .dead => .error .assertion
        | .running => .error .assertion
  else .error .assertion

def dthreadYield (s : Sched κ) (k : κ) : Except Fault (Sched κ × Option κ) :=
  if 0 ≤ s.running_id then
    match s.dt s.running_id.toNat with
    | none => .error .null
    | some o =>
      (modifyDt { s with running_id := -1 } o (fun d => { d with status := .suspend })).bind
        (fun s => swapcontext s (.dthread o) k .main)
  else .error .assertion

/-- The end of `_duda_dthread_entry_point`, when the function of the executing
dthread has returned. -/
def entryReturn (s : Sched κ) : Except Fault (Sched κ × Option κ) :=
  match s.cur with
  | .main => .error .notDthread
  | .dthread o =>
    match s.heap o with
    | none => .error (.dangling o)
    | some d =>
      match d.uc_link with
      | none => .error .noContext
      | some link =>
        setcontext { s with
          heap := Function.update s.heap o (some { d with status := .dead })
          n_dthread := s.n_dthread-1
          running_id := d.parent_id } link

inductive Action where
  | create
  | resume (id : ℤ)
  | yield
  | ret
  deriving DecidableEq, Repr

/-- Code that runs on the stack of a released dthread is a fault. -/
def onStack (s : Sched κ) : Except Fault Unit :=
  match s.cur with
  | .main => .ok ()
  | .dthread o =>
    match s.heap o with
    | none => .error (.dangling o)
    | some _ => .ok ()

def step (s : Sched Unit) (a : Action) : Except Fault (Sched Unit) :=
  (onStack s).bind (fun _ =>
    match a with
    | .create => (dthreadCreate s).map Prod.fst
    | .resume id => (dthreadResume s id ()).map Prod.fst
    | .yield => (dthreadYield s ()).map Prod.fst
    | .ret => (entryReturn s).map Prod.fst)

end Duda.Scheduler
