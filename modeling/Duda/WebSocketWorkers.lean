import Duda.Runs
import Duda.Tickets
import Duda.WebSocketBroadcast
import Mathlib.Data.Finset.Card

/-!
# The broadcast threads and their pipes

`ws_broadcaster` registers one pipe for each server worker. Every thread that
runs the initialisation of the package, a server worker or a user worker,
takes the next number from a shared counter and starts a broadcast thread,
which looks up the pipe at this place of the list. The threads run in any
order; the server workers are those with the numbers below `workers`.
-/

set_option autoImplicit false

namespace Duda.WebSocketWorkers
open Duda.Runs Duda.WebSocketBroadcast

/-- `struct ws_broadcast_t`, with the frames that were written to the pipe. -/
structure Pipe where
  wid : ℕ
  content : List (Message × BroadcastFrame)

/-- The package: the counter with its mutex and the places of the threads in
`cb_request_list_init`, the pipes that the broadcast threads have looked up,
and `ws_broadcast_channels`. -/
structure Package where
  tickets : Tickets.State ℕ
  bound : ℕ → Option ℕ
  pipes : List Pipe

/-- The loop of `ws_broadcaster`. -/
def registerPipes (i : ℕ) : ℕ → List Pipe
  | 0 => []
  | n+1 => ⟨i,[]⟩::registerPipes (i+1) n

def wsBroadcaster (workers : ℕ) : Package :=
  ⟨Tickets.initial,fun _ => none,registerPipes 0 workers⟩

inductive Fault where
  | notEnabled
  | nullPipe
  deriving DecidableEq, Repr

inductive Input where
  | init (a : Tickets.Action ℕ)
  | bind (i : ℕ)
  | broadcast (m : Message) (brf : BroadcastFrame)

/-- A statement of `cb_request_list_init`, in one of the threads. -/
def cbRequestListInit (threads : ℕ) (s : Package) (a : Tickets.Action ℕ) :
    Except Fault Package :=
  if Tickets.actor a < threads then
    match Tickets.step s.tickets a with
    | some tickets => .ok { s with tickets := tickets }
    | none => .error .notEnabled
  else .error .notEnabled

/-- The loop of `ws_broadcast_worker` over the pipes. -/
def findPipe (channel : ℕ) : ℕ → List Pipe → Option Pipe
  | _, [] => none
  | i, p::ps => if i = channel then some p else findPipe channel (i+1) ps

/-- The start of `ws_broadcast_worker`; it reads from the pipe that it has found
without a test for NULL. -/
def wsBroadcastWorker (s : Package) (i : ℕ) : Except Fault Package :=
  match s.tickets.phase i, s.bound i with
  | .left channel, none =>
    match findPipe channel 0 s.pipes with
    | some br => .ok { s with bound := Function.update s.bound i (some br.wid) }
    | none => .error .nullPipe
  | _, _ => .error .notEnabled

/-- The loop of `ws_broadcast` over the pipes. -/
def wsBroadcast (m : Message) (brf : BroadcastFrame) : List Pipe → List Pipe
  | [] => []
  | p::ps => { p with content := p.content++[(m,brf)] }::wsBroadcast m brf ps

def step (threads : ℕ) (s : Package) : Input → Except Fault Package
  | .init a => cbRequestListInit threads s a
  | .bind i => wsBroadcastWorker s i
  | .broadcast m brf => .ok { s with pipes := wsBroadcast m brf s.pipes }

def entry : Input → Option ℕ
  | .init a => Tickets.entry a
  | .bind _ => none
  | .broadcast _ _ => none

/-- The threads in the order in which they enter the critical section. -/
def entered (inputs : List Input) : List ℕ := inputs.filterMap entry

/-- Each server worker whose broadcast thread has looked up its pipe has exactly
one in the list that `ws_broadcast` writes to, and no two have the same. -/
structure Served (workers : ℕ) (inputs : List Input) (t : Package) : Prop where
  pipe : ∀ i < workers, .bind i ∈ inputs → ∃! p, p ∈ t.pipes ∧ t.bound i = some p.wid
  alone : ∀ i < workers, ∀ j < workers, ∀ w, t.bound i = some w → t.bound j = some w → i = j

theorem registered_wids (i n : ℕ) : (registerPipes i n).map Pipe.wid = List.range' i n := by
  induction n generalizing i with
  | zero => rfl
  | succ n ih => rw [registerPipes, List.map_cons, ih, List.range'_succ]

theorem broadcast_wids (m : Message) (brf : BroadcastFrame) (ps : List Pipe) :
    (wsBroadcast m brf ps).map Pipe.wid = ps.map Pipe.wid := by
  induction ps with
  | nil => rfl
  | cons p ps ih => rw [wsBroadcast, List.map_cons, List.map_cons, ih]

theorem findPipe_place (channel i : ℕ) (ps : List Pipe) (h : i ≤ channel) :
    findPipe channel i ps = ps[channel-i]? := by
  induction ps generalizing i with
  | nil => rfl
  | cons p ps ih =>
    rw [findPipe]
    split
    · next he => simp [he]
    · next hne =>
      have hlt : i < channel := by omega
      rw [ih (i+1) (by omega), show channel-i = channel-(i+1)+1 by omega, List.getElem?_cons_succ]

/-- What holds after a history of inputs. -/
structure Inv (workers : ℕ) (history : List Input) (s : Package) : Prop where
  ordered : Tickets.Ordered (entered history) s.tickets
  bound : ∀ i, .bind i ∈ history ↔ ∃ w, s.bound i = some w
  place : ∀ i w, s.bound i = some w → Tickets.ticket (s.tickets.phase i) = some w ∧ w < workers
  pipes : s.pipes.map Pipe.wid = List.range workers

theorem initial_inv (workers : ℕ) : Inv workers [] (wsBroadcaster workers) where
  ordered := Tickets.initial_ordered
  bound i := by simp [wsBroadcaster]
  place i w h := by cases h
  pipes := by rw [wsBroadcaster, registered_wids, List.range_eq_range']

section OneInput

variable {workers threads : ℕ} {history : List Input} {s t : Package}

theorem entered_snoc (a : Input) : entered (history++[a]) = entered history++(entry a).toList := by
  cases h : entry a <;> simp [entered, h]

theorem found_wid (hi : Inv workers history s) {channel : ℕ} {p : Pipe}
    (h : findPipe channel 0 s.pipes = some p) : p.wid = channel ∧ channel < workers := by
  rw [findPipe_place channel 0 s.pipes (Nat.zero_le channel), Nat.sub_zero] at h
  have hwid : (s.pipes.map Pipe.wid)[channel]? = some p.wid := by rw [List.getElem?_map, h]; rfl
  rw [hi.pipes, List.getElem?_eq_some_iff] at hwid
  obtain ⟨hlt,he⟩ := hwid
  rw [List.getElem_range] at he
  exact ⟨he.symm,by simpa using hlt⟩

theorem not_found (hi : Inv workers history s) {channel : ℕ}
    (h : findPipe channel 0 s.pipes = none) : workers ≤ channel := by
  rw [findPipe_place channel 0 s.pipes (Nat.zero_le channel), Nat.sub_zero,
    List.getElem?_eq_none_iff] at h
  have hlen := congrArg List.length hi.pipes
  simp only [List.length_map, List.length_range] at hlen
  omega

theorem init_inv (hi : Inv workers history s) {a : Tickets.Action ℕ}
    (hs : cbRequestListInit threads s a = .ok t) : Inv workers (history++[.init a]) t := by
  simp only [cbRequestListInit] at hs
  split at hs
  · split at hs
    · next tickets hstep =>
      cases hs
      refine ⟨?_,?_,?_,hi.pipes⟩
      · rw [entered_snoc]
        exact Tickets.step_ordered hi.ordered hstep
      · intro i
        simpa using hi.bound i
      · intro i w hw
        obtain ⟨hticket,hlt⟩ := hi.place i w hw
        exact ⟨Tickets.step_ticket hstep hticket,hlt⟩
    · cases hs
  · cases hs

theorem bind_inv (hi : Inv workers history s) {i : ℕ} (hs : wsBroadcastWorker s i = .ok t) :
    Inv workers (history++[.bind i]) t := by
  simp only [wsBroadcastWorker] at hs
  split at hs
  · next channel hphase _ =>
    split at hs
    · next br hbr =>
      cases hs
      obtain ⟨hwid,hlt⟩ := found_wid hi hbr
      refine ⟨?_,?_,?_,hi.pipes⟩
      · rw [entered_snoc]
        simpa [entry] using hi.ordered
      · intro j
        rcases eq_or_ne j i with rfl | hne
        · simp
        · simpa [hne] using hi.bound j
      · intro j w hw
        rcases eq_or_ne j i with rfl | hne
        · simp only [Function.update_self, hwid, Option.some.injEq] at hw
          subst hw
          exact ⟨by rw [hphase]; rfl,hlt⟩
        · simp only [Function.update_of_ne hne] at hw
          exact hi.place j w hw
    · cases hs
  · cases hs

theorem broadcast_inv (hi : Inv workers history s) (m : Message) (brf : BroadcastFrame) :
    Inv workers (history++[.broadcast m brf]) { s with pipes := wsBroadcast m brf s.pipes } where
  ordered := by
    rw [entered_snoc]
    simpa [entry] using hi.ordered
  bound i := by simpa using hi.bound i
  place := hi.place
  pipes := (broadcast_wids m brf s.pipes).trans hi.pipes

theorem step_inv (hi : Inv workers history s) {a : Input} (hs : step threads s a = .ok t) :
    Inv workers (history++[a]) t := by
  cases a with
  | init a => exact init_inv hi hs
  | bind i => exact bind_inv hi hs
  | broadcast m brf =>
    cases hs
    exact broadcast_inv hi m brf

/-- The process dies only in a broadcast thread that has come too late. -/
theorem step_null (hi : Inv workers history s) {a : Input}
    (hs : step threads s a = .error .nullPipe) :
    ∃ i, a = .bind i ∧ ∀ more, workers ≤ (entered history++more).idxOf i := by
  cases a with
  | init a =>
    simp only [step, cbRequestListInit] at hs
    split at hs
    · split at hs <;> cases hs
    · cases hs
  | bind i =>
    refine ⟨i,rfl,fun more => ?_⟩
    simp only [step, wsBroadcastWorker] at hs
    split at hs
    · next channel hphase _ =>
      split at hs
      · cases hs
      · next hnone =>
        rw [Tickets.ticket_place hi.ordered (by rw [hphase]; rfl)]
        exact not_found hi hnone
    · cases hs
  | broadcast m brf => cases hs

theorem served_of_inv (hi : Inv workers history s) : Served workers history s := by
  constructor
  · intro i _ hbind
    obtain ⟨w,hw⟩ := (hi.bound i).mp hbind
    have hmem : w ∈ s.pipes.map Pipe.wid := by
      rw [hi.pipes, List.mem_range]
      exact (hi.place i w hw).2
    obtain ⟨p,hp,rfl⟩ := List.mem_map.mp hmem
    refine ⟨p,⟨hp,hw⟩,?_⟩
    rintro q ⟨hq,hbound⟩
    have hnodup : (s.pipes.map Pipe.wid).Nodup := hi.pipes ▸ List.nodup_range
    exact List.inj_on_of_nodup_map hnodup hq hp (Option.some.inj (hbound.symm.trans hw))
  · intro i _ j _ w hi' hj
    exact Tickets.ticket_unique hi.ordered (hi.place i w hi').1 (hi.place j w hj).1

end OneInput

section Runs

variable (workers users : ℕ) (inputs : List Input)

theorem run_inv (t : Package)
    (h : run (step (workers+users)) inputs (wsBroadcaster workers) = .ok t) :
    Inv workers inputs t :=
  run_history (I := Inv workers) (fun _ _ _ _ hi hs => step_inv hi hs) inputs [] _ t
    (initial_inv workers) h

/-- For any number of server workers and of user workers, and any interleaving
of the threads: each server worker has a pipe of its own exactly when every
thread whose broadcast thread looks for a pipe is among the first `workers`
threads that have entered. -/
theorem pipes_served_iff
    (h : run (step (workers+users)) inputs (wsBroadcaster workers) ≠ .error .notEnabled) :
    (∃ t, run (step (workers+users)) inputs (wsBroadcaster workers) = .ok t ∧
      Served workers inputs t) ↔
    ∀ i, .bind i ∈ inputs → (entered inputs).idxOf i < workers := by
  constructor
  · rintro ⟨t,ht,_⟩ i hbind
    have hi := run_inv workers users inputs t ht
    obtain ⟨w,hw⟩ := (hi.bound i).mp hbind
    obtain ⟨hticket,hlt⟩ := hi.place i w hw
    have hplace := Tickets.ticket_place hi.ordered hticket []
    rw [List.append_nil] at hplace
    rwa [hplace]
  · intro hearly
    cases hrun : run (step (workers+users)) inputs (wsBroadcaster workers) with
    | ok t => exact ⟨t,rfl,served_of_inv (run_inv workers users inputs t hrun)⟩
    | error e =>
      cases e with
      | notEnabled => exact absurd hrun h
      | nullPipe =>
        obtain ⟨before,a,after,s,rfl,hs,hstop⟩ := run_error_inv hrun
        obtain ⟨i,rfl,hlate⟩ := step_null (run_inv workers users before s hs) hstop
        have hlt := hearly i (by simp)
        have hsplit : entered (before++.bind i::after) = entered before++entered after := by
          rw [entered, List.filterMap_append, List.filterMap_cons_none rfl, entered, entered]
        rw [hsplit] at hlt
        exact absurd (hlate (entered after)) (by omega)

/-- Once all server workers have looked for their pipes, none is left for the
broadcast thread of a user worker: the process has died. -/
theorem user_worker_faults (u : ℕ) (hu : workers ≤ u)
    (h : run (step (workers+users)) inputs (wsBroadcaster workers) ≠ .error .notEnabled)
    (hall : ∀ i < workers, .bind i ∈ inputs) (hbind : .bind u ∈ inputs) :
    run (step (workers+users)) inputs (wsBroadcaster workers) = .error .nullPipe := by
  cases hrun : run (step (workers+users)) inputs (wsBroadcaster workers) with
  | error e =>
    cases e with
    | notEnabled => exact absurd hrun h
    | nullPipe => rfl
  | ok t =>
    have hi := run_inv workers users inputs t hrun
    -- the places of these threads are different numbers below `workers`
    have hplace : ∀ i ∈ insert u (Finset.range workers), ∃ w ∈ Finset.range workers,
        t.bound i = some w := by
      intro i hmem
      have hin : .bind i ∈ inputs := by
        rcases Finset.mem_insert.mp hmem with rfl | hlt
        · exact hbind
        · exact hall i (Finset.mem_range.mp hlt)
      obtain ⟨w,hw⟩ := (hi.bound i).mp hin
      exact ⟨w,Finset.mem_range.mpr (hi.place i w hw).2,hw⟩
    choose! place hrange hbound using hplace
    have hcard : (Finset.range workers).card < (insert u (Finset.range workers)).card := by
      rw [Finset.card_insert_of_notMem (by simpa using hu)]
      exact Nat.lt_succ_self _
    obtain ⟨i,hmi,j,hmj,hne,he⟩ :=
      Finset.exists_ne_map_eq_of_card_lt_of_maps_to hcard (f := place) (fun i hmi => hrange i hmi)
    have hj := hbound j hmj
    rw [← he] at hj
    exact absurd (Tickets.ticket_unique hi.ordered (hi.place i _ (hbound i hmi)).1
      (hi.place j _ hj).1) hne

end Runs

/-- The statements of `cb_request_list_init` in one thread. -/
def initialises (i : ℕ) : List Input :=
  [.init (.lock i),.init (.take i),.init (.count i),.init (.unlock i)]

def twoServers : List Input := initialises 1++initialises 0++[.bind 0,.bind 1]

theorem pipes_served_two :
    run (step (2+1)) twoServers (wsBroadcaster 2) ≠ .error .notEnabled ∧
      ((∃ t, run (step (2+1)) twoServers (wsBroadcaster 2) = .ok t ∧ Served 2 twoServers t) ↔
        ∀ i, .bind i ∈ twoServers → (entered twoServers).idxOf i < 2) := by
  have h : run (step (2+1)) twoServers (wsBroadcaster 2) ≠ .error .notEnabled := by
    intro h
    cases h
  exact ⟨h,pipes_served_iff 2 1 twoServers h⟩

/-- A user worker, thread 1, enters before the only server worker, thread 0,
whose broadcast thread then finds no pipe. -/
theorem user_worker_first :
    run (step (1+1)) (initialises 1++initialises 0++[.bind 0]) (wsBroadcaster 1) =
      .error .nullPipe :=
  rfl

section Abstract

variable (workers : ℕ) (clients : ℕ → List Client)

/-- The server workers as the broadcast sees them, each with its connections and
the pipe that its broadcast thread reads. -/
def workersOf (t : Package) : List Worker :=
  (List.range workers).filterMap (fun i =>
    (t.pipes.find? (fun p => t.bound i = some p.wid)).map (fun p => ⟨clients i,p.content⟩))

theorem broadcast_find (m : Message) (brf : BroadcastFrame) (b : Option ℕ) (ps : List Pipe) :
    (wsBroadcast m brf ps).find? (fun p => b = some p.wid) =
      (ps.find? (fun p => b = some p.wid)).map
        (fun p => { p with content := p.content++[(m,brf)] }) := by
  induction ps with
  | nil => rfl
  | cons p ps ih =>
    rw [wsBroadcast, List.find?_cons, List.find?_cons, ih]
    split <;> simp_all

theorem writePipes_map (m : Message) (brf : BroadcastFrame) (ws : List Worker) :
    writePipes m brf ws = ws.map (fun w => { w with pipe := w.pipe++[(m,brf)] }) := by
  induction ws with
  | nil => rfl
  | cons w ws ih => rw [writePipes, ih, List.map_cons]

/-- Writing to all pipes is writing to the pipe of each worker. -/
theorem broadcast_refines (m : Message) (brf : BroadcastFrame) (t : Package) :
    workersOf workers clients { t with pipes := wsBroadcast m brf t.pipes } =
      writePipes m brf (workersOf workers clients t) := by
  rw [writePipes_map, workersOf, workersOf, List.map_filterMap]
  simp only [broadcast_find, Option.map_map]
  rfl

/-- When all server workers are served, the broadcast sees each of them. -/
theorem served_workers (inputs : List Input) (t : Package) (h : Served workers inputs t)
    (hall : ∀ i < workers, .bind i ∈ inputs) :
    (workersOf workers clients t).map Worker.clients = (List.range workers).map clients := by
  rw [workersOf, List.map_filterMap, ← List.filterMap_eq_map]
  apply List.filterMap_congr
  intro i hi
  obtain ⟨p,⟨hp,hbound⟩,_⟩ := h.pipe i (List.mem_range.mp hi) (hall i (List.mem_range.mp hi))
  have hfind : (t.pipes.find? (fun p => t.bound i = some p.wid)).isSome := by
    rw [List.find?_isSome]
    exact ⟨p,hp,by simpa using hbound⟩
  obtain ⟨q,hq⟩ := Option.isSome_iff_exists.mp hfind
  rw [hq]
  rfl

end Abstract

end Duda.WebSocketWorkers
