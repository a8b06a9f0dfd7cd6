import Duda.Runs
import Duda.WebSocketWrite
import Mathlib.Data.List.Basic

/-!
# Broadcasting to the connections of all workers

A broadcast copies the message into a frame of fixed size and writes the frame
to one pipe for each worker. The broadcast thread of a worker reads the frames
from its pipe, and writes each message to those connections of the worker that
pass two tests: on the channel, and on the origin of the message.
-/

set_option autoImplicit false

namespace Duda.WebSocketBroadcast
open Duda.Runs Duda.CheckedMemory Duda.WebSocketWrite
open Duda.WebSocketRead (WsRequest openRequest)

/-- `BROADCAST_BUFFER`. -/
def broadcastBuffer : ℕ := 1024

/-- The arguments of `ws_broadcast`; the origin `wr` is known by its socket.
`ws_broadcast_all` has none. -/
structure Message where
  origin : Option ℤ
  data : List UInt8
  type : UInt32
  channel : ℤ
  deriving DecidableEq, Repr

/-- `struct ws_broadcast_frame`. -/
structure BroadcastFrame where
  source : ℤ
  len : ℕ
  type : UInt32
  channel : ℤ
  data : Vector UInt8 broadcastBuffer

/-- The frame as `ws_broadcast` composes it. -/
def composeFrame (m : Message) : Except Access BroadcastFrame :=
  (fill m.data 0 m.data.length 0 (Vector.replicate broadcastBuffer 0)).map
    (fun data => ⟨m.origin.getD 0,m.data.length,m.type,m.channel,data⟩)

/-- A registered connection with the channel of its handshake. -/
structure Subscriber extends WsRequest where
  channel : ℤ

/-- The tests of `ws_broadcast_worker`. -/
def Passes (source channel : ℤ) (wr : Subscriber) : Prop :=
  ¬(0 ≤ channel ∧ wr.channel ≠ channel) ∧ source ≠ wr.socket

instance (source channel : ℤ) (wr : Subscriber) : Decidable (Passes source channel wr) :=
  inferInstanceAs (Decidable (_ ∧ _))

/-- A connection, with the messages that were sent to it and what `ws_write`
gave to its socket for each. -/
structure Client where
  wr : Subscriber
  written : List (Message × Sent)

/-- The connections of a worker and its pipe; a frame in the pipe is accompanied
by its message. -/
structure Worker where
  clients : List Client
  pipe : List (Message × BroadcastFrame)

inductive Fault where
  | notEnabled
  | outside (a : Access)
  deriving DecidableEq, Repr

inductive Input where
  | broadcast (m : Message)
  | work (i : ℕ)
  deriving DecidableEq, Repr

section Program

variable (sent : Subscriber → ℤ)

/-- The call of `ws_write` in `ws_broadcast_worker`; `sent` is what
`socket_send` returns. -/
def writeTo (brf : BroadcastFrame) (wr : Subscriber) : Except Access Sent :=
  wsWrite (sent wr) wr.toWsRequest brf.type (brf.data.toList.take brf.len)

/-- The loop of `ws_broadcast_worker` over the connections. -/
def deliver (m : Message) (brf : BroadcastFrame) : List Client → Except Access (List Client)
  | [] => .ok []
  | c::cs =>
    if Passes brf.source brf.channel c.wr then
      (writeTo sent brf c.wr).bind fun s =>
        (deliver m brf cs).map ({ c with written := c.written++[(m,s)] }::·)
    else (deliver m brf cs).map (c::·)

/-- The loop of `ws_broadcast` over the pipes. -/
def writePipes (m : Message) (brf : BroadcastFrame) : List Worker → List Worker
  | [] => []
  | w::ws => { w with pipe := w.pipe++[(m,brf)] }::writePipes m brf ws

/-- One turn of `ws_broadcast_worker`. -/
def readPipe (w : Worker) : Except Fault Worker :=
  match w.pipe with
  | [] => .error .notEnabled
  | (m,brf)::rest =>
    match deliver sent m brf w.clients with
    | .ok clients => .ok ⟨clients,rest⟩
    | .error a => .error (.outside a)

/-- The worker with the number `i` makes a turn. -/
def workOf : ℕ → List Worker → Except Fault (List Worker)
  | _, [] => .error .notEnabled
  | 0, w::ws => (readPipe sent w).map (·::ws)
  | i+1, w::ws => (workOf i ws).map (w::·)

def step (ws : List Worker) : Input → Except Fault (List Worker)
  | .broadcast m =>
    match composeFrame m with
    | .ok brf => .ok (writePipes m brf ws)
    | .error a => .error (.outside a)
  | .work i => workOf sent i ws

end Program

def start (dist : List (List Subscriber)) : List Worker :=
  dist.map (fun wrs => ⟨wrs.map (⟨·,[]⟩),[]⟩)

def messages : List Input → List Message
  | [] => []
  | .broadcast m::inputs => m::messages inputs
  | .work _::inputs => messages inputs

/-- A frame is taken from the pipe of the worker `i`, where only the numbers of
frames in the pipes are kept. -/
def takeOf : ℕ → List ℕ → Except Fault (List ℕ)
  | _, [] => .error .notEnabled
  | 0, 0::_ => .error .notEnabled
  | 0, (n+1)::ns => .ok (n::ns)
  | i+1, n::ns => (takeOf i ns).map (n::·)

def countStep (ns : List ℕ) : Input → Except Fault (List ℕ)
  | .broadcast _ => .ok (ns.map (·+1))
  | .work i => takeOf i ns

/-- In this order of broadcasts and turns every worker reads every frame of its
pipe, and never finds the pipe empty. -/
def ReadsAll (dist : List (List Subscriber)) (inputs : List Input) : Prop :=
  run countStep inputs (dist.map fun _ => 0) = .ok (dist.map fun _ => 0)

/-- The message passes the tests for the connection. -/
def Sends (m : Message) (wr : Subscriber) : Prop := Passes (m.origin.getD 0) m.channel wr

instance (m : Message) (wr : Subscriber) : Decidable (Sends m wr) :=
  inferInstanceAs (Decidable (Passes _ _ _))

/-- The connection is subscribed to the message: it is not the origin, and one
of the two is for all channels, or both are for the same one. -/
def Subscribed (m : Message) (wr : Subscriber) : Prop :=
  m.origin ≠ some wr.socket ∧ (m.channel = -1 ∨ wr.channel = -1 ∨ wr.channel = m.channel)

instance (m : Message) (wr : Subscriber) : Decidable (Subscribed m wr) :=
  inferInstanceAs (Decidable (_ ∧ _))

/-- Every connection got the messages that it is subscribed to, each once and
in their order, and no others; and for each its socket was given the frame of
the message. -/
def Delivered (ms : List Message) (ws : List Worker) : Prop :=
  ∀ w ∈ ws, ∀ c ∈ w.clients, c.written.map Prod.fst = ms.filter (Subscribed · c.wr) ∧
    ∀ x ∈ c.written, SendsFrame (.ok x.2) c.wr.toWsRequest x.1.type x.1.data

/-- A message for one channel meets no connection for all channels other than
its origin; a message for a negative channel other than -1 meets, besides its
origin, only connections for this channel or for all; and a message without an
origin meets no subscribed connection on the descriptor 0. -/
structure Plain (m : Message) (wr : Subscriber) : Prop where
  single : 0 ≤ m.channel → wr.channel = -1 → m.origin = some wr.socket
  negative : m.channel < -1 → m.origin.getD 0 ≠ wr.socket →
    wr.channel = -1 ∨ wr.channel = m.channel
  zero : m.origin = none → wr.socket = 0 →
    ¬(m.channel = -1 ∨ wr.channel = -1 ∨ wr.channel = m.channel)

/-- The message fits into the internal frame, and if anybody is subscribed to it
its length has the seven-bit form. -/
def Sized (dist : List (List Subscriber)) (m : Message) : Prop :=
  m.data.length ≤ broadcastBuffer ∧
    ∀ wrs ∈ dist, ∀ wr ∈ wrs, Subscribed m wr → m.data.length < 126

theorem sends_eq_iff (m : Message) (wr : Subscriber) :
    (Sends m wr ↔ Subscribed m wr) ↔ Plain m wr := by
  have hplain : Plain m wr ↔ (0 ≤ m.channel → wr.channel = -1 → m.origin = some wr.socket) ∧
      (m.channel < -1 → m.origin.getD 0 ≠ wr.socket → wr.channel = -1 ∨ wr.channel = m.channel) ∧
      (m.origin = none → wr.socket = 0 →
        ¬(m.channel = -1 ∨ wr.channel = -1 ∨ wr.channel = m.channel)) :=
    ⟨fun h => ⟨h.single,h.negative,h.zero⟩,fun h => ⟨h.1,h.2.1,h.2.2⟩⟩
  rw [hplain]
  cases ho : m.origin with
  | none =>
    simp only [Sends, Passes, Subscribed, ho, Option.getD_none]
    by_cases hs : wr.socket = 0
    · simp [hs]
      omega
    · simp [hs, Ne.symm hs]
      omega
  | some x =>
    simp only [Sends, Passes, Subscribed, ho, Option.getD_some]
    by_cases hs : x = wr.socket
    · simp [hs]
    · simp [hs]
      omega

theorem filter_eq_iff {α : Type*} (p q : α → Bool) (l : List α) :
    l.filter p = l.filter q ↔ ∀ x ∈ l, p x = q x := by
  constructor
  · intro h x hx
    have hmem : x ∈ l.filter p ↔ x ∈ l.filter q := by rw [h]
    rw [List.mem_filter, List.mem_filter] at hmem
    exact Bool.eq_iff_iff.mpr ⟨fun hp => (hmem.mp ⟨hx,hp⟩).2,fun hq => (hmem.mpr ⟨hx,hq⟩).2⟩
  · exact List.filter_congr

section Frames

variable (m : Message) (brf : BroadcastFrame)

theorem compose_iff :
    (∃ brf, composeFrame m = .ok brf) ↔ m.data.length ≤ broadcastBuffer := by
  rw [composeFrame, map_ok_iff, fill_ok_iff]
  have : 0 < broadcastBuffer := by decide
  omega

theorem compose_ok (h : composeFrame m = .ok brf) :
    brf.source = m.origin.getD 0 ∧ brf.channel = m.channel := by
  obtain ⟨data,_,rfl⟩ := map_ok h
  exact ⟨rfl,rfl⟩

/-- The frame holds the message. -/
theorem compose_data (h : composeFrame m = .ok brf) :
    brf.type = m.type ∧ brf.data.toList.take brf.len = m.data := by
  have hle := (compose_iff m).mp ⟨brf,h⟩
  obtain ⟨data,hdata,rfl⟩ := map_ok h
  have ht := fill_take m.data 0 m.data.length 0 _ data (by omega) (by omega) hdata
  simp only [Nat.zero_add, List.take_zero, List.drop_zero, List.take_length, List.nil_append] at ht
  exact ⟨rfl,ht⟩

theorem compose_passes (wr : Subscriber) (h : composeFrame m = .ok brf) :
    Passes brf.source brf.channel wr ↔ Sends m wr := by
  obtain ⟨hsource,hchannel⟩ := compose_ok m brf h
  rw [Sends, hsource, hchannel]

theorem compose_write (sent : Subscriber → ℤ) (wr : Subscriber) (h : composeFrame m = .ok brf) :
    writeTo sent brf wr = wsWrite (sent wr) wr.toWsRequest m.type m.data := by
  obtain ⟨htype,hdata⟩ := compose_data m brf h
  rw [writeTo, htype, hdata]

end Frames

section Delivery

variable (sent : Subscriber → ℤ)

/-- What is written to a connection that one message is delivered to. -/
structure Told (m : Message) (d c : Client) : Prop where
  same : c.wr = d.wr
  skipped : ¬Sends m d.wr → c.written = d.written
  told : Sends m d.wr → ∃ s, wsWrite (sent d.wr) d.wr.toWsRequest m.type m.data = .ok s ∧
    c.written = d.written++[(m,s)]

variable (m : Message) (brf : BroadcastFrame) (done : List Message)
  (dist : List (List Subscriber)) (inputs : List Input) (ws vs : List Worker)

theorem mem_deliver (hbrf : composeFrame m = .ok brf) (cs ds : List Client)
    (h : deliver sent m brf cs = .ok ds) : ∀ c ∈ ds, ∃ d ∈ cs, Told sent m d c := by
  induction cs generalizing ds with
  | nil =>
    cases h
    simp
  | cons d cs ih =>
    have hpasses := compose_passes m brf d.wr hbrf
    simp only [deliver] at h
    split at h
    · next hp =>
      obtain ⟨s,hs,h⟩ := bind_ok h
      obtain ⟨es,hes,rfl⟩ := map_ok h
      rw [compose_write m brf sent d.wr hbrf] at hs
      intro c hc
      rcases List.mem_cons.mp hc with rfl | hc
      · exact ⟨d,List.mem_cons_self,rfl,fun hn => absurd (hpasses.mp hp) hn,fun _ => ⟨s,hs,rfl⟩⟩
      · obtain ⟨e,he,ht⟩ := ih es hes c hc
        exact ⟨e,List.mem_cons_of_mem d he,ht⟩
    · next hp =>
      obtain ⟨es,hes,rfl⟩ := map_ok h
      intro c hc
      rcases List.mem_cons.mp hc with rfl | hc
      · exact ⟨c,List.mem_cons_self,rfl,fun _ => rfl,fun hs => absurd (hpasses.mpr hs) hp⟩
      · obtain ⟨e,he,ht⟩ := ih es hes c hc
        exact ⟨e,List.mem_cons_of_mem d he,ht⟩

theorem deliver_layout (cs ds : List Client) (h : deliver sent m brf cs = .ok ds) :
    ds.map Client.wr = cs.map Client.wr := by
  induction cs generalizing ds with
  | nil =>
    cases h
    rfl
  | cons c cs ih =>
    simp only [deliver] at h
    split at h
    · obtain ⟨s,_,h⟩ := bind_ok h
      obtain ⟨es,hes,rfl⟩ := map_ok h
      rw [List.map_cons, List.map_cons, ih es hes]
    · obtain ⟨es,hes,rfl⟩ := map_ok h
      rw [List.map_cons, List.map_cons, ih es hes]

theorem deliver_short (hbrf : composeFrame m = .ok brf) (ht : m.type < 16) (cs : List Client)
    (h : ∀ c ∈ cs, Sends m c.wr → m.data.length < 126) : ∃ ds, deliver sent m brf cs = .ok ds := by
  induction cs with
  | nil => exact ⟨[],rfl⟩
  | cons c cs ih =>
    obtain ⟨ds,hds⟩ := ih (fun d hd => h d (List.mem_cons_of_mem c hd))
    simp only [deliver]
    split
    · next hp =>
      have hshort := h c List.mem_cons_self ((compose_passes m brf c.wr hbrf).mp hp)
      obtain ⟨s,hs,_⟩ := short_sends (sent c.wr) c.wr.toWsRequest m.type m.data ht hshort
      rw [compose_write m brf sent c.wr hbrf, hs]
      exact ⟨{ c with written := c.written++[(m,s)] }::ds,
        by simp only [Except.bind, hds, Except.map]⟩
    · exact ⟨c::ds,by simp only [hds, Except.map]⟩

/-- The worker has written `done` up to what is still in its pipe, and the
frames in its pipe are those of their messages. -/
structure Caught (done : List Message) (w : Worker) : Prop where
  frames : ∀ x ∈ w.pipe, composeFrame x.1 = .ok x.2
  written : ∀ c ∈ w.clients,
    c.written.map Prod.fst++(w.pipe.map Prod.fst).filter (Sends · c.wr) =
      done.filter (Sends · c.wr)
  calls : ∀ c ∈ w.clients, ∀ x ∈ c.written,
    wsWrite (sent c.wr) c.wr.toWsRequest x.1.type x.1.data = .ok x.2

theorem writePipes_caught (hbrf : composeFrame m = .ok brf) (h : ∀ w ∈ ws, Caught sent done w) :
    ∀ w ∈ writePipes m brf ws, Caught sent (done++[m]) w := by
  induction ws with
  | nil => simp [writePipes]
  | cons v ws ih =>
    intro w hw
    rcases List.mem_cons.mp hw with rfl | hw
    · have hv := h v List.mem_cons_self
      refine ⟨?_,?_,hv.calls⟩
      · intro x hx
        rcases List.mem_append.mp hx with hx | hx
        · exact hv.frames x hx
        · rw [List.mem_singleton.mp hx]
          exact hbrf
      · intro c hc
        rw [List.map_append, List.filter_append, ← List.append_assoc, hv.written c hc,
          List.filter_append]
        rfl
    · exact ih (fun w hw => h w (List.mem_cons_of_mem v hw)) w hw

theorem readPipe_inv (w v : Worker) (h : readPipe sent w = .ok v) :
    ∃ m brf rest clients, w.pipe = (m,brf)::rest ∧ deliver sent m brf w.clients = .ok clients ∧
      v = ⟨clients,rest⟩ := by
  simp only [readPipe] at h
  split at h
  · cases h
  · next m brf rest hpipe =>
    split at h
    · next clients hd =>
      cases h
      exact ⟨m,brf,rest,clients,hpipe,hd,rfl⟩
    · cases h

theorem readPipe_caught (w v : Worker) (hw : Caught sent done w) (h : readPipe sent w = .ok v) :
    Caught sent done v := by
  obtain ⟨m,brf,rest,clients,hpipe,hd,rfl⟩ := readPipe_inv sent w v h
  have hbrf : composeFrame m = .ok brf := hw.frames (m,brf) (by simp [hpipe])
  have htold := mem_deliver sent m brf hbrf w.clients clients hd
  refine ⟨fun x hx => hw.frames x (by simp [hpipe, hx]),?_,?_⟩
  · intro c hc
    obtain ⟨d,hd,ht⟩ := htold c hc
    have hold := hw.written d hd
    rw [hpipe] at hold
    simp only [List.map_cons, List.filter_cons, decide_eq_true_eq] at hold
    rw [ht.same, ← hold]
    by_cases hs : Sends m d.wr
    · obtain ⟨s,_,hwritten⟩ := ht.told hs
      rw [hwritten, if_pos hs, List.map_append, List.append_assoc]
      rfl
    · rw [ht.skipped hs, if_neg hs]
  · intro c hc x hx
    obtain ⟨d,hd,ht⟩ := htold c hc
    rw [ht.same]
    by_cases hs : Sends m d.wr
    · obtain ⟨s,hcall,hwritten⟩ := ht.told hs
      rw [hwritten] at hx
      rcases List.mem_append.mp hx with hx | hx
      · exact hw.calls d hd x hx
      · rw [List.mem_singleton.mp hx]
        exact hcall
    · rw [ht.skipped hs] at hx
      exact hw.calls d hd x hx

theorem workOf_caught (i : ℕ) (ws vs : List Worker) (hw : ∀ w ∈ ws, Caught sent done w)
    (h : workOf sent i ws = .ok vs) : ∀ v ∈ vs, Caught sent done v := by
  induction i generalizing ws vs with
  | zero =>
    cases ws with
    | nil => cases h
    | cons w ws =>
      obtain ⟨v,hv,rfl⟩ := map_ok h
      intro u hu
      rcases List.mem_cons.mp hu with rfl | hu
      · exact readPipe_caught sent done w u (hw w List.mem_cons_self) hv
      · exact hw u (List.mem_cons_of_mem w hu)
  | succ i ih =>
    cases ws with
    | nil => cases h
    | cons w ws =>
      obtain ⟨us,hus,rfl⟩ := map_ok h
      intro u hu
      rcases List.mem_cons.mp hu with rfl | hu
      · exact hw u List.mem_cons_self
      · exact ih ws us (fun w' hw' => hw w' (List.mem_cons_of_mem w hw')) hus u hu

theorem step_broadcast (m : Message) (h : step sent ws (.broadcast m) = .ok vs) :
    ∃ brf, composeFrame m = .ok brf ∧ vs = writePipes m brf ws := by
  simp only [step] at h
  split at h
  · next brf hbrf =>
    cases h
    exact ⟨brf,hbrf,rfl⟩
  · cases h

theorem step_caught (a : Input) (hw : ∀ w ∈ ws, Caught sent done w) (h : step sent ws a = .ok vs) :
    ∀ v ∈ vs, Caught sent (done++messages [a]) v := by
  cases a with
  | broadcast m =>
    obtain ⟨brf,hbrf,rfl⟩ := step_broadcast sent ws vs m h
    exact writePipes_caught sent m brf done ws hbrf hw
  | work i =>
    rw [messages, messages, List.append_nil]
    exact workOf_caught sent done i ws vs hw h

theorem messages_append (more : List Input) :
    messages (inputs++more) = messages inputs++messages more := by
  induction inputs with
  | nil => rfl
  | cons a inputs ih =>
    cases a with
    | broadcast m => rw [List.cons_append, messages, messages, ih, List.cons_append]
    | work i => rw [List.cons_append, messages, messages, ih]

theorem run_caught (hw : ∀ w ∈ ws, Caught sent [] w) (h : run (step sent) inputs ws = .ok vs) :
    ∀ v ∈ vs, Caught sent (messages inputs) v := by
  refine run_history (I := fun history ws => ∀ w ∈ ws, Caught sent (messages history) w) ?_
    inputs [] ws vs hw h
  intro history us a vs hu hs
  rw [messages_append]
  exact step_caught sent (messages history) us vs a hu hs

theorem start_caught : ∀ w ∈ start dist, Caught sent [] w := by
  intro w hw
  obtain ⟨wrs,_,rfl⟩ := List.mem_map.mp hw
  refine ⟨by simp,fun c hc => ?_,fun c hc => ?_⟩
  · obtain ⟨wr,_,rfl⟩ := List.mem_map.mp hc
    rfl
  · obtain ⟨wr,_,rfl⟩ := List.mem_map.mp hc
    simp

/-- Every message of a run fits into the internal frame. -/
theorem run_composed (h : run (step sent) inputs ws = .ok vs) :
    ∀ m ∈ messages inputs, m.data.length ≤ broadcastBuffer := by
  refine run_history
    (I := fun history _ => ∀ m ∈ messages history, m.data.length ≤ broadcastBuffer) ?_ inputs []
    ws vs (by simp [messages]) h
  intro history us a vs hu hs m hm
  rw [messages_append] at hm
  rcases List.mem_append.mp hm with hm | hm
  · exact hu m hm
  · cases a with
    | broadcast x =>
      obtain ⟨brf,hbrf,_⟩ := step_broadcast sent us vs x hs
      rw [List.mem_singleton.mp hm]
      exact (compose_iff x).mp ⟨brf,hbrf⟩
    | work i => cases hm

/-- The connections of the workers, and how many frames are in their pipes. -/
def layout (ws : List Worker) : List (List Subscriber) := ws.map (·.clients.map Client.wr)

def counts (ws : List Worker) : List ℕ := ws.map (·.pipe.length)

theorem readPipe_layout (w v : Worker) (h : readPipe sent w = .ok v) :
    v.clients.map Client.wr = w.clients.map Client.wr ∧ w.pipe.length = v.pipe.length+1 := by
  obtain ⟨m,brf,rest,clients,hpipe,hd,rfl⟩ := readPipe_inv sent w v h
  exact ⟨deliver_layout sent m brf _ _ hd,by rw [hpipe]; rfl⟩

theorem writePipes_layout :
    layout (writePipes m brf ws) = layout ws ∧
      counts (writePipes m brf ws) = (counts ws).map (·+1) := by
  induction ws with
  | nil => exact ⟨rfl,rfl⟩
  | cons w ws ih => simpa [layout, counts, writePipes] using ih

theorem workOf_layout (i : ℕ) (ws vs : List Worker) (h : workOf sent i ws = .ok vs) :
    layout vs = layout ws ∧ takeOf i (counts ws) = .ok (counts vs) := by
  induction i generalizing ws vs with
  | zero =>
    cases ws with
    | nil => cases h
    | cons w ws =>
      obtain ⟨v,hv,rfl⟩ := map_ok h
      obtain ⟨hwr,hlen⟩ := readPipe_layout sent w v hv
      exact ⟨by simp [layout, hwr],by simp [counts, hlen, takeOf]⟩
  | succ i ih =>
    cases ws with
    | nil => cases h
    | cons w ws =>
      obtain ⟨us,hus,rfl⟩ := map_ok h
      obtain ⟨hlayout,htake⟩ := ih ws us hus
      refine ⟨by simpa [layout] using hlayout,?_⟩
      have hcounts : ∀ vs, counts (w::vs) = w.pipe.length::counts vs := fun _ => rfl
      simp only [hcounts, takeOf, htake, Except.map]

/-- The broadcast threads keep the connections, and read as the numbers of
frames say. -/
theorem step_layout (a : Input) (h : step sent ws a = .ok vs) :
    layout vs = layout ws ∧ countStep (counts ws) a = .ok (counts vs) := by
  cases a with
  | broadcast m =>
    obtain ⟨brf,_,rfl⟩ := step_broadcast sent ws vs m h
    obtain ⟨hlayout,hcounts⟩ := writePipes_layout m brf ws
    exact ⟨hlayout,by rw [countStep, hcounts]⟩
  | work i => exact workOf_layout sent i ws vs h

theorem run_layout (us ws : List Worker) (h : run (step sent) inputs us = .ok ws) :
    layout ws = layout us ∧ run countStep inputs (counts us) = .ok (counts ws) := by
  induction inputs generalizing us with
  | nil =>
    cases h
    exact ⟨rfl,rfl⟩
  | cons a inputs ih =>
    obtain ⟨vs,hs,hr⟩ := run_cons_inv h
    obtain ⟨hlayout,hcount⟩ := step_layout sent us vs a hs
    obtain ⟨hlayout',hrun⟩ := ih vs hr
    exact ⟨hlayout'.trans hlayout,by rw [run_cons_ok hcount, hrun]⟩

theorem layout_start : layout (start dist) = dist := by
  simp [layout, start, Function.comp_def]

theorem counts_start : counts (start dist) = dist.map fun _ => 0 := by
  simp [counts, start, Function.comp_def]

/-- The frames in the pipe can be sent to the connections of the worker. -/
def Ready (w : Worker) : Prop :=
  ∀ x ∈ w.pipe, composeFrame x.1 = .ok x.2 ∧ x.1.type < 16 ∧
    ∀ wr ∈ w.clients.map Client.wr, Sends x.1 wr → x.1.data.length < 126

theorem readPipe_ready (w : Worker) (hw : Ready w) (h : w.pipe ≠ []) :
    ∃ v, readPipe sent w = .ok v ∧ Ready v := by
  obtain ⟨⟨m,brf⟩,rest,hpipe⟩ := List.exists_cons_of_ne_nil h
  obtain ⟨hbrf,ht,hshort⟩ := hw (m,brf) (by simp [hpipe])
  obtain ⟨clients,hd⟩ := deliver_short sent m brf hbrf ht w.clients
    (fun c hc => hshort c.wr (List.mem_map_of_mem hc))
  refine ⟨⟨clients,rest⟩,by simp only [readPipe, hpipe, hd],fun x hx => ?_⟩
  obtain ⟨hx1,hx2,hx3⟩ := hw x (by simp [hpipe, hx])
  exact ⟨hx1,hx2,fun wr hwr => hx3 wr (deliver_layout sent m brf _ _ hd ▸ hwr)⟩

theorem workOf_ready (i : ℕ) (ws : List Worker) (ns : List ℕ) (hw : ∀ w ∈ ws, Ready w)
    (h : takeOf i (counts ws) = .ok ns) :
    ∃ vs, workOf sent i ws = .ok vs ∧ ∀ v ∈ vs, Ready v := by
  induction i generalizing ws ns with
  | zero =>
    cases ws with
    | nil => cases h
    | cons w ws =>
      have hne : w.pipe ≠ [] := by
        intro hnil
        simp [counts, hnil, takeOf] at h
      obtain ⟨v,hv,hready⟩ := readPipe_ready sent w (hw w List.mem_cons_self) hne
      refine ⟨v::ws,by simp only [workOf, hv, Except.map],?_⟩
      exact List.forall_mem_cons.mpr ⟨hready,fun u hu => hw u (List.mem_cons_of_mem w hu)⟩
  | succ i ih =>
    cases ws with
    | nil => cases h
    | cons w ws =>
      rw [show counts (w::ws) = w.pipe.length::counts ws from rfl, takeOf] at h
      obtain ⟨ms,hms,_⟩ := map_ok h
      obtain ⟨vs,hvs,hready⟩ := ih ws ms (fun u hu => hw u (List.mem_cons_of_mem w hu)) hms
      refine ⟨w::vs,by simp only [workOf, hvs, Except.map],?_⟩
      exact List.forall_mem_cons.mpr ⟨hw w List.mem_cons_self,hready⟩

theorem writePipes_ready (hw : ∀ w ∈ ws, Ready w) (hbrf : composeFrame m = .ok brf)
    (ht : m.type < 16) (hm : ∀ wrs ∈ layout ws, ∀ wr ∈ wrs, Sends m wr → m.data.length < 126) :
    ∀ v ∈ writePipes m brf ws, Ready v := by
  induction ws with
  | nil => simp [writePipes]
  | cons w ws ih =>
    have hrest := ih (fun u hu => hw u (List.mem_cons_of_mem w hu))
      (fun wrs hwrs => hm wrs (List.mem_cons_of_mem _ hwrs))
    refine List.forall_mem_cons.mpr ⟨fun x hx => ?_,hrest⟩
    rcases List.mem_append.mp hx with hx | hx
    · exact hw w List.mem_cons_self x hx
    · rw [List.mem_singleton.mp hx]
      exact ⟨hbrf,ht,hm _ List.mem_cons_self⟩

/-- With messages that fit, a run takes place wherever there is always a frame
to read. -/
theorem run_ready (ns : List ℕ) (hw : ∀ w ∈ ws, Ready w)
    (hm : ∀ m ∈ messages inputs, m.data.length ≤ broadcastBuffer ∧ m.type < 16 ∧
      ∀ wrs ∈ layout ws, ∀ wr ∈ wrs, Sends m wr → m.data.length < 126)
    (h : run countStep inputs (counts ws) = .ok ns) : ∃ vs, run (step sent) inputs ws = .ok vs := by
  induction inputs generalizing ws with
  | nil => exact ⟨ws,rfl⟩
  | cons a inputs ih =>
    obtain ⟨ms,hs,hr⟩ := run_cons_inv h
    have hstep : ∃ vs, step sent ws a = .ok vs ∧ ∀ v ∈ vs, Ready v := by
      cases a with
      | broadcast m =>
        obtain ⟨hle,ht,hshort⟩ := hm m List.mem_cons_self
        obtain ⟨brf,hbrf⟩ := (compose_iff m).mpr hle
        exact ⟨_,by simp only [step, hbrf],writePipes_ready m brf ws hw hbrf ht hshort⟩
      | work i => exact workOf_ready sent i ws ms hw hs
    obtain ⟨vs,hvs,hready⟩ := hstep
    obtain ⟨hlayout,hcount⟩ := step_layout sent ws vs a hvs
    cases hs.symm.trans hcount
    obtain ⟨us,hus⟩ := ih vs hready (fun m hmem => by
      rw [hlayout]
      refine hm m ?_
      cases a with
      | broadcast x => exact List.mem_cons_of_mem x hmem
      | work i => exact hmem) hr
    exact ⟨us,by rw [run_cons_ok hvs, hus]⟩

/-- What the connections have got when all pipes are read. -/
theorem run_written (hall : ReadsAll dist inputs)
    (hrun : run (step sent) inputs (start dist) = .ok ws) :
    layout ws = dist ∧ ∀ w ∈ ws, ∀ c ∈ w.clients,
      c.written.map Prod.fst = (messages inputs).filter (Sends · c.wr) ∧
      ∀ x ∈ c.written, wsWrite (sent c.wr) c.wr.toWsRequest x.1.type x.1.data = .ok x.2 := by
  obtain ⟨hlayout,hcounts⟩ := run_layout sent inputs (start dist) ws hrun
  rw [counts_start] at hcounts
  have hzero : counts ws = dist.map fun _ => 0 := Except.ok.inj (hcounts.symm.trans hall)
  refine ⟨hlayout.trans (layout_start dist),fun w hw c hc => ?_⟩
  have hempty : w.pipe = [] := by
    have hmem : w.pipe.length ∈ counts ws := List.mem_map_of_mem hw
    rw [hzero, List.mem_map] at hmem
    obtain ⟨_,_,h0⟩ := hmem
    exact List.length_eq_zero_iff.mp h0.symm
  have hcaught := run_caught sent inputs (start dist) ws (start_caught sent dist) hrun w hw
  have hwritten := hcaught.written c hc
  rw [hempty, List.map_nil, List.filter_nil, List.append_nil] at hwritten
  exact ⟨hwritten,hcaught.calls c hc⟩

/-- When every worker reads all its frames, the broadcasts take place and every
connection has got exactly what it is subscribed to, as proper frames, if and
only if all messages and connections are plain and all messages have a size that
fits. -/
theorem broadcast_delivered_iff (dist : List (List Subscriber)) (inputs : List Input)
    (hall : ReadsAll dist inputs) (htype : ∀ m ∈ messages inputs, m.type < 16) :
    (∃ ws, run (step sent) inputs (start dist) = .ok ws ∧ Delivered (messages inputs) ws) ↔
      ∀ m ∈ messages inputs, Sized dist m ∧ ∀ wrs ∈ dist, ∀ wr ∈ wrs, Plain m wr := by
  constructor
  · rintro ⟨ws,hrun,hdelivered⟩ m hm
    obtain ⟨hlayout,hgot⟩ := run_written sent dist inputs ws hall hrun
    have hle := run_composed sent inputs (start dist) ws hrun m hm
    have hboth : ∀ wrs ∈ dist, ∀ wr ∈ wrs,
        Plain m wr ∧ (Subscribed m wr → m.data.length < 126) := by
      intro wrs hwrs wr hwr
      rw [← hlayout] at hwrs
      obtain ⟨w,hw,rfl⟩ := List.mem_map.mp hwrs
      obtain ⟨c,hc,rfl⟩ := List.mem_map.mp hwr
      obtain ⟨hwritten,hcalls⟩ := hgot w hw c hc
      obtain ⟨hsubscribed,hframes⟩ := hdelivered w hw c hc
      have hsame := (filter_eq_iff _ _ _).mp (hwritten.symm.trans hsubscribed) m hm
      rw [decide_eq_decide, sends_eq_iff] at hsame
      refine ⟨hsame,fun hs => ?_⟩
      have hmem : m ∈ c.written.map Prod.fst := by
        rw [hsubscribed]
        exact List.mem_filter.mpr ⟨hm,by simpa using hs⟩
      obtain ⟨x,hx,rfl⟩ := List.mem_map.mp hmem
      have hframe := hframes x hx
      rw [← hcalls x hx] at hframe
      have : broadcastBuffer < 2^63 := by decide
      exact sends_short _ _ _ _ (by omega) hframe
    exact ⟨⟨hle,fun wrs hwrs wr hwr => (hboth wrs hwrs wr hwr).2⟩,
      fun wrs hwrs wr hwr => (hboth wrs hwrs wr hwr).1⟩
  · intro h
    have hsends : ∀ m ∈ messages inputs, ∀ wrs ∈ dist, ∀ wr ∈ wrs,
        (Sends m wr ↔ Subscribed m wr) := by
      intro m hm wrs hwrs wr hwr
      exact (sends_eq_iff m wr).mpr ((h m hm).2 wrs hwrs wr hwr)
    obtain ⟨ws,hrun⟩ := run_ready sent inputs (start dist) _
      (by simp [start, Ready]) (fun m hm => ⟨(h m hm).1.1,htype m hm,fun wrs hwrs wr hwr hs => by
        rw [layout_start] at hwrs
        exact (h m hm).1.2 wrs hwrs wr hwr ((hsends m hm wrs hwrs wr hwr).mp hs)⟩)
      (by rw [counts_start]; exact hall)
    obtain ⟨hlayout,hgot⟩ := run_written sent dist inputs ws hall hrun
    refine ⟨ws,hrun,fun w hw c hc => ?_⟩
    obtain ⟨hwritten,hcalls⟩ := hgot w hw c hc
    have hwrs : w.clients.map Client.wr ∈ dist := hlayout ▸ List.mem_map_of_mem hw
    have hwr : c.wr ∈ w.clients.map Client.wr := List.mem_map_of_mem hc
    have hfilter : c.written.map Prod.fst = (messages inputs).filter (Subscribed · c.wr) := by
      rw [hwritten, filter_eq_iff]
      intro m hm
      rw [decide_eq_decide]
      exact hsends m hm _ hwrs _ hwr
    refine ⟨hfilter,fun x hx => ?_⟩
    have hmem : x.1 ∈ (messages inputs).filter (Subscribed · c.wr) :=
      hfilter ▸ List.mem_map_of_mem hx
    obtain ⟨hm,hs⟩ := List.mem_filter.mp hmem
    rw [← hcalls x hx]
    exact short_sends _ _ _ _ (htype _ hm)
      ((h _ hm).1.2 _ hwrs _ hwr (by simpa using hs))

end Delivery

/-- A connection for the channel `channel`, with every callback set. -/
def listener (socket channel : ℤ) : Subscriber := ⟨{ openRequest with socket := socket },channel⟩

def hello (channel : ℤ) : Message := ⟨some 7,[0x68,0x69],1,channel⟩

/-- Two workers; the message for channel 1 goes to the connection on socket 8. -/
theorem hello_delivered :
    ∃ ws, run (step fun _ => 4) [.broadcast (hello 1),.work 1,.work 0]
        (start [[listener 7 1,listener 8 1],[listener 9 2]]) = .ok ws ∧
      Delivered (messages [.broadcast (hello 1),.work 1,.work 0]) ws := by
  refine (broadcast_delivered_iff (fun _ => 4) [[listener 7 1,listener 8 1],[listener 9 2]]
    [.broadcast (hello 1),.work 1,.work 0] rfl ?_).mpr ?_
  · simp only [messages, List.forall_mem_singleton]
    decide
  · simp only [messages, List.forall_mem_singleton, Sized]
    refine ⟨by decide,?_⟩
    simp only [List.forall_mem_cons, List.not_mem_nil, false_imp_iff, implies_true, and_true]
    exact ⟨⟨⟨by decide,by decide,by decide⟩,by decide,by decide,by decide⟩,
      by decide,by decide,by decide⟩

/-- The connection on socket 8 is for all channels, and gets no message for
channel 1. -/
theorem all_channels_left_out :
    ∃ ws, run (step fun _ => 4) [.broadcast (hello 1),.work 0]
        (start [[listener 7 1,listener 8 (-1)]]) = .ok ws ∧
      Subscribed (hello 1) (listener 8 (-1)) ∧ ¬Delivered [hello 1] ws := by
  refine ⟨[⟨[⟨listener 7 1,[]⟩,⟨listener 8 (-1),[]⟩],[]⟩],rfl,by decide,fun h => ?_⟩
  have hc := (h _ List.mem_cons_self ⟨listener 8 (-1),[]⟩ (by simp)).1
  revert hc
  decide

/-- The broadcast stays inside its buffers, and hands the frame of the message
to the socket of each connection that passes the tests; `sent` is what
`socket_send` returns. -/
def Intact (sent : Subscriber → ℤ) (dist : List (List Subscriber)) (m : Message) : Prop :=
  ∃ brf, composeFrame m = .ok brf ∧ ∀ wrs ∈ dist, ∀ wr ∈ wrs, Passes brf.source brf.channel wr →
    SendsFrame (wsWrite (sent wr) wr.toWsRequest brf.type (brf.data.toList.take brf.len))
      wr.toWsRequest m.type m.data

/-- A message arrives complete exactly when it has at most 125 bytes, or at most
1024 if it goes to no connection. -/
theorem broadcast_intact_iff (sent : Subscriber → ℤ) (dist : List (List Subscriber))
    (m : Message) (ht : m.type < 16) :
    Intact sent dist m ↔ m.data.length ≤ broadcastBuffer ∧
      ∀ wrs ∈ dist, ∀ wr ∈ wrs, Sends m wr → m.data.length < 126 := by
  constructor
  · rintro ⟨brf,hbrf,hsent⟩
    have hle := (compose_iff m).mp ⟨brf,hbrf⟩
    refine ⟨hle,fun wrs hwrs wr hwr hsends => ?_⟩
    obtain ⟨htype,hdata⟩ := compose_data m brf hbrf
    have hframe := hsent wrs hwrs wr hwr ((compose_passes m brf wr hbrf).mpr hsends)
    rw [htype, hdata] at hframe
    have : broadcastBuffer < 2^63 := by decide
    exact sends_short _ _ m.type m.data (by omega) hframe
  · rintro ⟨hle,hshort⟩
    obtain ⟨brf,hbrf⟩ := (compose_iff m).mpr hle
    refine ⟨brf,hbrf,fun wrs hwrs wr hwr hpasses => ?_⟩
    obtain ⟨htype,hdata⟩ := compose_data m brf hbrf
    rw [htype, hdata]
    exact short_sends _ _ m.type m.data ht
      (hshort wrs hwrs wr hwr ((compose_passes m brf wr hbrf).mp hpasses))

/-- The message `hi` to two connections. -/
theorem hello_intact :
    (hello 1).type < 16 ∧ (Intact (fun _ => 4) [[listener 7 1,listener 8 1]] (hello 1) ↔
      (hello 1).data.length ≤ broadcastBuffer ∧ ∀ wrs ∈ [[listener 7 1,listener 8 1]],
        ∀ wr ∈ wrs, Sends (hello 1) wr → (hello 1).data.length < 126) :=
  ⟨by decide,broadcast_intact_iff (fun _ => 4) [[listener 7 1,listener 8 1]] (hello 1) (by decide)⟩

/-- A text message of `n` bytes for all channels. -/
def shout (n : ℕ) : Message := ⟨none,List.replicate n 0x61,1,-1⟩

theorem shout_length (n : ℕ) : (shout n).data.length = n := List.length_replicate

/-- A message of 1025 bytes is written beyond the internal frame, and one of 253
bytes beyond the send buffer. -/
theorem shout_overruns :
    (¬∃ brf, composeFrame (shout 1025) = .ok brf) ∧
      ∀ s, wsWrite 257 (listener 8 1).toWsRequest 1 (shout 253).data ≠ .ok s := by
  constructor
  · rw [compose_iff, shout_length]
    decide
  · intro s
    have hlen := shout_length 253
    exact wsWrite_overruns 257 _ 1 _ _ 4 (by omega) (sendHeader_medium 1 _ (by omega) (by omega))
      (by omega) (by omega) s

end Duda.WebSocketBroadcast
