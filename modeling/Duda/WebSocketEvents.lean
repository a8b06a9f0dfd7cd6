import Duda.Runs
import Duda.WebSocketRead
import Mathlib.Data.List.Nodup

/-!
# The life of a websocket connection

The connections of a thread are a list of nodes, and each event handler starts
with a search for the node of its socket. The callbacks that the handlers
invoke are recorded for each socket since the last successful handshake. The
close callback has two sources, and only one of them removes the node.
-/

set_option autoImplicit false

namespace Duda.WebSocketEvents
open Duda.CheckedMemory Duda.Runs Duda.WebSocketRead

inductive Callback where
  | onMessage
  | onError
  | onClose
  | onTimeout
  deriving DecidableEq, Repr

/-- The callbacks of `ws_callbacks` that are set. -/
structure WsCallbacks where
  onMessage : Bool
  onError : Bool
  onClose : Bool
  onTimeout : Bool
  deriving DecidableEq, Repr

inductive Event where
  | handshake (socket : ℤ) (upgraded : Bool) (callbacks : WsCallbacks)
  | read (socket : ℤ) (bytes : List UInt8)
  | error (socket : ℤ)
  | close (socket : ℤ)
  | timeout (socket : ℤ)
  deriving DecidableEq, Repr

/-- The list of nodes, and the callbacks of the connection on each socket. -/
structure Connections where
  nodes : List WsRequest
  trace : ℤ → List Callback

def initial : Connections := ⟨[],fun _ => []⟩

def wsRequestCreate (socket : ℤ) (callbacks : WsCallbacks) : WsRequest :=
  ⟨socket,0,0,none,callbacks.onMessage,callbacks.onError,callbacks.onClose,callbacks.onTimeout⟩

def wsRequestAdd (nodes : List WsRequest) (wr : WsRequest) : List WsRequest := nodes++[wr]

def wsRequestGet : List WsRequest → ℤ → Option WsRequest
  | [], _ => none
  | wr::nodes, socket => if wr.socket = socket then some wr else wsRequestGet nodes socket

def wsRequestDelete : List WsRequest → ℤ → List WsRequest × ℤ
  | [], _ => ([],-1)
  | wr::nodes, socket =>
    if wr.socket = socket then (nodes,0)
    else (wr::(wsRequestDelete nodes socket).1,(wsRequestDelete nodes socket).2)

/-- The node found for a socket, after a handler has written to it. -/
def wsRequestPut : List WsRequest → ℤ → WsRequest → List WsRequest
  | [], _, _ => []
  | wr::nodes, socket, new =>
    if wr.socket = socket then new::nodes else wr::wsRequestPut nodes socket new

/-- The node part of `ws_handshake`: an old node of the socket goes away in any
case, and a new one is registered when the upgrade is accepted. -/
def wsHandshake (nodes : List WsRequest) (socket : ℤ) (upgraded : Bool)
    (callbacks : WsCallbacks) : List WsRequest :=
  let nodes := (wsRequestDelete nodes socket).1
  if upgraded then wsRequestAdd nodes (wsRequestCreate socket callbacks) else nodes

def cbWsError : Option WsRequest → List Callback × EventReturn
  | none => ([],.close)
  | some wr => (if wr.cbOnError then [.onError] else [],.owned)

def cbWsTimeout : Option WsRequest → List Callback × EventReturn
  | none => ([],.close)
  | some wr => (if wr.cbOnTimeout then [.onTimeout] else [],.owned)

def cbWsClose (nodes : List WsRequest) (socket : ℤ) :
    List WsRequest × List Callback × EventReturn :=
  match wsRequestGet nodes socket with
  | none => (nodes,[],.close)
  | some wr => ((wsRequestDelete nodes socket).1,if wr.cbOnClose then [.onClose] else [],.close)

def callbackOf : Effect → Option Callback
  | .onMessage => some .onMessage
  | .onClose => some .onClose
  | .sendData _ => none

/-- `cb_ws_read` on the list of nodes. -/
def readEvent (nodes : List WsRequest) (socket : ℤ) (bytes : List UInt8) :
    Except Access (List WsRequest × List Callback × EventReturn) :=
  (cbWsRead (wsRequestGet nodes socket) bytes).map (fun (wr,effects,ret) =>
    (match wr with
      | none => nodes
      | some wr => wsRequestPut nodes socket wr,effects.filterMap callbackOf,ret))

def note (s : Connections) (socket : ℤ) (nodes : List WsRequest) (cbs : List Callback) :
    Connections :=
  ⟨nodes,Function.update s.trace socket (s.trace socket++cbs)⟩

def step (s : Connections) : Event → Except Access Connections
  | .handshake socket upgraded callbacks =>
    .ok ⟨wsHandshake s.nodes socket upgraded callbacks,
      if upgraded then Function.update s.trace socket [] else s.trace⟩
  | .read socket bytes =>
    (readEvent s.nodes socket bytes).map (fun (nodes,cbs,_) => note s socket nodes cbs)
  | .error socket => .ok (note s socket s.nodes (cbWsError (wsRequestGet s.nodes socket)).1)
  | .close socket =>
    let (nodes,cbs,_) := cbWsClose s.nodes socket
    .ok (note s socket nodes cbs)
  | .timeout socket => .ok (note s socket s.nodes (cbWsTimeout (wsRequestGet s.nodes socket)).1)

def Event.socket : Event → ℤ
  | .handshake socket _ _ => socket
  | .read socket _ => socket
  | .error socket => socket
  | .close socket => socket
  | .timeout socket => socket

/-- The close callback comes once at most, and nothing comes after it. -/
def ClosesLast (s : Connections) : Prop :=
  ∀ socket before after, s.trace socket = before++.onClose::after → after = []

def frameOpcode (bytes : List UInt8) : ℕ := (bytes.getD 0 0).toNat % 16

/-- The connection has a callback set for the event. -/
def HasCallback (wr : WsRequest) : Event → Prop
  | .handshake _ _ _ => False
  | .read _ bytes => bytes ≠ [] ∧
      ((frameOpcode bytes ≤ 2 ∧ wr.cbOnMessage = true) ∨
        (frameOpcode bytes = 8 ∧ wr.cbOnClose = true))
  | .error _ => wr.cbOnError = true
  | .close _ => wr.cbOnClose = true
  | .timeout _ => wr.cbOnTimeout = true

/-- Once the close callback was invoked, a connection that is still registered
gets no event that has a callback set. -/
def QuietAfterClose (s : Connections) (e : Event) : Prop :=
  .onClose ∈ s.trace e.socket →
    ∀ wr, wsRequestGet s.nodes e.socket = some wr → ¬HasCallback wr e

/-- No close frame arrives at a connection with a close callback. -/
def NoCloseFrame (s : Connections) (e : Event) : Prop :=
  ∀ socket bytes wr, e = .read socket bytes → wsRequestGet s.nodes socket = some wr →
    wr.cbOnClose = true → frameOpcode bytes ≠ 8

theorem header_opcode (bytes : List UInt8) :
    (frameHeader (receive bytes)).opcode = frameOpcode bytes := by
  have h : (receive bytes)[0] = bytes.getD 0 0 := receive_get bytes 0 (by omega)
  have hlow : ((receive bytes)[0] &&& 0x0f).toNat = (bytes.getD 0 0).toNat % 16 := by
    rw [h, UInt8.toNat_and]
    exact Nat.and_two_pow_sub_one_eq_mod _ 4
  simp only [frameHeader, frameOpcode]
  split_ifs <;> exact hlow

/-- The callbacks that an event raises at a registered connection. -/
def raised (wr : WsRequest) : Event → List Callback
  | .handshake _ _ _ => []
  | .read _ bytes =>
    if bytes = [] then []
    else if frameOpcode bytes ≤ 2 then if wr.cbOnMessage then [.onMessage] else []
    else if frameOpcode bytes = 8 then if wr.cbOnClose then [.onClose] else []
    else []
  | .error _ => if wr.cbOnError then [.onError] else []
  | .close _ => if wr.cbOnClose then [.onClose] else []
  | .timeout _ => if wr.cbOnTimeout then [.onTimeout] else []

theorem raised_nil_iff (wr : WsRequest) (e : Event) : raised wr e = [] ↔ ¬HasCallback wr e := by
  cases e with
  | handshake socket upgraded callbacks => simp [raised, HasCallback]
  | read socket bytes =>
    by_cases hb : bytes = []
    · simp [raised, HasCallback, hb]
    · by_cases h2 : frameOpcode bytes ≤ 2
      · have h8 : frameOpcode bytes ≠ 8 := by omega
        simp [raised, HasCallback, hb, h2, h8]
      · simp [raised, HasCallback, hb, h2]
  | error socket => simp [raised, HasCallback]
  | close socket => simp [raised, HasCallback]
  | timeout socket => simp [raised, HasCallback]

theorem raised_length (wr : WsRequest) (e : Event) : (raised wr e).length ≤ 1 := by
  cases e with
  | handshake socket upgraded callbacks => simp [raised]
  | read socket bytes =>
    simp only [raised]
    split_ifs <;> simp
  | error socket =>
    simp only [raised]
    split_ifs <;> simp
  | close socket =>
    simp only [raised]
    split_ifs <;> simp
  | timeout socket =>
    simp only [raised]
    split_ifs <;> simp

theorem dispatch_callbacks (wr : WsRequest) :
    (dispatch wr).1.filterMap callbackOf =
      if wr.opcode ≤ 2 then if wr.cbOnMessage then [.onMessage] else []
      else if wr.opcode = 8 then if wr.cbOnClose then [.onClose] else []
      else [] := by
  have hdata : (wr.opcode = 0 ∨ wr.opcode = 1 ∨ wr.opcode = 2) ↔ wr.opcode ≤ 2 := by omega
  simp only [dispatch, hdata]
  split_ifs <;> rfl

variable (s t : Connections) (e : Event) (nodes : List WsRequest) (socket : ℤ)

theorem read_spec (nodes' : List WsRequest) (socket : ℤ) (bytes : List UInt8)
    (cbs : List Callback) (ret : EventReturn)
    (h : readEvent nodes socket bytes = .ok (nodes',cbs,ret)) :
    (wsRequestGet nodes socket = none ∧ nodes' = nodes ∧ cbs = []) ∨
      ∃ wr new, wsRequestGet nodes socket = some wr ∧ new.socket = wr.socket ∧
        nodes' = wsRequestPut nodes socket new ∧ cbs = raised wr (.read socket bytes) := by
  obtain ⟨⟨o,effects,r⟩,hread,he⟩ := map_ok h
  cases he
  cases hg : wsRequestGet nodes socket with
  | none =>
    rw [hg] at hread
    cases hread
    exact .inl ⟨rfl,rfl,rfl⟩
  | some wr =>
    rw [hg] at hread
    right
    by_cases hb : bytes = []
    · simp only [cbWsRead, hb, if_true] at hread
      cases hread
      exact ⟨wr,wr,rfl,rfl,rfl,by simp [raised, hb]⟩
    · simp only [cbWsRead, hb, if_false] at hread
      split at hread
      · cases hread
      · next p _ =>
        simp only [Except.ok.injEq, Prod.mk.injEq] at hread
        obtain ⟨rfl,heffects⟩ := hread
        refine ⟨wr,{ wr with
          opcode := (frameHeader (receive bytes)).opcode
          payloadLen := (frameHeader (receive bytes)).payloadLength
          payload := some p },rfl,rfl,rfl,?_⟩
        have hfst : (dispatch _).1 = effects := congrArg Prod.fst heffects
        rw [← hfst, dispatch_callbacks, raised, if_neg hb, header_opcode]

/-- What the handler of an event invokes, by the node of the socket. -/
def invoked (s : Connections) (e : Event) : List Callback :=
  match wsRequestGet s.nodes e.socket with
  | none => []
  | some wr => raised wr e

theorem invoked_nil_iff :
    invoked s e = [] ↔ ∀ wr, wsRequestGet s.nodes e.socket = some wr → ¬HasCallback wr e := by
  cases hg : wsRequestGet s.nodes e.socket with
  | none => simp [invoked, hg]
  | some wr => simp [invoked, hg, raised_nil_iff]

theorem invoked_length : (invoked s e).length ≤ 1 := by
  simp only [invoked]
  split
  · simp
  · exact raised_length _ e

/-- A step adds what the handler invokes to the trace of its socket, or starts
the trace again. -/
theorem step_trace (h : step s e = .ok t) :
    (t.trace = Function.update s.trace e.socket (s.trace e.socket++invoked s e)) ∨
      (t.trace = Function.update s.trace e.socket [] ∧ ∃ callbacks,
        e = .handshake e.socket true callbacks) := by
  cases e with
  | handshake socket upgraded callbacks =>
    cases h
    cases upgraded with
    | true => exact .inr ⟨rfl,callbacks,rfl⟩
    | false =>
      left
      have hnil : invoked s (.handshake socket false callbacks) = [] :=
        (invoked_nil_iff s _).mpr (fun _ _ h => h)
      simp [hnil]
  | read socket bytes =>
    obtain ⟨⟨nodes,cbs,ret⟩,hread,rfl⟩ := map_ok h
    left
    rcases read_spec s.nodes nodes socket bytes cbs ret hread with ⟨hg,_,rfl⟩ | ⟨wr,_,hg,_,_,rfl⟩
    · simp [note, invoked, Event.socket, hg]
    · simp [note, invoked, Event.socket, hg]
  | error socket =>
    cases h
    left
    cases hg : wsRequestGet s.nodes socket <;>
      simp [note, invoked, Event.socket, hg, cbWsError, raised]
  | close socket =>
    cases h
    left
    cases hg : wsRequestGet s.nodes socket <;>
      simp [note, invoked, Event.socket, hg, raised]
  | timeout socket =>
    cases h
    left
    cases hg : wsRequestGet s.nodes socket <;>
      simp [note, invoked, Event.socket, hg, cbWsTimeout, raised]

/-- A trace with the close callback in it goes on exactly with nothing. -/
theorem closesLast_append_iff (l cbs : List Callback) (hc : cbs.length ≤ 1)
    (hl : ∀ before after, l = before++.onClose::after → after = []) :
    (∀ before after, l++cbs = before++.onClose::after → after = []) ↔
      (.onClose ∈ l → cbs = []) := by
  constructor
  · intro h hmem
    obtain ⟨before,after,rfl⟩ := List.append_of_mem hmem
    have hnil := h before (after++cbs) (by simp)
    exact (List.append_eq_nil_iff.mp hnil).2
  · intro h before after he
    by_cases hmem : Callback.onClose ∈ l
    · rw [h hmem, List.append_nil] at he
      exact hl before after he
    · rw [List.append_eq_append_iff] at he
      rcases he with ⟨as,rfl,hcbs⟩ | ⟨as,hl',hcbs⟩
      · have hlen := congrArg List.length hcbs
        simp only [List.length_append, List.length_cons] at hlen
        exact List.length_eq_zero_iff.mp (by omega)
      · cases as with
        | nil =>
          have hlen := congrArg List.length hcbs
          simp only [List.length_append, List.length_cons, List.length_nil] at hlen
          exact List.length_eq_zero_iff.mp (by omega)
        | cons a as =>
          simp only [List.cons_append, List.cons.injEq] at hcbs
          rw [hl', ← hcbs.1] at hmem
          exact absurd (by simp) hmem

theorem closesLast_update (l : List Callback) (hs : ClosesLast s)
    (ht : t.trace = Function.update s.trace socket l) :
    ClosesLast t ↔ ∀ before after, l = before++.onClose::after → after = [] := by
  constructor
  · intro h before after hl
    apply h socket before after
    rw [ht, Function.update_self, hl]
  · intro h x before after hx
    by_cases hxs : x = socket
    · subst hxs
      rw [ht, Function.update_self] at hx
      exact h before after hx
    · rw [ht, Function.update_of_ne hxs] at hx
      exact hs x before after hx

theorem step_closesLast_iff (hs : ClosesLast s) (h : step s e = .ok t) :
    ClosesLast t ↔ QuietAfterClose s e := by
  rcases step_trace s t e h with ht | ⟨ht,callbacks,he⟩
  · rw [closesLast_update s t _ _ hs ht,
      closesLast_append_iff _ _ (invoked_length s e) (hs e.socket), invoked_nil_iff]
    rfl
  · rw [closesLast_update s t _ _ hs ht]
    apply iff_of_true
    · intro before after hl
      simp at hl
    · intro _ wr _ hc
      rw [he] at hc
      exact hc

/-- At most one node for each socket, and none where the close callback was
invoked. -/
structure Settled (s : Connections) : Prop where
  nodup : (s.nodes.map WsRequest.socket).Nodup
  closed : ∀ socket, .onClose ∈ s.trace socket → wsRequestGet s.nodes socket = none

theorem get_none_iff : wsRequestGet nodes socket = none ↔ socket ∉ nodes.map WsRequest.socket := by
  induction nodes with
  | nil => simp [wsRequestGet]
  | cons wr nodes ih =>
    by_cases h : wr.socket = socket
    · simp [wsRequestGet, h]
    · simp [wsRequestGet, h, ih, Ne.symm h]

theorem get_socket (wr : WsRequest) (h : wsRequestGet nodes socket = some wr) :
    wr.socket = socket := by
  induction nodes with
  | nil => cases h
  | cons x nodes ih =>
    simp only [wsRequestGet] at h
    split_ifs at h with hx
    · cases h
      exact hx
    · exact ih h

theorem put_sockets (new : WsRequest) (h : new.socket = socket) :
    (wsRequestPut nodes socket new).map WsRequest.socket = nodes.map WsRequest.socket := by
  induction nodes with
  | nil => rfl
  | cons wr nodes ih =>
    by_cases hs : wr.socket = socket
    · simp [wsRequestPut, hs, h]
    · simp [wsRequestPut, hs, ih]

theorem delete_sockets :
    (wsRequestDelete nodes socket).1.map WsRequest.socket =
      (nodes.map WsRequest.socket).erase socket := by
  induction nodes with
  | nil => rfl
  | cons wr nodes ih =>
    by_cases hs : wr.socket = socket
    · simp [wsRequestDelete, hs]
    · simp [wsRequestDelete, hs, ih]

/-- A handler keeps the sockets of the nodes, or it removes its own. -/
theorem step_sockets (h : step s e = .ok t)
    (he : ∀ socket upgraded callbacks, e ≠ .handshake socket upgraded callbacks) :
    (t.nodes.map WsRequest.socket = s.nodes.map WsRequest.socket ∧
        ∀ socket, e ≠ .close socket) ∨
      (t.nodes.map WsRequest.socket = (s.nodes.map WsRequest.socket).erase e.socket) := by
  cases e with
  | handshake socket upgraded callbacks => exact absurd rfl (he socket upgraded callbacks)
  | read socket bytes =>
    obtain ⟨⟨nodes,cbs,ret⟩,hread,rfl⟩ := map_ok h
    left
    refine ⟨?_,fun x hx => by cases hx⟩
    rcases read_spec s.nodes nodes socket bytes cbs ret hread with ⟨_,rfl,_⟩ | ⟨wr,new,hg,hs,rfl,_⟩
    · rfl
    · exact put_sockets s.nodes socket new (hs.trans (get_socket s.nodes socket wr hg))
  | error socket =>
    cases h
    exact .inl ⟨rfl,fun x hx => by cases hx⟩
  | timeout socket =>
    cases h
    exact .inl ⟨rfl,fun x hx => by cases hx⟩
  | close socket =>
    right
    cases hg : wsRequestGet s.nodes socket with
    | none =>
      simp only [step, cbWsClose, hg, Except.ok.injEq] at h
      rw [← h]
      exact (List.erase_of_not_mem ((get_none_iff s.nodes socket).mp hg)).symm
    | some wr =>
      simp only [step, cbWsClose, hg, Except.ok.injEq] at h
      rw [← h]
      exact delete_sockets s.nodes socket

theorem close_invoked (hg : NoCloseFrame s e) (h : .onClose ∈ invoked s e) :
    ∃ socket, e = .close socket := by
  cases hn : wsRequestGet s.nodes e.socket with
  | none => simp [invoked, hn] at h
  | some wr =>
    simp only [invoked, hn] at h
    cases e with
    | handshake socket upgraded callbacks => simp [raised] at h
    | close socket => exact ⟨socket,rfl⟩
    | error socket =>
      simp only [raised] at h
      split_ifs at h <;> simp at h
    | timeout socket =>
      simp only [raised] at h
      split_ifs at h <;> simp at h
    | read socket bytes =>
      simp only [raised] at h
      split_ifs at h with _ _ _ h8 hc
      all_goals simp at h
      exact absurd h8 (hg socket bytes wr rfl hn hc)

theorem handshake_settled (upgraded : Bool) (callbacks : WsCallbacks) (hs : Settled s)
    (t : Connections) (h : step s (.handshake socket upgraded callbacks) = .ok t) : Settled t := by
  cases h
  have hdel := delete_sockets s.nodes socket
  have hnot : socket ∉ (s.nodes.map WsRequest.socket).erase socket := hs.nodup.not_mem_erase
  have hnd := hs.nodup.erase socket
  rw [← hdel] at hnot hnd
  cases upgraded with
  | false =>
    refine ⟨hnd,?_⟩
    intro x hx
    have hold := (get_none_iff _ _).mp (hs.closed x hx)
    simp only [wsHandshake, get_none_iff, hdel, Bool.false_eq_true, if_false]
    exact fun hm => hold (List.mem_of_mem_erase hm)
  | true =>
    simp only [wsHandshake, wsRequestAdd, if_true]
    refine ⟨?_,?_⟩
    · rw [List.map_append, List.map_singleton, ← List.concat_eq_append]
      exact hnd.concat hnot
    · intro x hx
      by_cases hxs : x = socket
      · subst hxs
        simp at hx
      · simp only [Function.update_of_ne hxs] at hx
        have hold := (get_none_iff _ _).mp (hs.closed x hx)
        rw [get_none_iff, List.map_append, hdel, List.mem_append]
        rintro (hm | hm)
        · exact hold (List.mem_of_mem_erase hm)
        · exact hxs (List.mem_singleton.mp hm)

theorem step_settled (hs : Settled s) (hg : NoCloseFrame s e) (h : step s e = .ok t) :
    Settled t := by
  by_cases hh : ∃ socket upgraded callbacks, e = .handshake socket upgraded callbacks
  · obtain ⟨socket,upgraded,callbacks,rfl⟩ := hh
    exact handshake_settled s socket upgraded callbacks hs t h
  · have hne : ∀ socket upgraded callbacks, e ≠ .handshake socket upgraded callbacks := by
      intro socket upgraded callbacks he
      exact hh ⟨socket,upgraded,callbacks,he⟩
    rcases step_trace s t e h with ht | ⟨_,callbacks,he⟩
    · have hsub : ∀ x, x ∈ t.nodes.map WsRequest.socket → x ∈ s.nodes.map WsRequest.socket := by
        intro x hx
        rcases step_sockets s t e h hne with ⟨hn,_⟩ | hn
        · rwa [hn] at hx
        · rw [hn] at hx
          exact List.mem_of_mem_erase hx
      refine ⟨?_,?_⟩
      · rcases step_sockets s t e h hne with ⟨hn,_⟩ | hn
        · rw [hn]
          exact hs.nodup
        · rw [hn]
          exact hs.nodup.erase e.socket
      · intro x hx
        rw [get_none_iff]
        by_cases hold : Callback.onClose ∈ s.trace x
        · exact fun hm => (get_none_iff _ _).mp (hs.closed x hold) (hsub x hm)
        · have hxe : x = e.socket := by
            by_contra hxe
            rw [ht, Function.update_of_ne hxe] at hx
            exact hold hx
          rw [ht, hxe, Function.update_self, List.mem_append] at hx
          rw [hxe] at hold
          obtain ⟨socket,rfl⟩ := close_invoked s e hg (hx.resolve_left hold)
          rcases step_sockets s t _ h hne with ⟨_,hnot⟩ | hn
          · exact absurd rfl (hnot socket)
          · rw [hn, hxe]
            exact hs.nodup.not_mem_erase
    · exact absurd he (hne _ _ _)

theorem settled_quiet (hs : Settled s) : QuietAfterClose s e := by
  intro hc wr hg
  rw [hs.closed e.socket hc] at hg
  cases hg

/-- The close callback is the last one of every connection exactly when no
connection that has seen it gets another event with a callback; without close
frames that is always so. -/
theorem close_last_iff (es : List Event) :
    (Along step (After ClosesLast) es initial ↔
      Along step (Taken QuietAfterClose) es initial) ∧
    (Along step (Taken NoCloseFrame) es initial →
      Along step (After ClosesLast) es initial) := by
  have hstart : ClosesLast initial := by
    intro socket before after h
    simp [initial] at h
  have hiff : Along step (After ClosesLast) es initial ↔
      Along step (Taken QuietAfterClose) es initial := by
    apply along_iff (I := ClosesLast) _ _ es initial hstart
    · intro s e t hs hg h
      exact (step_closesLast_iff s t e hs h).mpr (hg t rfl)
    · intro s e hs
      constructor
      · intro h t ht
        exact (step_closesLast_iff s t e hs ht).mp (h t ht)
      · intro h t ht
        exact (step_closesLast_iff s t e hs ht).mpr (h t ht)
  refine ⟨hiff,?_⟩
  intro h
  rw [hiff]
  have hsettled : Settled initial := ⟨List.nodup_nil,fun _ h => by cases h⟩
  apply along_of_invariant (I := Settled) _ _ es initial hsettled h
  · intro s e t hs hg ht
    exact step_settled s t e hs (hg t rfl) ht
  · intro s e hs _ t _
    exact settled_quiet s e hs

/-- A close frame and the close event that follows it. -/
theorem close_twice :
    Yields (run step [.handshake 7 true ⟨true,true,true,true⟩,.read 7 [0x88,0x80,1,2,3,4],.close 7]
        initial)
      (fun s => s.trace 7 = [.onClose,.onClose]) := by
  decide +kernel

end Duda.WebSocketEvents
