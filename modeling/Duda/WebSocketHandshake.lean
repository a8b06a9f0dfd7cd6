import Duda.CheckedMemory
import Duda.WebSocketEvents

/-!
# The websocket handshake

`ws_handshake` decides by three headers whether a request becomes a websocket
connection. The search in the `Upgrade` header is made by the request object,
whose return value mixes a position with an error. It is called with the
arguments that are documented for a header that Monkey knows, and for these the
answer is the error.
-/

set_option autoImplicit false

namespace Duda.WebSocketHandshake
open Duda.CheckedMemory
open Duda.WebSocketRead (WsRequest)
open Duda.WebSocketEvents (WsCallbacks wsRequestGet wsRequestDelete wsRequestAdd wsRequestCreate)

/-- `WS_CONN_UPGRADE`, the text `Upgrade`. -/
def wsConnUpgrade : List UInt8 :=
  [85,112,103,114,97,100,101]

/-- `WS_UPGRADE_WS`, the text `websocket`. -/
def wsUpgradeWs : List UInt8 :=
  [119,101,98,115,111,99,107,101,116]

/-- `WS_GUID`. -/
def wsGuid : List UInt8 :=
  [50,53,56,69,65,70,65,53,45,69,57,49,52,45,52,55,68,65,45,57,53,67,65,45,67,53,65,66,48,68,67,
    56,53,66,49,49]

/-- `WS_RESP_SWITCHING`, the status line `HTTP/1.1 101 Switching Protocols`. -/
def wsRespSwitching : List UInt8 :=
  [72,84,84,80,47,49,46,49,32,49,48,49,32,83,119,105,116,99,104,105,110,103,32,80,114,111,116,111,
    99,111,108,115,13,10]

/-- `WS_RESP_UPGRADE`, the header `Upgrade: websocket`. -/
def wsRespUpgrade : List UInt8 :=
  [85,112,103,114,97,100,101,58,32,119,101,98,115,111,99,107,101,116]

/-- `WS_RESP_CONNECTION`, the header `Connection: Upgrade`. -/
def wsRespConnection : List UInt8 :=
  [67,111,110,110,101,99,116,105,111,110,58,32,85,112,103,114,97,100,101]

/-- `WS_RESP_WS_ACCEPT`, the beginning `Sec-WebSocket-Accept: ` of a header. -/
def wsRespWsAccept : List UInt8 :=
  [83,101,99,45,87,101,98,83,111,99,107,101,116,45,65,99,99,101,112,116,58,32]

/-- The headers of a request as Monkey has parsed them: the `Connection` header
in the session request, the `Upgrade` header, and the value found for
`Sec-WebSocket-Key`. `session` and `request` say that these pointers are set. -/
structure Request where
  socket : ℤ
  session : Bool
  request : Bool
  connection : Option (List UInt8)
  upgrade : Option (List UInt8)
  secWebSocketKey : Option (List UInt8)
  deriving DecidableEq, Repr

/-- Monkey's `str_search_n` with `MK_STR_INSENSITIVE`. -/
abbrev Search := List UInt8 → List UInt8 → ℕ → ℤ

/-- `duda_request_header_contains` for the header `MK_HEADER_UPGRADE`, which
Monkey finds without a key. -/
def headerContains (search : Search) (dr : Request) (key : Option (List UInt8)) (len : ℕ)
    (val : List UInt8) : ℤ :=
  if dr.session = false ∨ dr.request = false ∨ key = none then -1
  else
    match dr.upgrade with
    | some header => if len ≠ header.length then -1 else search header val len
    | none => -1

/-- The status line, the headers that are added, and the return value. -/
structure Response where
  status : List UInt8
  headers : List (List UInt8)
  ret : ℤ
  deriving DecidableEq, Repr

/-- `400`, as `http_status` sends it. -/
def badRequest : List UInt8 := [52,48,48]

/-- `ws_invalid_upgrade`. -/
def wsInvalidUpgrade (nodes : List WsRequest) : List WsRequest × Response :=
  (nodes,⟨badRequest,[],-1⟩)

/-- The handshake of an accepted request. The key and the GUID are composed in a
buffer of 256 bytes; `acceptToken` is the digest in base64. -/
def wsAccept (acceptToken : List UInt8 → List UInt8) (nodes : List WsRequest) (dr : Request)
    (callbacks : WsCallbacks) (key : List UInt8) : Except Access (List WsRequest × Response) :=
  let buffer : Vector UInt8 256 := Vector.replicate 256 0
  (fill (key++wsGuid++[0]) 0 (key.length+wsGuid.length+1) 0 buffer).map (fun buffer =>
    let token := acceptToken (buffer.toList.take (key.length+wsGuid.length))
    (wsRequestAdd nodes (wsRequestCreate dr.socket callbacks),
      ⟨wsRespSwitching,[wsRespUpgrade,wsRespConnection,wsRespWsAccept++token],0⟩))

/-- `ws_handshake`. -/
def wsHandshake (search : Search) (acceptToken : List UInt8 → List UInt8)
    (nodes : List WsRequest) (dr : Request) (callbacks : WsCallbacks) :
    Except Access (List WsRequest × Response) :=
  let nodes := match wsRequestGet nodes dr.socket with
    | some _ => (wsRequestDelete nodes dr.socket).1
    | none => nodes
  match dr.connection with
  | none => .ok (wsInvalidUpgrade nodes)
  | some connection =>
    if search connection wsConnUpgrade connection.length < 0 then .ok (wsInvalidUpgrade nodes)
    else if headerContains search dr none 0 wsUpgradeWs ≤ 0 then .ok (wsInvalidUpgrade nodes)
    else
      match dr.secWebSocketKey with
      | none => .ok (wsInvalidUpgrade nodes)
      | some key => wsAccept acceptToken nodes dr callbacks key

def lower (b : UInt8) : UInt8 := if 65 ≤ b ∧ b ≤ 90 then b+32 else b

/-- The text `val` stands in `data`, at some position and in any case. -/
def Contains (data val : List UInt8) : Prop :=
  ∃ before after, data.map lower = before++val.map lower++after

/-- The request asks for a websocket connection. -/
structure Upgradable (dr : Request) : Prop where
  connection : ∃ value, dr.connection = some value ∧ Contains value wsConnUpgrade
  upgrade : ∃ value, dr.upgrade = some value ∧ Contains value wsUpgradeWs
  key : ∃ value, dr.secWebSocketKey = some value

/-- An upgrade returns 0 and registers the connection. -/
def Upgrades (nodes : List WsRequest) (dr : Request) (callbacks : WsCallbacks)
    (r : Except Access (List WsRequest × Response)) : Prop :=
  ∃ rest response, r = .ok (rest++[wsRequestCreate dr.socket callbacks],response) ∧
    response.ret = 0 ∧ rest.Sublist nodes

/-- A refusal answers 400, returns -1 and registers nothing. -/
def Refuses (nodes : List WsRequest) (r : Except Access (List WsRequest × Response)) : Prop :=
  ∃ rest response, r = .ok (rest,response) ∧ response.status = badRequest ∧ response.ret = -1 ∧
    rest.Sublist nodes

/-- The requests for a websocket connection are upgraded, the others refused. -/
def Decides (nodes : List WsRequest) (dr : Request) (callbacks : WsCallbacks)
    (r : Except Access (List WsRequest × Response)) : Prop :=
  (Upgrades nodes dr callbacks r ↔ Upgradable dr) ∧ (¬Upgradable dr → Refuses nodes r)

theorem headerContains_unkeyed (search : Search) (dr : Request) (len : ℕ) (val : List UInt8) :
    headerContains search dr none len val = -1 := by
  simp [headerContains]

theorem delete_sublist (nodes : List WsRequest) (socket : ℤ) :
    ((wsRequestDelete nodes socket).1).Sublist nodes := by
  induction nodes with
  | nil => exact List.Sublist.refl []
  | cons wr nodes ih =>
    by_cases h : wr.socket = socket
    · simp [wsRequestDelete, h]
    · simpa [wsRequestDelete, h] using ih

section Handshake

variable (search : Search) (acceptToken : List UInt8 → List UInt8)
variable (nodes : List WsRequest) (dr : Request) (callbacks : WsCallbacks)

/-- Every request is refused. -/
theorem handshake_refuses :
    ∃ rest, wsHandshake search acceptToken nodes dr callbacks = .ok (wsInvalidUpgrade rest) ∧
      rest.Sublist nodes := by
  refine ⟨match wsRequestGet nodes dr.socket with
    | some _ => (wsRequestDelete nodes dr.socket).1
    | none => nodes,?_,?_⟩
  · simp only [wsHandshake, headerContains_unkeyed]
    cases dr.connection with
    | none => rfl
    | some connection => simp
  · cases wsRequestGet nodes dr.socket with
    | none => exact List.Sublist.refl nodes
    | some wr => exact delete_sublist nodes dr.socket

/-- The handshake decides right exactly about the requests that ask for no
websocket connection. -/
theorem handshake_decides_iff :
    Decides nodes dr callbacks (wsHandshake search acceptToken nodes dr callbacks) ↔
      ¬Upgradable dr := by
  obtain ⟨rest,hr,hsub⟩ := handshake_refuses search acceptToken nodes dr callbacks
  have hno : ¬Upgrades nodes dr callbacks (wsHandshake search acceptToken nodes dr callbacks) := by
    rintro ⟨rest',response,hup,hret,_⟩
    cases hr.symm.trans hup
    cases hret
  constructor
  · intro h hup
    exact hno (h.1.mpr hup)
  · intro hup
    exact ⟨iff_of_false hno hup,fun _ => ⟨rest,_,hr,rfl,rfl,hsub⟩⟩

end Handshake

/-- The request that a browser sends. -/
def browserRequest : Request :=
  ⟨7,true,true,some wsConnUpgrade,some wsUpgradeWs,some [100,71,104,108]⟩

/-- It asks for a websocket connection, and is answered with 400. -/
theorem browser_refused :
    Upgradable browserRequest ∧
      ∀ (search : Search) (acceptToken : List UInt8 → List UInt8) (callbacks : WsCallbacks),
        wsHandshake search acceptToken [] browserRequest callbacks =
          .ok ([],⟨badRequest,[],-1⟩) := by
  refine ⟨⟨⟨_,rfl,[],[],by simp⟩,⟨_,rfl,[],[],by simp⟩,⟨_,rfl⟩⟩,?_⟩
  intro search acceptToken callbacks
  simp [wsHandshake, headerContains_unkeyed, browserRequest, wsRequestGet, wsInvalidUpgrade]

end Duda.WebSocketHandshake
