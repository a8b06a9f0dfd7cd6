import Duda.CheckedMemory

/-!
# Reading one websocket frame

`cb_ws_read` decodes a frame from a zero-filled buffer of 256 bytes and copies
the payload into a block of the same size. The announced length comes from the
peer in three encodings and is not compared with the size of either block, so
the accesses are the observable here: the model stops at the first one outside.
-/

set_option autoImplicit false

namespace Duda.WebSocketRead
open Duda.CheckedMemory

def bufferSize : ℕ := 256

def wsFrameMaskLen : ℕ := 4

/-- `struct ws_request`, as far as the frame callbacks use it; a callback is
present or `NULL`. -/
structure WsRequest where
  socket : ℤ
  opcode : ℕ
  payloadLen : ℕ
  payload : Option (Vector UInt8 256)
  cbOnMessage : Bool
  cbOnError : Bool
  cbOnClose : Bool
  cbOnTimeout : Bool

inductive EventReturn where
  | close
  | owned
  deriving DecidableEq, Repr

/-- What the callback does besides filling the request. -/
inductive Effect where
  | onMessage
  | onClose
  | sendData (opcode : ℕ)
  deriving DecidableEq, Repr

structure Frame where
  opcode : ℕ
  mask : Bool
  payloadLength : ℕ
  maskingKeyOffset : ℕ
  deriving DecidableEq, Repr

def checkBit (x : UInt8) (pos : UInt8) : Bool := (x &&& ((1:UInt8) <<< pos)) != 0

/-- `memcpy(&payload_length, buf + 2, 8)` on a little-endian host. -/
def hostWord (buf : Vector UInt8 256) : ℕ :=
  buf[2].toNat+2^8*buf[3].toNat+2^16*buf[4].toNat+2^24*buf[5].toNat+
    2^32*buf[6].toNat+2^40*buf[7].toNat+2^48*buf[8].toNat+2^56*buf[9].toNat

def frameHeader (buf : Vector UInt8 256) : Frame :=
  let payloadLength := (buf[1] &&& 0x7f).toNat
  let opcode := (buf[0] &&& 0x0f).toNat
  let mask := checkBit buf[1] 7
  if payloadLength = 126 then ⟨opcode,mask,buf[2].toNat*256+buf[3].toNat,4⟩
  else if payloadLength = 127 then ⟨opcode,mask,hostWord buf,10⟩
  else ⟨opcode,mask,payloadLength,2⟩

theorem mod_four_lt (i : ℕ) : i % 4 < 4 := Nat.mod_lt i (by decide)

/-- The payload copy, with the masking key read first when the frame has one.
The source compares the sizes here and does nothing about the result. -/
def framePayload (buf : Vector UInt8 256) (fr : Frame) : Except Access (Vector UInt8 256) :=
  let payload : Vector UInt8 256 := Vector.replicate 256 0
  if fr.mask then
    match copyLoop (fun _ x => x) buf fr.maskingKeyOffset wsFrameMaskLen 0
        (Vector.replicate 4 (0:UInt8)) with
    | .error e => .error e
    | .ok key => copyLoop (fun i x => x ^^^ getElem key (i % 4) (mod_four_lt i)) buf
        (fr.maskingKeyOffset+wsFrameMaskLen) fr.payloadLength 0 payload
  else copyLoop (fun _ x => x) buf fr.maskingKeyOffset fr.payloadLength 0 payload

/-- The receive buffer after `memset` and `socket_read`. -/
def receive (bytes : List UInt8) : Vector UInt8 256 := Vector.ofFn (fun i => bytes.getD i 0)

def dispatch (wr : WsRequest) : List Effect × EventReturn :=
  if wr.opcode = 0 ∨ wr.opcode = 1 ∨ wr.opcode = 2 then
    (if wr.cbOnMessage then [.onMessage] else [], .owned)
  else if wr.opcode = 8 then
    ((if wr.cbOnClose then [.onClose] else []) ++ [.sendData 8], .close)
  else ([], .owned)

/-- `cb_ws_read`, given the request registered for the socket and the bytes
that `socket_read` returns (none on error or end of file). -/
def cbWsRead (wr : Option WsRequest) (bytes : List UInt8) :
    Except Access (Option WsRequest × List Effect × EventReturn) :=
  match wr with
  | none => .ok (none,[],.close)
  | some wr =>
    if bytes = [] then .ok (some wr,[],.close)
    else
      let buf := receive bytes
      let fr := frameHeader buf
      match framePayload buf fr with
      | .error e => .error e
      | .ok payload =>
        let wr := { wr with
          opcode := fr.opcode, payloadLen := fr.payloadLength, payload := some payload }
        .ok (some wr,dispatch wr)

/-- The frame that the bytes announce, header and masking key included, is at
most as long as the buffers. Bytes not received count as zero. -/
def FrameFits (bytes : List UInt8) : Prop :=
  let b := fun i => (bytes.getD i 0).toNat
  let key := if 128 ≤ b 1 then 4 else 0
  if b 1 % 128 = 126 then 4+key+(256*b 2+b 3) ≤ 256
  else if b 1 % 128 = 127 then
    10+key+(b 2+2^8*b 3+2^16*b 4+2^24*b 5+2^32*b 6+2^40*b 7+2^48*b 8+2^56*b 9) ≤ 256
  else True

instance (bytes : List UInt8) : Decidable (FrameFits bytes) := by
  unfold FrameFits
  infer_instance

theorem low_bits (x : UInt8) : (x &&& 0x7f).toNat = x.toNat % 128 := by
  rw [UInt8.toNat_and]
  exact Nat.and_two_pow_sub_one_eq_mod x.toNat 7

theorem mask_bit (x : UInt8) : checkBit x 7 = decide (128 ≤ x.toNat) := by
  have h : ∀ k : Fin 256, checkBit (UInt8.ofNat k.val) 7 = decide (128 ≤ k.val) := by
    decide +kernel
  simpa using h ⟨x.toNat,x.toNat_lt⟩

theorem receive_get (bytes : List UInt8) (i : ℕ) (h : i < 256) :
    (receive bytes)[i] = bytes.getD i 0 := by
  simp [receive]

theorem header_offset_le (buf : Vector UInt8 256) : (frameHeader buf).maskingKeyOffset ≤ 10 := by
  simp only [frameHeader]
  split_ifs <;> simp

theorem header_mask (buf : Vector UInt8 256) :
    (frameHeader buf).mask = decide (128 ≤ buf[1].toNat) := by
  rw [← mask_bit]
  simp only [frameHeader]
  split_ifs <;> rfl

/-- The payload copy stays inside exactly when header, key and announced
payload together fit; a frame without payload always does. -/
theorem payload_ok_iff (buf : Vector UInt8 256) (fr : Frame) (ho : fr.maskingKeyOffset ≤ 10) :
    (∃ p, framePayload buf fr = .ok p) ↔
      fr.maskingKeyOffset+(if fr.mask then 4 else 0)+fr.payloadLength ≤ 256 := by
  unfold framePayload
  cases hm : fr.mask with
  | false =>
    simp only [Bool.false_eq_true, if_false]
    rw [copyLoop_ok_iff]
    omega
  | true =>
    obtain ⟨key,hkey⟩ := (copyLoop_ok_iff (fun _ x => x) buf fr.maskingKeyOffset wsFrameMaskLen 0
      (Vector.replicate 4 (0:UInt8))).mpr (Or.inr ⟨by unfold wsFrameMaskLen; omega,le_rfl⟩)
    simp only [if_true, hkey]
    rw [copyLoop_ok_iff]
    unfold wsFrameMaskLen
    omega

theorem frame_fits_iff (bytes : List UInt8) :
    FrameFits bytes ↔
      (frameHeader (receive bytes)).maskingKeyOffset+
        (if (frameHeader (receive bytes)).mask then 4 else 0)+
        (frameHeader (receive bytes)).payloadLength ≤ 256 := by
  rw [header_mask]
  simp only [FrameFits, frameHeader, hostWord, low_bits, receive_get]
  split_ifs with h1 h2 h3 h4 h5
  all_goals simp_all <;> omega

/-- `cb_ws_read` touches only its two buffers exactly when the announced frame
fits them; the announced length alone decides, whatever was received. -/
theorem ws_read_in_bounds_iff (wr : WsRequest) (bytes : List UInt8)
    (hn : 1 ≤ bytes.length ∧ bytes.length ≤ bufferSize) :
    (∃ r, cbWsRead (some wr) bytes = .ok r) ↔ FrameFits bytes := by
  have hne : bytes ≠ [] := List.ne_nil_of_length_pos hn.1
  rw [frame_fits_iff, ← payload_ok_iff _ _ (header_offset_le _)]
  simp only [cbWsRead, if_neg hne]
  cases framePayload (receive bytes) (frameHeader (receive bytes)) with
  | error e => simp
  | ok p => simp

/-- A client that completed the handshake, with every callback set. -/
def openRequest : WsRequest := ⟨7,0,0,none,true,true,true,true⟩

/-- A masked text frame of two bytes. -/
theorem short_frame_in_bounds :
    (1 ≤ [0x81,0x82,1,2,3,4,0x69,0x6b].length ∧
        [0x81,0x82,1,2,3,4,0x69,0x6b].length ≤ bufferSize) ∧
      ((∃ r, cbWsRead (some openRequest) [0x81,0x82,1,2,3,4,0x69,0x6b] = .ok r) ↔
        FrameFits [0x81,0x82,1,2,3,4,0x69,0x6b]) :=
  ⟨by decide, ws_read_in_bounds_iff openRequest [0x81,0x82,1,2,3,4,0x69,0x6b] (by decide)⟩

/-- Four bytes that announce an unmasked payload of 300 bytes. -/
theorem long_frame_overruns :
    ¬ ∃ r, cbWsRead (some openRequest) [0x82,126,1,44] = .ok r := by
  intro h
  have hp : ∃ p, framePayload (receive [0x82,126,1,44]) (frameHeader (receive [0x82,126,1,44])) =
      .ok p := by
    obtain ⟨r,hr⟩ := h
    simp only [cbWsRead, reduceCtorEq, if_false] at hr
    split at hr
    · cases hr
    · next p hp => exact ⟨p,hp⟩
  rw [payload_ok_iff _ _ (header_offset_le _), ← frame_fits_iff] at hp
  revert hp
  decide

end Duda.WebSocketRead
