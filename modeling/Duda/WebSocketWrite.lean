import Duda.CheckedMemory
import Duda.FrameCodec
import Duda.WebSocketRead

/-!
# Writing one websocket frame

`ws_send_data` composes the frame in a zero-filled buffer of 256 bytes and
hands the buffer to the socket. The two longer forms of the length are chosen
at the right sizes, but the shorter of them loses bits of the length, and every
frame of the longer one is larger than the buffer.
-/

set_option autoImplicit false

namespace Duda.WebSocketWrite
open Duda.CheckedMemory Duda.FrameCodec
open Duda.WebSocketRead hiding Frame

/-- The call of `socket_send`, and the value returned to the caller. -/
structure Sent where
  socket : ℤ
  bytes : List UInt8
  ret : ℤ
  deriving DecidableEq, Repr

/-- The eight bytes of `payload_len` on a little-endian host. -/
def hostBytes (n : UInt64) : List UInt8 :=
  [n.toUInt8,(n >>> 8).toUInt8,(n >>> 16).toUInt8,(n >>> 24).toUInt8,
    (n >>> 32).toUInt8,(n >>> 40).toUInt8,(n >>> 48).toUInt8,(n >>> 56).toUInt8]

/-- The value that `buf[0] |= ...` leaves in the buffer. -/
def flagsByte (old : UInt8) (fin rsv1 rsv2 rsv3 opcode : UInt32) : UInt8 :=
  (old.toUInt32 |||
    ((fin <<< 7) ||| (rsv1 <<< 6) ||| (rsv2 <<< 5) ||| (rsv3 <<< 4) ||| opcode)).toUInt8

/-- The value that `buf[1] |= ...` leaves in the buffer. -/
def lengthByte (old : UInt8) (frameMask : UInt32) (n : UInt64) : UInt8 :=
  (old.toUInt64 ||| ((frameMask <<< 7).toUInt64 ||| n)).toUInt8

local instance bufferNeZero : NeZero 256 := ⟨by decide⟩

/-- The assignment `buf[i] = b`. -/
def assign {n : ℕ} (buf : Vector UInt8 n) (i : Fin n) (b : UInt8) : Vector UInt8 n :=
  buf.set i.val b i.isLt

theorem assign_toList {n : ℕ} (buf : Vector UInt8 n) (i : Fin n) (b : UInt8) :
    (assign buf i b).toList = buf.toList.set i.val b := Vector.toList_set ..

theorem get_eq {n : ℕ} (buf : Vector UInt8 n) (i : Fin n) : buf.get i = getElem buf i.val i.isLt :=
  rfl

/-- The length in the buffer, and the offset of the payload. -/
def sendHeader (buf : Vector UInt8 256) (payloadLen : UInt64) :
    Except Access (Vector UInt8 256 × ℕ) :=
  let frameMask : UInt32 := 0
  if payloadLen < 126 then
    .ok (assign buf 1 (lengthByte (buf.get 1) frameMask payloadLen),2)
  else if payloadLen ≤ 0xFFFF then
    let buf := assign buf 1 (lengthByte (buf.get 1) frameMask 126)
    let buf := assign buf 2 (payloadLen >>> 8).toUInt8
    .ok (assign buf 3 (payloadLen &&& 0x0F).toUInt8,4)
  else (fill (hostBytes payloadLen) 2 8 0
    (assign buf 1 (lengthByte (buf.get 1) frameMask 127))).map (·,10)

/-- `ws_send_data`, with the result of `socket_send` as a parameter. -/
def wsSendData (sent : ℤ) (sockfd : ℤ) (fin rsv1 rsv2 rsv3 opcode : UInt32) (payloadLen : UInt64)
    (payloadData : List UInt8) : Except Access Sent :=
  let buf : Vector UInt8 256 := Vector.replicate 256 0
  let buf := assign buf 0 (flagsByte (buf.get 0) fin rsv1 rsv2 rsv3 opcode)
  (sendHeader buf payloadLen).bind (fun (buf,offset) =>
    (fill payloadData offset payloadLen.toNat 0 buf).map (fun buf =>
      ⟨sockfd,buf.toList.take (offset+payloadLen.toNat),if sent ≤ 0 then -1 else sent⟩))

/-- `ws_write`; `data` is the block of `len` bytes at the pointer. -/
def wsWrite (sent : ℤ) (wr : WsRequest) (code : UInt32) (data : List UInt8) : Except Access Sent :=
  wsSendData sent wr.socket 1 0 0 0 code (UInt64.ofNat data.length) data

local instance eightNeZero : NeZero 8 := ⟨by decide⟩
local instance sixteenNeZero : NeZero 16 := ⟨by decide⟩

/-- The unmasked and unfragmented frame of a server. -/
def serverFrame (code : UInt32) (data : List UInt8) : Frame :=
  ⟨true,0,Fin.ofNat 16 code.toNat,none,data⟩

/-- The bytes given to the socket are the frame, and a decoder finds the
opcode and the payload in them. -/
def SendsFrame (r : Except Access Sent) (wr : WsRequest) (code : UInt32) (data : List UInt8) :
    Prop :=
  ∃ s, r = .ok s ∧ s.socket = wr.socket ∧ s.bytes = encode (serverFrame code data) ∧
    decode s.bytes = some (serverFrame code data,[])

variable (sent : ℤ) (wr : WsRequest) (code : UInt32) (n : ℕ) (data : List UInt8)

theorem serverFrame_encode :
    encode (serverFrame code data) =
      UInt8.ofNat (128+code.toNat % 16)::(lengthField 0 data.length++data) := by
  simp [encode, serverFrame, firstByte, maskBit, keyBytes, applyMask, Fin.ofNat]

theorem length_toNat (hn : data.length < 2^63) :
    (UInt64.ofNat data.length).toNat = data.length := by
  rw [UInt64.toNat_ofNat', Nat.mod_eq_of_lt (by omega)]

/-- The buffer once the flags and the opcode are in place. -/
def opened (code : UInt32) : Vector UInt8 256 :=
  assign (Vector.replicate 256 0) 0 (flagsByte 0 1 0 0 0 code)

theorem flagsByte_code (hc : code < 16) :
    flagsByte 0 1 0 0 0 code = UInt8.ofNat (128+code.toNat % 16) := by
  have h : ∀ k : Fin 16, flagsByte 0 1 0 0 0 (UInt32.ofNat k.val) = UInt8.ofNat (128+k.val) := by
    decide
  have hlt : code.toNat < 16 := by simpa [UInt32.lt_iff_toNat_lt] using hc
  rw [Nat.mod_eq_of_lt hlt, ← h ⟨code.toNat,hlt⟩, UInt32.ofNat_toNat]

theorem lengthByte_small (hn : n < 128) : lengthByte 0 0 (UInt64.ofNat n) = UInt8.ofNat n := by
  have h : ∀ k : Fin 128, lengthByte 0 0 (UInt64.ofNat k.val) = UInt8.ofNat k.val := by
    decide +kernel
  exact h ⟨n,hn⟩

theorem wsWrite_eq (hn : data.length < 2^63) :
    wsWrite sent wr code data =
      (sendHeader (opened code) (UInt64.ofNat data.length)).bind (fun (buf,offset) =>
        (fill data offset data.length 0 buf).map (fun buf =>
          ⟨wr.socket,buf.toList.take (offset+data.length),if sent ≤ 0 then -1 else sent⟩)) := by
  simp only [wsWrite, wsSendData, length_toNat data hn, opened, get_eq, Vector.getElem_replicate]

/-- A frame that fits: the header bytes and then the payload. -/
theorem wsWrite_fits (buf : Vector UInt8 256) (offset : ℕ) (hn : data.length < 2^63)
    (hh : sendHeader (opened code) (UInt64.ofNat data.length) = .ok (buf,offset))
    (hf : offset+data.length ≤ 256) :
    wsWrite sent wr code data =
      .ok ⟨wr.socket,buf.toList.take offset++data,if sent ≤ 0 then -1 else sent⟩ := by
  obtain ⟨d,hd⟩ := (fill_ok_iff data offset data.length 0 buf).mpr (.inr ⟨by omega,by omega⟩)
  have ht := fill_take data offset data.length 0 buf d (by omega) (by omega) hd
  rw [add_zero, List.drop_zero, List.take_length] at ht
  rw [wsWrite_eq sent wr code data hn, hh]
  simp only [Except.bind, hd, Except.map, ht]

theorem wsWrite_overruns (buf : Vector UInt8 256) (offset : ℕ) (hn : data.length < 2^63)
    (hh : sendHeader (opened code) (UInt64.ofNat data.length) = .ok (buf,offset))
    (hf : 256 < offset+data.length) (hd : 0 < data.length) (s : Sent) :
    wsWrite sent wr code data ≠ .ok s := by
  have hfill := (fill_ok_iff data offset data.length 0 buf).not.mpr (by omega)
  rw [wsWrite_eq sent wr code data hn, hh]
  simp only [Except.bind]
  cases hr : fill data offset data.length 0 buf with
  | ok d => exact absurd ⟨d,hr⟩ hfill
  | error e => simp [Except.map]

theorem ofNat_lt (m : ℕ) (hn : n < 2^63) (hm : m < 2^63) :
    UInt64.ofNat n < UInt64.ofNat m ↔ n < m := by
  rw [UInt64.lt_iff_toNat_lt, UInt64.toNat_ofNat', UInt64.toNat_ofNat',
    Nat.mod_eq_of_lt (by omega), Nat.mod_eq_of_lt (by omega)]

theorem ofNat_le (m : ℕ) (hn : n < 2^63) (hm : m < 2^63) :
    UInt64.ofNat n ≤ UInt64.ofNat m ↔ n ≤ m := by
  rw [UInt64.le_iff_toNat_le, UInt64.toNat_ofNat', UInt64.toNat_ofNat',
    Nat.mod_eq_of_lt (by omega), Nat.mod_eq_of_lt (by omega)]

theorem opened_zero : (opened code).get 1 = 0 := by
  simp [opened, assign, get_eq]

theorem sendHeader_short (hn : n < 126) :
    sendHeader (opened code) (UInt64.ofNat n) = .ok (assign (opened code) 1 (UInt8.ofNat n),2) := by
  have hlt : UInt64.ofNat n < 126 := (ofNat_lt n 126 (by omega) (by omega)).mpr hn
  simp only [sendHeader, if_pos hlt, opened_zero, lengthByte_small n (by omega)]

theorem sendHeader_medium (hl : 126 ≤ n) (hh : n ≤ 0xFFFF) :
    sendHeader (opened code) (UInt64.ofNat n) =
      .ok (assign (assign (assign (opened code) 1 126) 2 (UInt64.ofNat n >>> 8).toUInt8) 3
        (UInt64.ofNat n &&& 0x0F).toUInt8,4) := by
  have h1 : ¬UInt64.ofNat n < 126 := (ofNat_lt n 126 (by omega) (by omega)).not.mpr (by omega)
  have h2 : UInt64.ofNat n ≤ 0xFFFF := (ofNat_le n 0xFFFF (by omega) (by omega)).mpr hh
  have hb : lengthByte 0 0 126 = 126 := lengthByte_small 126 (by omega)
  simp only [sendHeader, if_neg h1, if_pos h2, opened_zero, hb]

theorem sendHeader_long (hn : n < 2^63) (hl : 0xFFFF < n) :
    ∃ buf, sendHeader (opened code) (UInt64.ofNat n) = .ok (buf,10) := by
  have h1 : ¬UInt64.ofNat n < 126 := (ofNat_lt n 126 hn (by omega)).not.mpr (by omega)
  have h2 : ¬UInt64.ofNat n ≤ 0xFFFF := (ofNat_le n 0xFFFF hn (by omega)).not.mpr (by omega)
  obtain ⟨d,hd⟩ := (fill_ok_iff (hostBytes (UInt64.ofNat n)) 2 8 0
    (assign (opened code) 1 (lengthByte ((opened code).get 1) 0 127))).mpr (.inr ⟨le_rfl,by omega⟩)
  exact ⟨d,by simp only [sendHeader, if_neg h1, if_neg h2, hd, Except.map]⟩

theorem opened_take (x : UInt8) :
    (assign (opened code) 1 x).toList.take 2 = [flagsByte 0 1 0 0 0 code,x] := by
  simp only [opened, assign_toList, List.take_set, Vector.toList_replicate, List.take_replicate]
  rfl

theorem opened_take_four (x y z : UInt8) :
    (assign (assign (assign (opened code) 1 x) 2 y) 3 z).toList.take 4 =
      [flagsByte 0 1 0 0 0 code,x,y,z] := by
  simp only [opened, assign_toList, List.take_set, Vector.toList_replicate, List.take_replicate]
  rfl

theorem short_sends (hc : code < 16) (hn : data.length < 126) :
    SendsFrame (wsWrite sent wr code data) wr code data := by
  have hw := wsWrite_fits sent wr code data _ 2 (by omega) (sendHeader_short code _ hn) (by omega)
  have hbytes : [flagsByte 0 1 0 0 0 code,UInt8.ofNat data.length]++data =
      encode (serverFrame code data) := by
    rw [serverFrame_encode, flagsByte_code code hc, lengthField, if_pos hn, zero_add]
    rfl
  rw [opened_take, hbytes] at hw
  refine ⟨_,hw,rfl,rfl,?_⟩
  have hdec := decode_encode (serverFrame code data) [] (show data.length < 2^63 by omega)
  rwa [List.append_nil] at hdec

/-- Of the low byte of a 16-bit length only four bits are sent. -/
theorem medium_byte (hl : 126 ≤ n) (hh : n ≤ 252) :
    (UInt64.ofNat n &&& 0x0F).toUInt8 ≠ UInt8.ofNat n := by
  have h : ∀ k : Fin 127,
      (UInt64.ofNat (126+k.val) &&& 0x0F).toUInt8 ≠ UInt8.ofNat (126+k.val) := by
    decide +kernel
  have hk := h ⟨n-126,by omega⟩
  rwa [show 126+(n-126) = n by omega] at hk

theorem medium_differs (hl : 126 ≤ data.length) (hh : data.length ≤ 252) :
    ¬SendsFrame (wsWrite sent wr code data) wr code data := by
  rintro ⟨s,hs,_,hbytes,_⟩
  have hw := wsWrite_fits sent wr code data _ 4 (by omega)
    (sendHeader_medium code _ hl (by omega)) (by omega)
  rw [opened_take_four] at hw
  have hfield : lengthField 0 data.length = 126::bigEndian 2 data.length := by
    rw [lengthField, if_neg (by omega), if_pos (by omega)]
    rfl
  cases hw.symm.trans hs
  rw [serverFrame_encode, hfield] at hbytes
  simp only [bigEndian, List.cons_append, List.nil_append, List.cons.injEq, pow_zero,
    Nat.div_one] at hbytes
  exact medium_byte data.length hl hh hbytes.2.2.2.1

theorem long_overruns (hn : data.length < 2^63) (hl : 252 < data.length) :
    ¬SendsFrame (wsWrite sent wr code data) wr code data := by
  rintro ⟨s,hs,_⟩
  by_cases hm : data.length ≤ 0xFFFF
  · exact wsWrite_overruns sent wr code data _ 4 hn (sendHeader_medium code _ (by omega) hm)
      (by omega) (by omega) s hs
  · obtain ⟨buf,hb⟩ := sendHeader_long code data.length hn (by omega)
    exact wsWrite_overruns sent wr code data buf 10 hn hb (by omega) (by omega) s hs

/-- A message whose frame arrives has the seven-bit form of the length. -/
theorem sends_short (hn : data.length < 2^63)
    (h : SendsFrame (wsWrite sent wr code data) wr code data) : data.length < 126 := by
  by_contra hl
  by_cases hh : data.length ≤ 252
  · exact medium_differs sent wr code data (by omega) hh h
  · exact long_overruns sent wr code data hn (by omega) h

/-- `ws_write` hands the frame of its message to the socket exactly when the
length of the message has the seven-bit form. -/
theorem ws_write_sends_iff (sent : ℤ) (wr : WsRequest) (code : UInt32) (data : List UInt8)
    (hc : code < 16) (hn : data.length < 2^63) :
    SendsFrame (wsWrite sent wr code data) wr code data ↔ data.length < 126 :=
  ⟨sends_short sent wr code data hn,short_sends sent wr code data hc⟩

/-- The text message `hi`. -/
theorem ws_write_sends_text :
    ((1:UInt32) < 16 ∧ [0x68,0x69].length < 2^63) ∧
      (SendsFrame (wsWrite 4 openRequest 1 [0x68,0x69]) openRequest 1 [0x68,0x69] ↔
        [(0x68:UInt8),0x69].length < 126) :=
  ⟨by decide,ws_write_sends_iff 4 openRequest 1 [0x68,0x69] (by decide) (by decide)⟩

/-- A text message of 126 bytes is sent with the length 14. -/
theorem ws_write_loses_length :
    wsWrite 130 openRequest 1 (List.replicate 126 0x61) =
        .ok ⟨7,[0x81,126,0,14]++List.replicate 126 0x61,130⟩ ∧
      ¬SendsFrame (wsWrite 130 openRequest 1 (List.replicate 126 0x61)) openRequest 1
        (List.replicate 126 0x61) := by
  have hlen : (List.replicate 126 (0x61:UInt8)).length = 126 := List.length_replicate
  constructor
  · have hw := wsWrite_fits 130 openRequest 1 (List.replicate 126 0x61) _ 4 (by omega)
      (sendHeader_medium 1 _ (by omega) (by omega)) (by omega)
    rw [hw, opened_take_four, hlen]
    rfl
  · exact medium_differs 130 openRequest 1 _ (by omega) (by omega)

end Duda.WebSocketWrite
