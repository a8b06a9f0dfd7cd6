import Duda.WebSocketWrite

/-!
# What a client frame becomes

A masked client frame with the shortest form of its length, received in one
read and no longer than the buffer, is decoded into its opcode and its
unmasked payload. Such a frame has one of two headers, with the length in one
byte or in three; the decoder is followed once behind the header.
-/

set_option autoImplicit false

namespace Duda.WebSocketDecode
open Duda.CheckedMemory Duda.FrameCodec Duda.WebSocketWrite
open Duda.WebSocketRead hiding Frame

theorem receive_toList (bytes : List UInt8) (h : bytes.length ≤ 256) :
    (receive bytes).toList = bytes++List.replicate (256-bytes.length) 0 := by
  apply List.ext_getElem
  · simp
    omega
  · intro i h1 h2
    by_cases hi : i < bytes.length
    · simp [receive, hi]
    · simp [receive, hi, List.getElem_append]

theorem receive_part (pre mid post : List UInt8) (h : (pre++(mid++post)).length ≤ 256) :
    ((receive (pre++(mid++post))).toList.drop pre.length).take mid.length = mid := by
  rw [receive_toList _ h, List.append_assoc, List.drop_left, List.append_assoc, List.take_left]

theorem key_vector (k key : Vector UInt8 4) (h : key.toList = keyBytes (some k)) : key = k := by
  apply Vector.toList_inj.mp
  rw [h]
  apply List.ext_getElem
  · simp [keyBytes]
  · intro i h1 h2
    have hi : i < 4 := by simpa using h2
    interval_cases i <;> rfl

/-- Behind its header a masked frame is unmasked into the payload block. -/
theorem payload_unmasked (fr : WebSocketRead.Frame) (k : Vector UInt8 4)
    (header payload : List UInt8) (hmask : fr.mask = true)
    (hoff : fr.maskingKeyOffset = header.length) (hlen : fr.payloadLength = payload.length)
    (hfit : (header++(keyBytes (some k)++applyMask (some k) payload)).length ≤ 256) :
    ∃ block, framePayload
        (receive (header++(keyBytes (some k)++applyMask (some k) payload))) fr = .ok block ∧
      block.toList.take payload.length = payload := by
  have hkey : (keyBytes (some k)).length = 4 := rfl
  have hsize : header.length+4+payload.length ≤ 256 := by
    rw [List.length_append, List.length_append, hkey, applyMask_length] at hfit
    omega
  have hkeyPart := receive_part header (keyBytes (some k)) (applyMask (some k) payload) hfit
  have hpart := receive_part (header++keyBytes (some k)) (applyMask (some k) payload) []
    (by simpa using hfit)
  rw [List.append_nil, List.append_assoc, List.length_append, applyMask_length] at hpart
  rw [hkey] at hkeyPart hpart
  rw [framePayload, hmask, hoff, hlen, wsFrameMaskLen]
  generalize receive (header++(keyBytes (some k)++applyMask (some k) payload)) = buf at *
  obtain ⟨key,hrun,htake⟩ := copyLoop_take (fun _ x => x) buf header.length 4 0
    (Vector.replicate 4 (0:UInt8)) (by omega) (by omega)
  have hk : key = k := by
    apply key_vector
    simp only [Nat.add_zero, Nat.zero_add, hkeyPart] at htake
    rw [List.take_of_length_le (by simp)] at htake
    exact htake
  obtain ⟨block,hblock,hbytes⟩ := copyLoop_take
    (fun i x => x ^^^ getElem key (i % 4) (mod_four_lt i)) buf (header.length+4) payload.length 0
    (Vector.replicate 256 (0:UInt8)) (by omega) (by omega)
  refine ⟨block,?_,?_⟩
  · simp only [if_true, hrun, hblock]
  · rw [Nat.zero_add, Nat.add_zero, hpart, List.take_zero, List.nil_append] at hbytes
    rw [hbytes, hk]
    simp only [Nat.zero_add]
    exact applyMask_twice (some k) payload

section Headers

variable (bytes : List UInt8)

theorem opcode_bits (x : UInt8) : (x &&& 0x0f).toNat = x.toNat % 16 := by
  rw [UInt8.toNat_and]
  exact Nat.and_two_pow_sub_one_eq_mod x.toNat 4

theorem header_short (n : ℕ) (hn : n < 126) (h : (bytes.getD 1 0).toNat = 128+n) :
    frameHeader (receive bytes) = ⟨(bytes.getD 0 0).toNat % 16,true,n,2⟩ := by
  have hmod : (128+n) % 128 = n := by omega
  simp only [frameHeader, receive_get, low_bits, mask_bit, opcode_bits, h, hmod]
  rw [if_neg (by omega), if_neg (by omega)]
  simp

theorem header_long (h : (bytes.getD 1 0).toNat = 254) :
    frameHeader (receive bytes) = ⟨(bytes.getD 0 0).toNat % 16,true,
      (bytes.getD 2 0).toNat*256+(bytes.getD 3 0).toNat,4⟩ := by
  simp only [frameHeader, receive_get, low_bits, mask_bit, opcode_bits, h]
  rfl

end Headers

section ClientFrame

variable (f : FrameCodec.Frame) (k : Vector UInt8 4) (hk : f.key = some k)
  (hfit : (encode f).length ≤ 256)

theorem opcode_byte : (UInt8.ofNat (firstByte f)).toNat % 16 = f.opcode.val :=
  congrArg Fin.val (firstByte_fields f).2.2

theorem encode_masked (hk : f.key = some k) :
    encode f = UInt8.ofNat (firstByte f)::(lengthField 128 f.payload.length++
      (keyBytes (some k)++applyMask (some k) f.payload)) := by
  rw [encode, hk]
  rfl

include hk hfit in
/-- The frame is a header followed by the key and the masked payload, and the
header is read as it was written. -/
theorem client_header :
    ∃ header, encode f = header++(keyBytes (some k)++applyMask (some k) f.payload) ∧
      frameHeader (receive (encode f)) = ⟨f.opcode.val,true,f.payload.length,header.length⟩ := by
  have hcode := opcode_byte f
  have htext := encode_masked f k hk
  by_cases hn : f.payload.length < 126
  · have hfield : lengthField 128 f.payload.length = [UInt8.ofNat (128+f.payload.length)] :=
      if_pos hn
    rw [hfield] at htext
    refine ⟨[UInt8.ofNat (firstByte f),UInt8.ofNat (128+f.payload.length)],htext,?_⟩
    rw [header_short _ f.payload.length hn, htext]
    · rw [List.cons_append, List.getD_cons_zero, hcode]
      rfl
    · rw [htext]
      simp
      omega
  · have hsmall : f.payload.length ≤ 256 := by
      rw [htext] at hfit
      simp [applyMask_length] at hfit
      omega
    have hfield : lengthField 128 f.payload.length =
        [254,UInt8.ofNat (f.payload.length/256),UInt8.ofNat f.payload.length] := by
      rw [lengthField, if_neg hn, if_pos (by omega)]
      simp [bigEndian]
    rw [hfield] at htext
    refine ⟨[UInt8.ofNat (firstByte f),254,UInt8.ofNat (f.payload.length/256),
      UInt8.ofNat f.payload.length],htext,?_⟩
    rw [header_long, htext]
    · have hlength : (UInt8.ofNat (f.payload.length/256)).toNat*256+
          (UInt8.ofNat f.payload.length).toNat = f.payload.length := by
        rw [UInt8.toNat_ofNat', UInt8.toNat_ofNat']
        omega
      simp only [List.cons_append, List.getD_cons_zero, List.getD_cons_succ, hcode, hlength]
      rfl
    · rw [htext]
      rfl

include hk hfit in
theorem client_decoded : ∃ fr block, frameHeader (receive (encode f)) = fr ∧
    fr.opcode = f.opcode.val ∧ fr.payloadLength = f.payload.length ∧
    framePayload (receive (encode f)) fr = .ok block ∧
    block.toList.take f.payload.length = f.payload := by
  obtain ⟨header,htext,hfr⟩ := client_header f k hk hfit
  rw [htext] at hfit
  obtain ⟨block,hblock,htake⟩ := payload_unmasked
    ⟨f.opcode.val,true,f.payload.length,header.length⟩ k header f.payload rfl rfl rfl hfit
  exact ⟨_,block,hfr,rfl,rfl,by rw [htext]; exact hblock,htake⟩

end ClientFrame

def answer (wr : WsRequest) (opcode : ℕ) : List Effect × EventReturn :=
  if opcode = 0 ∨ opcode = 1 ∨ opcode = 2 then
    (if wr.cbOnMessage then [.onMessage] else [],.owned)
  else if opcode = 8 then ((if wr.cbOnClose then [.onClose] else [])++[.sendData 8],.close)
  else ([],.owned)

section Answer

variable (wr : WsRequest) (opcode : ℕ)

theorem answer_message : .onMessage ∈ (answer wr opcode).1 ↔
    wr.cbOnMessage = true ∧ (opcode = 0 ∨ opcode = 1 ∨ opcode = 2) := by
  by_cases hdata : opcode = 0 ∨ opcode = 1 ∨ opcode = 2
  · simp [answer, hdata]
  · by_cases hclose : opcode = 8
    · simp [answer, hclose]
    · simp [answer, hdata, hclose]

/-- Only a close frame is answered, and ends the connection. -/
theorem answer_close :
    (.sendData 8 ∈ (answer wr opcode).1 ↔ opcode = 8) ∧
      ((answer wr opcode).2 = .close ↔ opcode = 8) := by
  by_cases hdata : opcode = 0 ∨ opcode = 1 ∨ opcode = 2
  · have hne : opcode ≠ 8 := by omega
    simp [answer, hdata, hne]
  · by_cases hclose : opcode = 8
    · simp [answer, hclose]
    · simp [answer, hdata, hclose]

end Answer

theorem close_sent (sent sockfd : ℤ) :
    ∃ s, wsSendData sent sockfd 1 0 0 0 8 0 [] = .ok s ∧ s.socket = sockfd ∧
      s.bytes = encode (serverFrame 8 []) := by
  refine ⟨_,rfl,rfl,?_⟩
  dsimp only
  decide +kernel

/-- A masked client frame of at most 256 bytes that is received in one read is
decoded, and answered by its opcode; the answer to a close frame is a close
frame. -/
theorem client_frame_read (f : FrameCodec.Frame) (k : Vector UInt8 4) (hk : f.key = some k)
    (hfit : (encode f).length ≤ 256) (wr : WsRequest) :
    (∃ block, cbWsRead (some wr) (encode f) =
        .ok (some { wr with
          opcode := f.opcode.val, payloadLen := f.payload.length, payload := some block },
          answer wr f.opcode.val) ∧
      block.toList.take f.payload.length = f.payload) ∧
    (.onMessage ∈ (answer wr f.opcode.val).1 ↔
      wr.cbOnMessage = true ∧ (f.opcode.val = 0 ∨ f.opcode.val = 1 ∨ f.opcode.val = 2)) ∧
    ((.sendData 8 ∈ (answer wr f.opcode.val).1 ↔ f.opcode.val = 8) ∧
      ((answer wr f.opcode.val).2 = .close ↔ f.opcode.val = 8)) ∧
    ∀ sent : ℤ, ∃ s, wsSendData sent wr.socket 1 0 0 0 8 0 [] = .ok s ∧ s.socket = wr.socket ∧
      s.bytes = encode (serverFrame 8 []) := by
  refine ⟨?_,answer_message wr _,answer_close wr _,fun sent => close_sent sent wr.socket⟩
  · obtain ⟨fr,block,hfr,hcode,hlen,hpayload,htake⟩ := client_decoded f k hk hfit
    have hne : encode f ≠ [] := by simp [encode]
    refine ⟨block,?_,htake⟩
    simp only [cbWsRead, if_neg hne, hfr, hpayload, hcode, hlen]
    rfl

/-- The text frame `Hi` with the key 1, 2, 3, 4. -/
theorem client_frame_text :
    ∃ block, cbWsRead (some openRequest) (encode ⟨true,0,1,some #v[1,2,3,4],[0x48,0x69]⟩) =
        .ok (some { openRequest with opcode := 1, payloadLen := 2, payload := some block },
          [.onMessage],.owned) ∧
      block.toList.take 2 = [0x48,0x69] :=
  (client_frame_read ⟨true,0,1,some #v[1,2,3,4],[0x48,0x69]⟩ #v[1,2,3,4] rfl (by decide)
    openRequest).1

end Duda.WebSocketDecode
