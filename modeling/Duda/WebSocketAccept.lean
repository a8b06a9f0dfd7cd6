import Duda.Base64
import Duda.CString
import Duda.WebSocketHandshake

/-!
# The accept header of the websocket handshake

Once a request is accepted the key is copied in front of the GUID into a buffer
of 256 bytes, hashed, and the digest in base64 follows the name of the header
in a second buffer of that size. The client chooses the key. SHA-1 is a
parameter.
-/

set_option autoImplicit false

namespace Duda.WebSocketAccept
open Duda.Base64 Duda.CheckedMemory Duda.CString Duda.MachineInt Duda.WebSocketHandshake
open Duda.WebSocketRead (WsRequest)
open Duda.WebSocketEvents (WsCallbacks wsRequestAdd wsRequestCreate)

/-- `strncpy(dst + off, src, n)`: behind the text zeros are written. -/
def strncpy {m : ℕ} (src : List UInt8) (n off : ℕ) (dst : Vector UInt8 m) :
    Except Access (Vector UInt8 m) :=
  fill (src++List.replicate (n-src.length) 0) off n 0 dst

/-- The text at the beginning of a block, as `strlen` sees it. -/
def textOf (block : List UInt8) : List UInt8 := block.takeWhile (· ≠ 0)

/-- What the blocks of memory held before. -/
structure Uninit where
  buffer : Vector UInt8 256
  accept_token : Vector UInt8 256
  encoded : ℕ → UInt8

/-- What is hashed, the status line and the header that is added. -/
structure Accepted where
  hashed : List UInt8
  status : List UInt8
  header : List UInt8
  deriving DecidableEq, Repr

section Handshake

variable (sha1 : List UInt8 → Vector UInt8 20) (uninit : Uninit)

/-- The key and the GUID in `buffer`. -/
def composeKey (key : Text) : Except Access (Vector UInt8 256) :=
  let key_len := i32 key.bytes.length
  (strncpy key.bytes (u64 key_len) 0 uninit.buffer).bind fun buffer =>
    (strncpy wsGuid 36 key_len.toNat buffer).bind fun buffer =>
      store buffer (key_len.toNat+36) 0

/-- The block with the digest in base64, with one more terminator, and `out_len`. -/
def encodeDigest (digest : Vector UInt8 20) : Except Access (List UInt8 × ℕ) :=
  (base64Encode uninit.encoded digest.toList).bind fun (encoded_accept,out_len) =>
    (store encoded_accept out_len 0).map fun encoded_accept => (encoded_accept.toList,out_len)

/-- The header in `accept_token`, and its length. -/
def composeToken (encoded_accept : List UInt8) (out_len : ℕ) :
    Except Access (Vector UInt8 256 × ℕ) :=
  (strncpy wsRespWsAccept 22 0 uninit.accept_token).bind fun accept_token =>
    (strncpy (textOf encoded_accept) out_len 22 accept_token).bind fun accept_token =>
      (store accept_token (22+out_len-1) 0).map fun accept_token =>
        (accept_token,22+out_len-1)

/-- The part of `ws_handshake` from the key on. -/
def acceptKey (key : Text) : Except Access Accepted :=
  (composeKey uninit key).bind fun buffer =>
    let hashed := textOf buffer.toList
    (encodeDigest uninit (sha1 hashed)).bind fun (encoded_accept,out_len) =>
      (strncpy wsRespSwitching 34 0 buffer).bind fun buffer =>
        (composeToken uninit encoded_accept out_len).map fun (accept_token,len) =>
          ⟨hashed,buffer.toList.take 34,accept_token.toList.take len⟩

end Handshake

theorem strncpy_ok {m : ℕ} (src : List UInt8) (n off : ℕ) (dst : Vector UInt8 m)
    (h : off+n ≤ m) :
    ∃ d, strncpy src n off dst = .ok d ∧
      d.toList.take (off+n) =
        dst.toList.take off++(src++List.replicate (n-src.length) 0).take n := by
  have hlen : n ≤ (src++List.replicate (n-src.length) 0).length := by
    simp only [List.length_append, List.length_replicate]
    omega
  obtain ⟨d,hd⟩ := (fill_ok_iff (src++List.replicate (n-src.length) 0) off n 0 dst).mpr
    (.inr ⟨by omega,by omega⟩)
  have htake := fill_take _ _ _ _ _ _ (by omega) (by omega) hd
  exact ⟨d,hd,by simpa using htake⟩

theorem strncpy_text {m : ℕ} (src : List UInt8) (off : ℕ) (dst : Vector UInt8 m)
    (h : off+src.length ≤ m) :
    ∃ d, strncpy src src.length off dst = .ok d ∧
      d.toList.take (off+src.length) = dst.toList.take off++src := by
  obtain ⟨d,hd,htake⟩ := strncpy_ok src src.length off dst h
  refine ⟨d,hd,?_⟩
  rw [htake]
  simp

theorem strncpy_terminated {m : ℕ} (src : List UInt8) (off : ℕ) (dst : Vector UInt8 m)
    (h : off+(src.length+1) ≤ m) :
    ∃ d, strncpy src (src.length+1) off dst = .ok d ∧
      d.toList.take (off+(src.length+1)) = dst.toList.take off++(src++[0]) := by
  obtain ⟨d,hd,htake⟩ := strncpy_ok src (src.length+1) off dst h
  refine ⟨d,hd,?_⟩
  rw [htake, Nat.add_sub_cancel_left]
  exact congrArg _ (List.take_of_length_le (by simp))

theorem take_shorter {block xs : List UInt8} {x : UInt8}
    (h : block.take (xs.length+1) = xs++[x]) : block.take xs.length = xs := by
  have hcut := congrArg (List.take xs.length) h
  rwa [List.take_take, min_eq_left (Nat.le_succ _), List.take_left] at hcut

theorem textOf_terminated (block text : List UInt8) (h0 : 0 ∉ text)
    (h : block.take (text.length+1) = text++[0]) : textOf block = text := by
  have hsplit := List.take_append_drop (text.length+1) block
  rw [h, List.append_assoc] at hsplit
  rw [← hsplit, textOf, List.takeWhile_append_of_pos]
  · simp
  · intro x hx
    simp only [ne_eq, decide_not, Bool.not_eq_true', decide_eq_false_iff_not]
    rintro rfl
    exact h0 hx

theorem guid_text : 0 ∉ wsGuid := by decide

section Composed

variable (sha1 : List UInt8 → Vector UInt8 20) (uninit : Uninit) (key : Text)

theorem composeKey_fits (h : key.bytes.length ≤ 219) :
    ∃ buffer, composeKey uninit key = .ok buffer ∧
      textOf buffer.toList = key.bytes++wsGuid := by
  have hlen : i32 (key.bytes.length:ℤ) = key.bytes.length := i32_natCast _ (by omega)
  have hcount : u64 ((key.bytes.length:ℕ):ℤ) = key.bytes.length := u64_natCast _ (by omega)
  obtain ⟨b,hb,hkey⟩ := strncpy_text key.bytes 0 uninit.buffer (by omega)
  obtain ⟨d,hd,hguid⟩ := strncpy_text wsGuid key.bytes.length b
    (by simp only [wsGuid, List.length_cons, List.length_nil]; omega)
  have hin : key.bytes.length+36 < 256 := by omega
  refine ⟨d.set (key.bytes.length+36) 0,?_,?_⟩
  · simp only [composeKey, hlen, hcount, Int.toNat_natCast, hb, Except.bind]
    have hd' : strncpy wsGuid 36 key.bytes.length b = .ok d := hd
    rw [hd']
    exact store_ok hin
  · apply textOf_terminated
    · simp only [List.mem_append, not_or]
      exact ⟨key.nulFree,guid_text⟩
    · rw [zero_add, List.take_zero, List.nil_append] at hkey
      rw [hkey] at hguid
      rw [List.length_append, ← hguid]
      exact set_take_succ d (key.bytes.length+36) 0 hin

theorem composeKey_inside {buffer : Vector UInt8 256} (h : composeKey uninit key = .ok buffer) :
    (i32 key.bytes.length).toNat+36 < 256 := by
  obtain ⟨b,_,hrest⟩ := Runs.bind_ok h
  obtain ⟨d,_,hstore⟩ := Runs.bind_ok hrest
  by_contra hc
  rw [store, dif_neg hc] at hstore
  cases hstore

theorem encodeDigest_text (digest : Vector UInt8 20) :
    ∃ encoded_accept, encodeDigest uninit digest = .ok (encoded_accept,29) ∧
      textOf encoded_accept = base64Text digest.toList := by
  have hlen : (base64Text digest.toList).length = 28 := by
    rw [text_length, Vector.length_toList]
  have hne : digest.toList ≠ [] := by
    intro he
    have := congrArg List.length he
    simp at this
  obtain ⟨out,hout,htake⟩ := encode_spec uninit.encoded digest.toList hne (by omega)
  have hroom : 29 < outSize digest.toList.length := by
    rw [Vector.length_toList]
    decide
  rw [hlen] at hout htake
  refine ⟨(out.set 29 0).toList,?_,?_⟩
  · simp only [encodeDigest, hout, Except.bind, store_ok hroom, Except.map]
  · apply textOf_terminated
    · intro hnul
      exact (text_clean _ 0 hnul).1 rfl
    · rw [hlen, set_take _ _ _ _ hroom (by omega), htake]

/-- The header ends in front of the terminator that `out_len` counts. -/
theorem composeToken_text (encoded_accept text : List UInt8)
    (htext : textOf encoded_accept = text) (hlen : text.length = 28) :
    ∃ accept_token, composeToken uninit encoded_accept 29 = .ok (accept_token,50) ∧
      accept_token.toList.take 50 = wsRespWsAccept++text := by
  have hname : wsRespWsAccept.length = 22 := by decide
  obtain ⟨b,hb,hfirst⟩ := strncpy_text wsRespWsAccept 0 uninit.accept_token (by omega)
  obtain ⟨d,hd,hsecond⟩ := strncpy_terminated text 22 b (by omega)
  rw [hname] at hb hfirst
  rw [hlen] at hd hsecond
  refine ⟨d.set 50 0,?_,?_⟩
  · simp only [composeToken, hb, hd, htext, Except.bind, Except.map,
      store_ok (show 50 < 256 by decide)]
  · rw [set_take d 50 50 0 (by decide) le_rfl]
    have hwhole : (wsRespWsAccept++text).length = 50 := by rw [List.length_append, hname, hlen]
    rw [zero_add, List.take_zero, List.nil_append] at hfirst
    rw [hfirst, ← List.append_assoc] at hsecond
    have hshort := take_shorter (by rw [hwhole]; exact hsecond)
    rwa [hwhole] at hshort

theorem acceptKey_fits (h : key.bytes.length ≤ 219) :
    acceptKey sha1 uninit key = .ok ⟨key.bytes++wsGuid,wsRespSwitching,
      wsRespWsAccept++base64Text (sha1 (key.bytes++wsGuid)).toList⟩ := by
  have hline : wsRespSwitching.length = 34 := by decide
  obtain ⟨buffer,hbuffer,htext⟩ := composeKey_fits uninit key h
  obtain ⟨encoded,hencoded,hdigest⟩ := encodeDigest_text uninit (sha1 (key.bytes++wsGuid))
  obtain ⟨status,hstatus,htake⟩ := strncpy_text wsRespSwitching 0 buffer (by omega)
  obtain ⟨token,htoken,hheader⟩ := composeToken_text uninit encoded _ hdigest
    (by rw [text_length, Vector.length_toList])
  rw [hline] at hstatus htake
  rw [zero_add, List.take_zero, List.nil_append] at htake
  simp only [acceptKey, hbuffer, Except.bind, htext, hencoded, hstatus, htoken, Except.map,
    hheader, htake]

theorem acceptKey_hashed {r : Accepted} (h : acceptKey sha1 uninit key = .ok r) :
    r.hashed.length ≤ 256 ∧ (i32 key.bytes.length).toNat+36 < 256 := by
  obtain ⟨buffer,hbuffer,hrest⟩ := Runs.bind_ok h
  obtain ⟨encoded,_,hrest⟩ := Runs.bind_ok hrest
  obtain ⟨status,_,hrest⟩ := Runs.bind_ok hrest
  obtain ⟨token,_,rfl⟩ := Runs.map_ok hrest
  refine ⟨?_,composeKey_inside uninit key hbuffer⟩
  calc
    (textOf buffer.toList).length ≤ buffer.toList.length := (List.takeWhile_prefix _).length_le
    _ = 256 := Vector.length_toList

/-- Every key, of any length: the buffers are not left, what is hashed is the
key with the GUID, and the header ends with the 28 characters of the digest,
none of them a line feed or a terminator, exactly when the key has at most 219
bytes. -/
theorem accept_header_iff :
    (∃ r, acceptKey sha1 uninit key = .ok r ∧ r.hashed = key.bytes++wsGuid ∧
      ∃ text, text = base64Text (sha1 (key.bytes++wsGuid)).toList ∧
        r.header = wsRespWsAccept++text ∧ text.length = 28 ∧
        ∀ x ∈ text, x ≠ 0 ∧ x ≠ lineFeed) ↔ key.bytes.length ≤ 219 := by
  constructor
  · rintro ⟨r,hr,hhashed,_⟩
    -- The length of a very long key is cut; then the key is not what is hashed.
    obtain ⟨hbound,hin⟩ := acceptKey_hashed sha1 uninit key hr
    have hguid : wsGuid.length = 36 := by decide
    rw [hhashed, List.length_append, hguid] at hbound
    rw [i32_natCast _ (by omega), Int.toNat_natCast] at hin
    omega
  · intro h
    refine ⟨_,acceptKey_fits sha1 uninit key h,rfl,_,rfl,rfl,?_,text_clean _⟩
    rw [text_length, Vector.length_toList]

/-- The part from the key on is the one that the decision about a request ends
with. -/
theorem wsAccept_composed (nodes : List WsRequest) (dr : Request) (callbacks : WsCallbacks)
    (h : key.bytes.length ≤ 219) :
    wsAccept (fun text => base64Text (sha1 text).toList) nodes dr callbacks key.bytes =
      (acceptKey sha1 uninit key).map fun r =>
        (wsRequestAdd nodes (wsRequestCreate dr.socket callbacks),
          ⟨r.status,[wsRespUpgrade,wsRespConnection,r.header],0⟩) := by
  have hguid : wsGuid.length = 36 := by decide
  have hlen : (key.bytes++wsGuid++[0]).length = key.bytes.length+wsGuid.length+1 := by
    simp only [List.length_append, List.length_singleton]
  obtain ⟨d,hd⟩ := (fill_ok_iff (key.bytes++wsGuid++[0]) 0 (key.bytes.length+wsGuid.length+1) 0
    (Vector.replicate 256 0)).mpr (.inr ⟨by omega,by omega⟩)
  have htake := fill_take _ _ _ _ _ _ (by omega) (by omega) hd
  rw [zero_add, zero_add, List.take_zero, List.nil_append, List.drop_zero, ← hlen,
    List.take_length, hlen, ← List.length_append] at htake
  have hshort := take_shorter htake
  rw [List.length_append] at hshort
  simp only [wsAccept, hd, Except.map, hshort, acceptKey_fits sha1 uninit key h]

end Composed

def longKey : Text := ⟨List.replicate 220 97,by decide⟩

theorem key_overruns (sha1 : List UInt8 → Vector UInt8 20) (uninit : Uninit) :
    acceptKey sha1 uninit longKey = .error (.write 256) := by
  have hlen : longKey.bytes.length = 220 := List.length_replicate
  have hguid : wsGuid.length = 36 := by decide
  obtain ⟨b,hb,_⟩ := strncpy_text longKey.bytes 0 uninit.buffer (by omega)
  obtain ⟨d,hd,_⟩ := strncpy_text wsGuid 220 b (by omega)
  rw [hlen] at hb
  rw [hguid] at hd
  have hint : i32 ((220:ℕ):ℤ) = (220:ℕ) := i32_natCast _ (by omega)
  have hcount : u64 ((220:ℕ):ℤ) = 220 := u64_natCast _ (by omega)
  simp only [acceptKey, composeKey, hlen, hint, hcount, Int.toNat_natCast, hb, hd, Except.bind,
    store, Nat.reduceAdd, lt_self_iff_false, dif_neg, not_false_eq_true]

theorem long_key_overruns :
    acceptKey (fun _ => Vector.replicate 20 0)
      ⟨Vector.replicate 256 0,Vector.replicate 256 0,fun _ => 0⟩ longKey = .error (.write 256) :=
  key_overruns _ _

end Duda.WebSocketAccept
