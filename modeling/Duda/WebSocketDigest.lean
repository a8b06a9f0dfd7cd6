import Duda.Base64Decode
import Duda.Sha1
import Duda.WebSocketAccept

/-!
# The accept header with the package's own hash function

The handshake hashes the key and the GUID with the SHA-1 of the package and
writes the digest in base64. A client that takes the text of the header apart
again finds the digest that the standard prescribes.
-/

set_option autoImplicit false

namespace Duda.WebSocketDigest
open Duda.Base64 Duda.Base64Decode Duda.CString Duda.Sha1 Duda.WebSocketAccept
open Duda.WebSocketHandshake

/-- The digest that the three calls of the handshake leave in `digest`. -/
def sha1Digest (array : Vector (BitVec 32) 16) (W : Vector UInt8 64) (text : List UInt8) :
    Vector UInt8 20 :=
  match sha1Encode array W text with
  | .ok hashout => Vector.ofFn fun i => hashout.getD i 0
  | .error _ => Vector.replicate 20 0

theorem sha1_length (m : List UInt8) : (sha1 m).length = 20 := by
  simp [sha1, hashBytes, FrameCodec.bigEndian_length]

theorem sha1Digest_eq (array : Vector (BitVec 32) 16) (W : Vector UInt8 64) (text : List UInt8)
    (h : text.length < 2^61) : (sha1Digest array W text).toList = sha1 text := by
  obtain ⟨ctx,hctx,habs⟩ := update_absorbed (init_absorbed W : Absorbed array (blkSha1Init W) []) text
  rw [List.nil_append] at habs
  have hencode : sha1Encode array W text = .ok (sha1 text) := by
    rw [sha1Encode, hctx]
    exact final_digest habs h
  have hlen := sha1_length text
  rw [sha1Digest, hencode]
  apply List.ext_getElem
  · rw [Vector.length_toList, hlen]
  · intro i h1 h2
    simp [List.getElem?_eq_getElem h2]

/-- Every key that fits into the buffer: the header is the digest of the standard in
base64, and the decoder takes it apart. -/
theorem accept_sha1 (array : Vector (BitVec 32) 16) (W : Vector UInt8 64)
    (uninit : WebSocketAccept.Uninit) (decoding : Base64Decode.Uninit) (key : Text)
    (h : key.bytes.length ≤ 219) :
    ∃ r, acceptKey (sha1Digest array W) uninit key = .ok r ∧
      r.header = wsRespWsAccept++base64Text (sha1 (key.bytes++wsGuid)) ∧
      ∃ out, base64Decode decoding (r.header.drop wsRespWsAccept.length) = .ok (some (out,20)) ∧
        out.take 20 = sha1 (key.bytes++wsGuid) := by
  have hguid : wsGuid.length = 36 := by decide
  have hdigest := sha1Digest_eq array W (key.bytes++wsGuid)
    (by rw [List.length_append, hguid]; omega)
  have hfilter := List.filter_eq_self.mpr (text_known (sha1 (key.bytes++wsGuid)))
  obtain ⟨out,hrun,_,hbytes⟩ := decode_groups decoding _ (text_count _ _ hfilter)
  rw [decoded_text _ _ hfilter, sha1_length] at hrun hbytes
  refine ⟨_,acceptKey_fits (sha1Digest array W) uninit key h,?_,out,?_,hbytes⟩
  · rw [hdigest]
  · rw [List.drop_left, hdigest, hrun]

/-- The key of the sample handshake in the protocol's document. -/
def sampleKey : Text :=
  ⟨[100,71,104,108,73,72,78,104,98,88,66,115,90,83,66,117,98,50,53,106,90,81,61,61],by decide⟩

theorem sample_accept :
    ∃ r, acceptKey (sha1Digest (Vector.replicate 16 0) (Vector.replicate 64 0))
        ⟨Vector.replicate 256 0,Vector.replicate 256 0,fun _ => 0⟩ sampleKey = .ok r ∧
      r.header = wsRespWsAccept++base64Text (sha1 (sampleKey.bytes++wsGuid)) ∧
      ∃ out, base64Decode ⟨Vector.replicate 4 0,Vector.replicate 4 0,fun _ => 0⟩
          (r.header.drop wsRespWsAccept.length) = .ok (some (out,20)) ∧
        out.take 20 = sha1 (sampleKey.bytes++wsGuid) :=
  accept_sha1 _ _ _ _ sampleKey (by decide)

example :
    base64Text (sha1Digest (Vector.replicate 16 0) (Vector.replicate 64 0)
      (sampleKey.bytes++wsGuid)).toList =
      [115,51,112,80,76,77,66,105,84,120,97,81,57,107,89,71,122,122,104,90,82,98,75,43,120,79,111,
       61] := by
  decide +kernel

end Duda.WebSocketDigest
