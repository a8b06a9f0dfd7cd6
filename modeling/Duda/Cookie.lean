import Duda.CString
import Duda.MachineInt

/-!
# The value of a cookie

The key is searched as a string, so it may be found anywhere in the header or
behind it. The value goes from the next equals sign to a semicolon or to the
end of the header.
-/

set_option autoImplicit false

namespace Duda.Cookie
open Duda.CString Duda.MachineInt

/-- `mk_string_search` and `mk_string_search_n`: the position found, if any. -/
structure MkSearch where
  strSearch : (ℕ → UInt8) → List UInt8 → Option ℕ
  strSearchN : (ℕ → UInt8) → List UInt8 → ℤ → Option ℕ

def semicolon : UInt8 := 59

def equals : UInt8 := 61

/-- How far the loop goes from `i`, with `k` positions left. -/
def valueLen (cookie : ℕ → UInt8) : ℕ → ℕ → ℕ
  | _, 0 => 0
  | i, k+1 => if cookie i = semicolon then 0 else valueLen cookie (i+1) k+1

/-- A `Cookie` header: its value in memory and its length. -/
structure Header where
  data : ℕ → UInt8
  len : ℕ

/-- `duda_cookie_get`: offset and length of the value. -/
def cookieGet (mk : MkSearch) (header : Option Header) (key : List UInt8) : Option (ℕ × ℕ) :=
  header.bind fun h =>
    let length := i32 h.len
    (mk.strSearch h.data key).bind fun pos_key =>
      (mk.strSearchN (offset h.data pos_key) [equals] (length-pos_key)).map fun pos_val =>
        let start := pos_key+(pos_val+1)
        (start,valueLen h.data start (length-start).toNat)

/-- The bytes that `duda_cookie_get` points to. -/
def cookieValue (mk : MkSearch) (header : Option Header) (key : List UInt8) :
    Option (List UInt8) :=
  header.bind fun h =>
    (cookieGet mk (some h) key).map fun (start,len) => slice (offset h.data start) len

end Duda.Cookie
