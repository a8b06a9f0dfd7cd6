import Duda.MonkeyString

/-!
# Routing patterns, request URIs and their parameters

A pattern is split into fields once, when it is mapped; a request URI is split
into fields by another loop, whose fields stay positions in the URI buffer.
The lookup walks both lists with one index, and a parameter is found by its
position in the pattern. The string functions of Monkey are a parameter.
-/

set_option autoImplicit false

namespace Duda.Router
open Duda.CString Duda.MonkeyString

def slash : UInt8 := 47

def colon : UInt8 := 58

def routerStatic : ℤ := 0

def routerDynamic : ℤ := 1

def routerFkey : ℤ := 0

def routerFvar : ℤ := 1

def routerNotfound : ℤ := -1

def routerMatch : ℤ := 0

def routerRedirect : ℤ := 1

def routerUriMax : ℕ := 32

/-- `struct mk_string_line`. -/
structure StringLine where
  val : List UInt8
  len : ℕ
  deriving DecidableEq, Repr

structure RouterField where
  type : ℤ
  name : List UInt8
  name_len : ℕ
  deriving DecidableEq, Repr

structure RouterPath where
  type : ℤ
  pattern : List UInt8
  pattern_len : ℕ
  redirect : Bool
  fields : List RouterField
  callback : ℕ
  deriving DecidableEq, Repr

/-- A field of `router_uri`: the offset of `name` in the URI buffer. -/
structure UriField where
  name : ℕ
  name_len : ℕ
  deriving DecidableEq, Repr

/-- The loop of `router_split_pattern`, over what its integers do: `len`, `i` and `val_len`
are unsigned, the variable `end`, here `stop`, is signed. -/
def splitLoopWith (toInt : ℤ → ℤ) (toUnsigned : ℤ → ℕ) (mk : MkString) (pattern : ℕ → UInt8)
    (len : ℕ) : ℕ → ℕ → List StringLine → Option (List StringLine)
  | 0, _, _ => none
  | fuel+1, i, list =>
    if i < len then
      let found := mk.charSearch (offset pattern i) slash (toInt ((len:ℤ)-i))
      if 0 ≤ found ∧ toUnsigned (found+i) < len then
        let stop := toInt (found+i)
        if i = toUnsigned stop then
          splitLoopWith toInt toUnsigned mk pattern len fuel (toUnsigned ((i:ℤ)+1)) list
        else splitLoopWith toInt toUnsigned mk pattern len fuel (toUnsigned (stop+1))
          (list++[⟨mk.copySubstr pattern (toInt i) stop,toUnsigned (stop-i)⟩])
      else
        let stop := toInt len
        splitLoopWith toInt toUnsigned mk pattern len fuel (toUnsigned (stop+1))
          (list++[⟨mk.copySubstr pattern (toInt i) (toInt len),toUnsigned ((len:ℤ)-i)⟩])
    else some list

/-- The loop for integers that do not overflow. -/
def splitLoop (mk : MkString) : (ℕ → UInt8) → ℕ → ℕ → ℕ → List StringLine →
    Option (List StringLine) :=
  splitLoopWith id Int.toNat mk

theorem splitLoop_succ (mk : MkString) (pattern : ℕ → UInt8) (len fuel i : ℕ)
    (list : List StringLine) :
    splitLoop mk pattern len (fuel+1) i list =
      if i < len then
        let found := mk.charSearch (offset pattern i) slash (len-i:ℕ)
        if 0 ≤ found ∧ found+i < len then
          let stop := (found+i).toNat
          if i = stop then splitLoop mk pattern len fuel (i+1) list
          else splitLoop mk pattern len fuel (stop+1)
            (list++[⟨mk.copySubstr pattern i stop,stop-i⟩])
        else splitLoop mk pattern len fuel (len+1)
          (list++[⟨mk.copySubstr pattern i len,len-i⟩])
      else some list := by
  rw [splitLoop, splitLoopWith]
  by_cases hi : i < len
  · have hrest : (len:ℤ)-i = ((len-i:ℕ):ℤ) := (Nat.cast_sub hi.le).symm
    have hend : ((len:ℤ)+1).toNat = len+1 := by omega
    have hnext : ((i:ℤ)+1).toNat = i+1 := by omega
    simp only [if_pos hi, id_eq, hrest, Int.toNat_natCast, hend, hnext]
    generalize mk.charSearch (offset pattern i) slash (len-i:ℕ) = found
    by_cases hf : 0 ≤ found ∧ found+i < len
    · obtain ⟨k,rfl⟩ := Int.eq_ofNat_of_zero_le hf.1
      have hstop : (k:ℤ)+i = ((k+i:ℕ):ℤ) := (Nat.cast_add k i).symm
      have hover : (((k+i:ℕ):ℤ)+1).toNat = k+i+1 := by omega
      have hsize : (((k+i:ℕ):ℤ)-i).toNat = k+i-i := by omega
      rw [if_pos hf, if_pos ⟨hf.1,by omega⟩]
      simp only [hstop, Int.toNat_natCast, hover, hsize]
    · rw [if_neg hf, if_neg (by omega)]
  · simp only [if_neg hi]

def routerSplitPattern (mk : MkString) (pattern : List UInt8) : Option (List StringLine) :=
  splitLoop mk (cstr pattern) pattern.length (pattern.length+1) 0 []

def routerNewPath (pattern : List UInt8) (callback : ℕ) (type : ℤ) : RouterPath :=
  ⟨type,pattern,pattern.length,cstr pattern (pattern.length-1) = slash,[],callback⟩

def routerAddStatic (pattern : List UInt8) (callback : ℕ) (list : List RouterPath) :
    List RouterPath × ℤ :=
  (list++[routerNewPath pattern callback routerStatic],0)

def routerField (entry : StringLine) : RouterField :=
  ⟨if cstr entry.val 0 = colon then routerFvar else routerFkey,entry.val,entry.len⟩

def routerAddDynamic (split : List UInt8 → Option (List StringLine)) (pattern : List UInt8)
    (callback : ℕ) (list : List RouterPath) : Option (List RouterPath × ℤ) :=
  if callback = 0 then some (list,-1)
  else if cstr pattern 0 ≠ slash then some (list,-1)
  else (split pattern).map (fun plist =>
    (list++[{ routerNewPath pattern callback routerDynamic with
      fields := plist.map routerField }],0))

/-- A null pattern or callback is refused; a pattern with a colon is dynamic. -/
def routerMapWith (split : List UInt8 → Option (List StringLine)) (list : List RouterPath)
    (pattern : Option (List UInt8)) (callback : ℕ) : Option (List RouterPath × ℤ) :=
  match pattern with
  | none => some (list,-1)
  | some pattern =>
    if callback = 0 then some (list,-1)
    else if colon ∉ pattern then some (routerAddStatic pattern callback list)
    else routerAddDynamic split pattern callback list

/-- `duda_router_map`, with a splitting loop that does not overflow. -/
def routerMap (mk : MkString) : List RouterPath → Option (List UInt8) → ℕ →
    Option (List RouterPath × ℤ) :=
  routerMapWith (routerSplitPattern mk)

def uriAdd (ruri : List UriField) (buf size : ℕ) : List UriField :=
  if routerUriMax ≤ ruri.length then ruri else ruri++[⟨buf,size⟩]

structure Scan where
  i : ℤ
  start : ℤ
  stop : ℤ
  ruri : List UriField
  deriving DecidableEq, Repr

/-- The loop body with the increment. A closing slash is visited twice: the
index steps back, so that the slash also opens the next field. -/
def uriStep (uri : ℕ → UInt8) (s : Scan) : Scan :=
  if uri s.i.toNat ≠ slash then { s with i := s.i+1 }
  else if s.start = -1 then ⟨s.i+1,s.i,-1,s.ruri⟩
  else
    let stop := if s.stop = -1 then s.i else s.stop
    let i := if s.stop = -1 then s.i-1 else s.i
    let size := stop-s.start-1
    if size ≤ 0 then ⟨i+1,-1,-1,s.ruri⟩
    else ⟨i+1,-1,-1,uriAdd s.ruri (s.start+1).toNat size.toNat⟩

def uriLoop (uri : ℕ → UInt8) (len : ℕ) : ℕ → Scan → Option Scan
  | 0, _ => none
  | fuel+1, s => if s.i < len then uriLoop uri len fuel (uriStep uri s) else some s

def uriTail (len : ℕ) (s : Scan) : List UriField :=
  if 0 ≤ s.start ∧ s.stop = -1 then
    let size := len-s.start-1
    if 0 < size then uriAdd s.ruri (s.start+1).toNat size.toNat else s.ruri
  else s.ruri

def routerUriParse (uri : ℕ → UInt8) (len : ℕ) : Option (List UriField) :=
  (uriLoop uri len (2*len+1) ⟨0,-1,-1,[]⟩).map (uriTail len)

/-- The walk over the fields of a dynamic path, with its match flag. -/
def fieldLoop (uri : ℕ → UInt8) (ruri : List UriField) : List RouterField → ℕ → Bool → Bool
  | [], _, found => found
  | field::fields, i, found =>
    if i = ruri.length then false
    else
      let u := ruri.getD i ⟨0,0⟩
      if field.type = routerFkey then
        if strncmpZero (cstr field.name) (offset uri u.name) field.name_len = true ∧
            field.name_len = u.name_len then fieldLoop uri ruri fields (i+1) true
        else false
      else if field.type = routerFvar then fieldLoop uri ruri fields (i+1) found
      else if found = false then false
      else fieldLoop uri ruri fields (i+1) found

structure Lookup where
  ret : ℤ
  path : Option RouterPath
  deriving DecidableEq, Repr

def routerPathLookup (uri : ℕ → UInt8) (uri_len : ℕ) (ruri : List UriField) :
    List RouterPath → Lookup
  | [] => ⟨routerNotfound,none⟩
  | p::list =>
    if p.type = routerStatic then
      if strncmpZero uri (cstr p.pattern) p.pattern_len then ⟨routerMatch,some p⟩
      else if p.redirect ∧ strncmpZero uri (cstr p.pattern) (p.pattern_len-1) ∧
          uri_len ≤ p.pattern_len then ⟨routerRedirect,none⟩
      else routerPathLookup uri uri_len ruri list
    else if p.type = routerDynamic then
      if fieldLoop uri ruri p.fields 0 false then ⟨routerMatch,some p⟩
      else routerPathLookup uri uri_len ruri list
    else routerPathLookup uri uri_len ruri list

/-- Field types are compared with the constant for dynamic paths, which has
the value of the one for variables. -/
def positionLoop (key : List UInt8) : List RouterField → ℕ → ℤ
  | [], _ => -1
  | field::fields, i =>
    if field.type ≠ routerDynamic then positionLoop key fields (i+1)
    else if (key.length : ℤ) ≠ field.name_len-1 then positionLoop key fields (i+1)
    else if strncmpZero (offset (cstr field.name) 1) (cstr key) key.length then i
    else positionLoop key fields (i+1)

def getParamPosition (path : RouterPath) (key : Option (List UInt8)) : ℤ :=
  match key with
  | none => -1
  | some key => positionLoop key path.fields 0

/-- The copy that `duda_param_get` returns and registers for release. -/
def paramGet (mk : MkString) (uri : ℕ → UInt8) (ruri : List UriField)
    (path : Option RouterPath) (key : Option (List UInt8)) : Option (List UInt8) :=
  match key, path with
  | some key, some path =>
    let found := getParamPosition path (some key)
    if 0 ≤ found then
      let field := ruri.getD found.toNat ⟨0,0⟩
      some (mk.copySubstr (offset uri field.name) 0 field.name_len)
    else none
  | _, _ => none

end Duda.Router
