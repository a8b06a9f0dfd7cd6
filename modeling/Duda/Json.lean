import Duda.Binary64
import Duda.CString
import Duda.CType
import Duda.Decimal
import Duda.MachineInt
import Mathlib.Data.List.TakeWhile

/-!
# The items of a JSON text

`cJSON.c` reads a text into items and prints items as a text. An item keeps its
children in the order of their chain. A place in the text is what is left of it there;
behind it comes the terminator, and nothing is known of the bytes after that.
-/

set_option autoImplicit false

namespace Duda.Json
open Duda.Binary64 Duda.CString Duda.CType Duda.Decimal Duda.MachineInt

inductive Kind where
  | False | True | NULL | Number | String | Array | Object
  deriving DecidableEq, Repr

structure Item where
  type : Kind
  valuestring : Option Text
  valueint : ℤ
  valuedouble : Double
  string : Option Text
  child : List Item

/-- `cJSON_New_Item`, with the type that zero is. -/
def newItem : Item := ⟨.False,none,0,ofInt 0,none,[]⟩

/-- What the machine and its library decide: `pow(10.0, k)`, the conversion of a number that
no `int` holds, and the texts of `%e` and `%f`. -/
structure Platform where
  pow : ℤ → Double
  pow_zero : pow 0 = ofInt 1
  overflow : Double → ℤ
  overflow_range : ∀ d, -2^31 ≤ overflow d ∧ overflow d < 2^31
  scientific : Double → List UInt8
  scientific_short : ∀ d, (scientific d).length < 64
  fixed : Double → List UInt8
  fixed_short : ∀ d : Double, d.absGt (10^9) = false → (fixed d).length < 64

/-- A platform whose power is rounded once, and that writes nothing for a fraction. -/
def samplePlatform : Platform where
  pow k := ofRat (10^k)
  pow_zero := by rw [zpow_zero, ofInt, Int.cast_one]
  overflow _ := -2^31
  overflow_range _ := by norm_num
  scientific _ := []
  scientific_short _ := by simp
  fixed _ := []
  fixed_short _ _ := by simp

/-- What a function of the parser returns. Without a result the error pointer is set to the
place given. A fault is an access behind the terminator or outside of an array, the use of
a variable that has no value, or an `int` that overflows. -/
inductive Parsed (α : Type) where
  | fault
  | null (ep : List UInt8)
  | ok (a : α) (rest : List UInt8)

def Parsed.bind {α β : Type} (x : Parsed α) (f : α → List UInt8 → Parsed β) : Parsed β :=
  match x with
  | .fault => .fault
  | .null ep => .null ep
  | .ok a rest => f a rest

/-- What a function of the printer returns. -/
inductive Printed (α : Type) where
  | fault
  | null
  | ok (a : α)

section Reading

/-- `skip`. -/
def skip (p : List UInt8) : List UInt8 := p.dropWhile fun c => c.toNat ≤ 32

/-- `(int)` of a number. -/
def toInt (P : Platform) : Double → ℤ
  | .finite q h =>
    let z := if 0 ≤ q then ⌊q⌋ else ⌈q⌉
    if -2^31 ≤ z ∧ z < 2^31 then z else P.overflow (.finite q h)
  | d => P.overflow d

/-- The digits of a number before or behind its point, and how many there are. -/
def digitsLoop : Double → ℤ → List UInt8 → Double × ℤ × List UInt8
  | n, count, [] => (n,count,[])
  | n, count, c::p =>
    if IsDigit c then digitsLoop ((n.mul (ofInt 10)).add (ofInt (c.toNat-48))) (count+1) p
    else (n,count,c::p)

/-- The digits of the exponent, in an `int`. -/
def exponentLoop : ℤ → List UInt8 → Option (ℤ × List UInt8)
  | subscale, [] => some (subscale,[])
  | subscale, c::p =>
    if IsDigit c then
      if subscale*10+(c.toNat-48) < 2^31 then exponentLoop (subscale*10+(c.toNat-48)) p else none
    else some (subscale,c::p)

def numberSign : List UInt8 → ℤ × List UInt8
  | [] => (1,[])
  | c::p => if c = 45 then (-1,p) else (1,c::p)

def numberZero : List UInt8 → List UInt8
  | [] => []
  | c::p => if c = 48 then p else c::p

def numberWhole : List UInt8 → Double × List UInt8
  | [] => (ofInt 0,[])
  | c::p =>
    if IsDigit c ∧ c ≠ 48 then
      let (n,_,rest) := digitsLoop (ofInt 0) 0 (c::p)
      (n,rest)
    else (ofInt 0,c::p)

/-- The fraction, with the number of its digits. -/
def numberFraction (n : Double) : List UInt8 → Double × ℤ × List UInt8
  | c::d::p => if c = 46 ∧ IsDigit d then digitsLoop n 0 (d::p) else (n,0,c::d::p)
  | p => (n,0,p)

def exponentSign : List UInt8 → ℤ × List UInt8
  | [] => (1,[])
  | c::p => if c = 43 then (1,p) else if c = 45 then (-1,p) else (1,c::p)

def numberExponent : List UInt8 → Option (ℤ × List UInt8)
  | [] => some (0,[])
  | c::p =>
    if c = 101 ∨ c = 69 then
      let (signsubscale,digits) := exponentSign p
      (exponentLoop 0 digits).map fun (subscale,rest) => (subscale*signsubscale,rest)
    else some (0,c::p)

/-- `parse_number`. -/
def parseNumber (P : Platform) (num : List UInt8) : Parsed Item :=
  let (sign,num) := numberSign num
  let (n,num) := numberWhole (numberZero num)
  let (n,digits,num) := numberFraction n num
  match numberExponent num with
  | none => .fault
  | some (exponent,num) =>
    let n := ((ofInt sign).mul n).mul (P.pow (-digits+exponent))
    .ok { newItem with type := .Number, valueint := toInt P n, valuedouble := n } num

/-- The first loop of `parse_string`. It skips whatever follows a backslash. -/
def countLoop : List UInt8 → Option ℕ
  | [] => some 0
  | c::p =>
    if c = 34 then some 0
    else if c = 92 then
      match p with
      | [] => none
      | _::p => (countLoop p).map (·+1)
    else (countLoop p).map (·+1)

def hexRun : ℕ → List UInt8 → ℕ
  | v, [] => v
  | v, c::p =>
    match hexValue c with
    | none => v
    | some d => hexRun (v*16+d) p

/-- The digits of a field of `%4x`, after a prefix. -/
def hexField (field : List UInt8) : Option ℕ :=
  let digits := if field.head? = some 48 ∧ (field.tail.head? = some 120 ∨ field.tail.head? = some 88)
    then field.drop 2 else field
  if (digits.head?.bind hexValue).isSome then some (hexRun 0 digits) else none

/-- `sscanf(p, "%4x", ...)`: white space, and at most four characters of a sign, a prefix and
digits. -/
def scanHex (p : List UInt8) : Option ℕ :=
  match (p.dropWhile isspace).take 4 with
  | [] => none
  | c::field =>
    if c = 45 then (hexField field).map fun v => u32 (-v)
    else if c = 43 then hexField field
    else hexField (c::field)

def advance (n : ℕ) (p : List UInt8) : Option (List UInt8) :=
  if n ≤ p.length then some (p.drop n) else none

def put (size : ℕ) (out bytes : List UInt8) : Option (List UInt8) :=
  if (out++bytes).length ≤ size then some (out++bytes) else none

def encodedLen (uc : ℕ) : ℕ :=
  if uc < 0x80 then 1 else if uc < 0x800 then 2 else if uc < 0x10000 then 3 else 4

def firstByteMark (len : ℕ) : ℕ := [0x00,0x00,0xC0,0xE0,0xF0,0xF8,0xFC].getD len 0

/-- The bytes behind the first, which are written from the last one on. -/
def trailing : ℕ → ℕ → List UInt8
  | 0, _ => []
  | n+1, uc => trailing n (uc >>> 6)++[UInt8.ofNat ((uc ||| 0x80) &&& 0xBF)]

def encoded (uc : ℕ) : List UInt8 :=
  UInt8.ofNat ((uc >>> (6*(encodedLen uc-1))) ||| firstByteMark (encodedLen uc))::
    trailing (encodedLen uc-1) uc

/-- The variables of the second loop. -/
structure Decoding where
  out : List UInt8
  uc : Option ℕ
  uc2 : Option ℕ

def transcode (size : ℕ) (st : Decoding) (uc : ℕ) : Option Decoding :=
  (put size st.out (encoded uc)).map fun out =>
    { st with out := out, uc := some (uc >>> (6*(encodedLen uc-1))) }

/-- The second half of a surrogate pair, four bytes behind the first. -/
def surrogate (size : ℕ) (st : Decoding) (uc : ℕ) (p : List UInt8) :
    Option (Decoding × List UInt8) := do
  let rest ← advance 4 p
  if rest.head? = some 92 ∧ rest.tail.head? = some 117 then
    let uc2 ← (scanHex (rest.drop 2)).or st.uc2
    let rest ← advance 6 rest
    if uc2 < 0xDC00 ∨ 0xDFFF < uc2 then some ({ st with uc := some uc, uc2 := some uc2 },rest)
    else
      let st ← transcode size { st with uc2 := some uc2 }
        (0x10000 ||| ((uc &&& 0x3FF) <<< 10) ||| (uc2 &&& 0x3FF))
      some (st,rest)
  else some ({ st with uc := some uc },rest)

/-- The escape `u`. A number that cannot be read leaves the variable as it was. -/
def unicode (size : ℕ) (st : Decoding) (p : List UInt8) : Option (Decoding × List UInt8) := do
  let uc ← (scanHex p).or st.uc
  if (0xDC00 ≤ uc ∧ uc ≤ 0xDFFF) ∨ uc = 0 then
    let rest ← advance 4 p
    some ({ st with uc := some uc },rest)
  else if 0xD800 ≤ uc ∧ uc ≤ 0xDBFF then surrogate size st uc p
  else
    let st ← transcode size st uc
    let rest ← advance 4 p
    some (st,rest)

def plainEscape (c : UInt8) : UInt8 :=
  if c = 98 then 8 else if c = 102 then 12 else if c = 110 then 10 else if c = 114 then 13
  else if c = 116 then 9 else c

def unescape (size : ℕ) (st : Decoding) : List UInt8 → Option (Decoding × List UInt8)
  | [] => none
  | c::p =>
    if c = 117 then unicode size st p
    else (put size st.out [plainEscape c]).map fun out => ({ st with out := out },p)

/-- The second loop of `parse_string`, with a turn for each byte. The terminator is written
last. -/
def decodeLoop (size : ℕ) : ℕ → Decoding → List UInt8 → Option (List UInt8 × List UInt8)
  | 0, _, _ => none
  | _+1, st, [] => (put size st.out [0]).map fun _ => (st.out,[])
  | k+1, st, c::p =>
    if c = 34 then (put size st.out [0]).map fun _ => (st.out,p)
    else if c ≠ 92 then
      (put size st.out [c]).bind fun out => decodeLoop size k { st with out := out } p
    else (unescape size st p).bind fun (st,rest) => decodeLoop size k st rest

def terminated (out : List UInt8) : Text where
  bytes := out.takeWhile (· ≠ 0)
  nulFree := fun h => absurd (List.mem_takeWhile_imp h) (by simp)

/-- The end of `parse_string`. -/
def finished : Option (List UInt8 × List UInt8) → Parsed Text
  | none => .fault
  | some (out,rest) => .ok (terminated out) rest

/-- `parse_string`. -/
def parseString : List UInt8 → Parsed Text
  | [] => .null []
  | c::p =>
    if c = 34 then
      match countLoop p with
      | none => .fault
      | some len =>
        if len+1 < 2^31 then finished (decodeLoop (len+1) (p.length+1) ⟨[],none,none⟩ p)
        else .fault
    else .null (c::p)

def nullText : List UInt8 := [110,117,108,108]

def falseText : List UInt8 := [102,97,108,115,101]

def trueText : List UInt8 := [116,114,117,101]

variable (P : Platform)

/-- A child of an array or an object, and what stands behind it. -/
def followed (close : UInt8) (child : Item) (more : List UInt8 → Parsed (List Item))
    (rest : List UInt8) : Parsed (List Item) :=
  match skip rest with
  | [] => .null []
  | c::p =>
    if c = 44 then (more p).bind fun children rest => .ok (child::children) rest
    else if c = close then .ok [child] p
    else .null (c::p)

/-- What stands behind the bracket of an array or an object. -/
def opened (close : UInt8) (children : List UInt8 → Parsed (List Item)) (p : List UInt8) :
    Parsed (List Item) :=
  match skip p with
  | [] => children []
  | c::p => if c = close then .ok [] p else children (c::p)

/-- The value of a member of an object. -/
def named (value : List UInt8 → Parsed Item) (p : List UInt8) : Parsed Item :=
  (parseString (skip p)).bind fun name rest =>
    match skip rest with
    | [] => .null []
    | c::p =>
      if c = 58 then (value (skip p)).bind fun child rest =>
        .ok { child with string := some name } rest
      else .null (c::p)

mutual

/-- `parse_value`, with `parse_array` and `parse_object`. -/
def parseValue : ℕ → List UInt8 → Parsed Item
  | 0, _ => .fault
  | k+1, value =>
    if nullText <+: value then .ok { newItem with type := .NULL } (value.drop 4)
    else if falseText <+: value then .ok { newItem with type := .False } (value.drop 5)
    else if trueText <+: value then
      .ok { newItem with type := .True, valueint := 1 } (value.drop 4)
    else
      match value with
      | [] => .null []
      | c::p =>
        if c = 34 then (parseString (c::p)).bind fun out rest =>
          .ok { newItem with type := .String, valuestring := some out } rest
        else if c = 45 ∨ IsDigit c then parseNumber P (c::p)
        else if c = 91 then (opened 93 (parseElements k) p).bind fun child rest =>
          .ok { newItem with type := .Array, child := child } rest
        else if c = 123 then (opened 125 (parseMembers k) p).bind fun child rest =>
          .ok { newItem with type := .Object, child := child } rest
        else .null (c::p)

def parseElements : ℕ → List UInt8 → Parsed (List Item)
  | 0, _ => .fault
  | k+1, p => (parseValue k (skip p)).bind fun child rest =>
      followed 93 child (parseElements k) rest

def parseMembers : ℕ → List UInt8 → Parsed (List Item)
  | 0, _ => .fault
  | k+1, p => (named (parseValue k) p).bind fun child rest =>
      followed 125 child (parseMembers k) rest

end

theorem parseValue_other (k : ℕ) (c : UInt8) (p : List UInt8) (h : c ≠ 110 ∧ c ≠ 102 ∧ c ≠ 116) :
    parseValue P (k+1) (c::p) =
      if c = 34 then (parseString (c::p)).bind fun out rest =>
        .ok { newItem with type := .String, valuestring := some out } rest
      else if c = 45 ∨ IsDigit c then parseNumber P (c::p)
      else if c = 91 then (opened 93 (parseElements P k) p).bind fun child rest =>
        .ok { newItem with type := .Array, child := child } rest
      else if c = 123 then (opened 125 (parseMembers P k) p).bind fun child rest =>
        .ok { newItem with type := .Object, child := child } rest
      else .null (c::p) := by
  rw [parseValue, if_neg (by simp [nullText, h.1.symm]), if_neg (by simp [falseText, h.2.1.symm]),
    if_neg (by simp [trueText, h.2.2.symm])]

/-- `cJSON_Parse`. -/
def cjsonParse (value : Text) : Parsed Item :=
  parseValue P (2*value.bytes.length+2) (skip value.bytes)

end Reading

section Printing

def Printed.bind {α β : Type} (x : Printed α) (f : α → Printed β) : Printed β :=
  match x with
  | .fault => .fault
  | .null => .null
  | .ok a => f a

/-- A text that is written into memory of some size, with its terminator. No memory has a
negative size. -/
def compose (size : ℤ) (text : List UInt8) : Printed (List UInt8) :=
  if size < 0 then .null else if text.length+1 ≤ size then .ok text else .fault

variable (P : Platform)

/-- `%.0f`. The code prints no infinity with it. -/
def wholeText : Double → List UInt8
  | .finite q _ => signed (nearest q)
  | d => P.fixed d

def epsilon : ℚ := 1/2^52

/-- `print_number`. -/
def printNumber (valueint : ℤ) (d : Double) : Printed (List UInt8) :=
  if ((ofInt valueint).sub d).absLe epsilon ∧ d.le (2^31-1) ∧ d.ge (-2^31) then
    compose 21 (signed valueint)
  else if (d.floor.sub d).absLe epsilon then compose 64 (wholeText P d)
  else if d.absLt (snap (1/10^6)) ∨ d.absGt (10^9) then compose 64 (P.scientific d)
  else compose 64 (P.fixed d)

/-- The characters with an escape of their own, and the letter of it. -/
def escapeLetter (c : UInt8) : Option UInt8 :=
  if c = 34 then some 34 else if c = 92 then some 92 else if c = 8 then some 98
  else if c = 12 then some 102 else if c = 10 then some 110 else if c = 13 then some 114
  else if c = 9 then some 116 else none

/-- What the first loop of `print_string_ptr` counts for a character. -/
def printedLen (c : UInt8) : ℕ :=
  if (escapeLetter c).isSome then 2 else if c.toNat < 32 then 6 else 1

/-- What the second loop writes for a character. -/
def printedChar (c : UInt8) : List UInt8 :=
  if 31 < c.toNat ∧ c ≠ 34 ∧ c ≠ 92 then [c]
  else
    match escapeLetter c with
    | some letter => [92,letter]
    | none => [92,117,48,48,hexDigit (c.toNat/16),hexDigit (c.toNat%16)]

/-- `print_string_ptr`. -/
def printStringPtr : Option Text → Printed (List UInt8)
  | none => .ok []
  | some str => compose (i32 ((str.bytes.map printedLen).sum+3))
      (34::(str.bytes.flatMap printedChar++[34]))

/-- The end of `print_array`. -/
def printArray (fmt : Bool) (entries : List (List UInt8)) : Printed (List UInt8) :=
  let each : ℕ := if fmt then 3 else 2
  compose (i32 (5+(entries.map fun entry => entry.length+each).sum))
    (91::((if fmt then [44,32] else [44]).intercalate entries++[93]))

/-- A member that is printed by `print_object`. -/
structure Member where
  name : List UInt8
  entry : List UInt8

def Member.text (m : Member) (depth : ℕ) (fmt : Bool) : List UInt8 :=
  (if fmt then List.replicate depth 9 else [])++m.name++[58]++(if fmt then [9] else [])++m.entry

def membersText (depth : ℕ) (fmt : Bool) : List Member → List UInt8
  | [] => []
  | [m] => m.text depth fmt++(if fmt then [10] else [])
  | m::ms => m.text depth fmt++[44]++(if fmt then [10] else [])++membersText depth fmt ms

/-- The end of `print_object`, where the depth is that of the members. -/
def printObject (depth : ℕ) (fmt : Bool) (members : List Member) : Printed (List UInt8) :=
  let each : ℕ := if fmt then 4+depth else 2
  compose (i32 (7+(if fmt then depth else 0)+
      (members.map fun m => m.entry.length+m.name.length+each).sum))
    (123::((if fmt then [10] else [])++membersText depth fmt members++
      (if fmt then List.replicate (depth-1) 9 else [])++[125]))

mutual

/-- `print_value`. -/
def printValue : Item → ℕ → Bool → Printed (List UInt8)
  | ⟨type,valuestring,valueint,valuedouble,_,child⟩, depth, fmt =>
    match type with
    | .NULL => .ok nullText
    | .False => .ok falseText
    | .True => .ok trueText
    | .Number => printNumber P valueint valuedouble
    | .String => printStringPtr valuestring
    | .Array => (printEntries child (depth+1) fmt).bind (printArray fmt)
    | .Object => (printMembers child (depth+1) fmt).bind (printObject (depth+1) fmt)

def printEntries : List Item → ℕ → Bool → Printed (List (List UInt8))
  | [], _, _ => .ok []
  | item::items, depth, fmt => (printValue item depth fmt).bind fun entry =>
      (printEntries items depth fmt).bind fun entries => .ok (entry::entries)

/-- The loop of `print_object` goes on after a failure. -/
def printMembers : List Item → ℕ → Bool → Printed (List Member)
  | [], _, _ => .ok []
  | item::items, depth, fmt =>
    match printStringPtr item.string, printValue item depth fmt, printMembers items depth fmt with
    | .ok name, .ok entry, .ok members => .ok (⟨name,entry⟩::members)
    | .fault, _, _ => .fault
    | _, .fault, _ => .fault
    | _, _, .fault => .fault
    | _, _, _ => .null

end

/-- `cJSON_Print`. -/
def cjsonPrint (item : Item) : Printed (List UInt8) := printValue P item 0 true

/-- `cJSON_PrintUnformatted`. -/
def cjsonPrintUnformatted (item : Item) : Printed (List UInt8) := printValue P item 0 false

end Printing

section Creating

/-- The items of the functions `cJSON_Create...` that have no value of their own. -/
def createItem (type : Kind) : Item := { newItem with type := type }

/-- `cJSON_CreateBool`. -/
def cjsonCreateBool (b : ℤ) : Item := createItem (if b ≠ 0 then .True else .False)

/-- `cJSON_CreateNumber`. -/
def cjsonCreateNumber (P : Platform) (num : Double) : Item :=
  { newItem with type := .Number, valuedouble := num, valueint := toInt P num }

/-- `cJSON_CreateString`. -/
def cjsonCreateString (string : Text) : Item :=
  { newItem with type := .String, valuestring := some string }

end Creating

end Duda.Json
