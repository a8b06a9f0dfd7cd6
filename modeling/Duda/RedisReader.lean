import Duda.CType
import Duda.IncrementalParser
import Duda.MachineInt

/-!
# The reply reader of the redis package

Replies are read from a buffer that grows by what the socket delivers. A stack
of at most four tasks says where in the reply the reader is, and every object is
linked into the array of the task below as soon as it is created. A task first
takes the byte that names the type, and keeps it while the rest of the item is
still missing.
-/

set_option autoImplicit false

namespace Duda.RedisReader
open Duda.CType Duda.IncrementalParser Duda.MachineInt

def cr : UInt8 := 13

def lf : UInt8 := 10

/-- The types that a byte of the protocol stands for. -/
inductive ReplyType where
  | string | array | integer | status | error
  deriving DecidableEq, Repr

/-- A reply, or the null pointer. An array has the number in `elements` beside its
vector. -/
inductive Reply where
  | null
  | nil
  | integer (value : ℤ)
  | string (str : List UInt8)
  | status (str : List UInt8)
  | error (str : List UInt8)
  | array (elements : ℕ) (element : List Reply)

/-- A task without its pointers. The `type` is missing until it has been read. -/
structure Task where
  type : Option ReplyType
  elements : ℤ
  idx : ℤ
  deriving DecidableEq, Repr

/-- The tasks up to the current one, which is the first, and the reply so far. -/
structure Core where
  rstack : List Task
  reply : Reply

/-- What ends the reading: an error of the protocol with its text, or a write through
a pointer that points to nothing. -/
inductive Stop where
  | protocol (errstr : List UInt8)
  | fault
  deriving DecidableEq, Repr

abbrev Reading := Outcome Core Reply Stop

section Lines

/-- A character of the buffer, behind which stands the terminator. -/
def charAt (s : List UInt8) (i : ℕ) : UInt8 := s.getD i 0

/-- The inner loop of `seekNewline`, which stops at a carriage return. -/
def skipLoop (s : List UInt8) (len : ℤ) : ℕ → ℕ → ℕ
  | 0, pos => pos
  | k+1, pos => if pos < len ∧ charAt s pos ≠ cr then skipLoop s len k (pos+1) else pos

/-- The outer loop of `seekNewline`. -/
def seekLoop (s : List UInt8) (len : ℤ) : ℕ → ℕ → Option ℕ
  | 0, _ => none
  | k+1, pos =>
    if pos < len then
      let pos := skipLoop s len s.length pos
      if charAt s pos ≠ cr then none
      else if charAt s (pos+1) = lf then some pos
      else seekLoop s len k (pos+1)
    else none

/-- `seekNewline`, with the length in an `int`. -/
def seekNewline (s : List UInt8) : Option ℕ :=
  seekLoop s (i32 ((s.length:ℤ)-1)) (s.length+1) 0

/-- The loop of `readLongLong` up to the carriage return. -/
def readDigits : List UInt8 → ℤ → Option ℤ
  | [], _ => none
  | c::s, v =>
    if c = cr then some v
    else if 48 ≤ c.toNat ∧ c.toNat < 58 then readDigits s (i64 (i64 (v*10)+(c.toNat-48:ℤ)))
    else none

def readSign (s : List UInt8) : ℤ × List UInt8 :=
  if charAt s 0 = 45 then (-1,s.drop 1)
  else if charAt s 0 = 43 then (1,s.drop 1)
  else (1,s)

/-- `readLongLong`, which returns -1 for unexpected input. -/
def readLongLong (s : List UInt8) : ℤ :=
  match readDigits (readSign s).2 0 with
  | some v => i64 ((readSign s).1*v)
  | none => -1

end Lines

section Objects

def place (rstack : List Task) : List ℕ := (rstack.dropLast.map fun t => t.idx.toNat).reverse

/-- An assignment to the pointer at some place. -/
def assign : List ℕ → Reply → Reply → Option Reply
  | [], obj, _ => some obj
  | i::path, obj, .array elements element =>
    match element[i]? with
    | none => none
    | some r => (assign path obj r).map fun r => .array elements (element.set i r)
  | _::_, _, _ => none

/-- `createStringObject` and the others: the new object is linked to its parent, or it
is the reply. -/
def createObject (core : Core) (obj : Reply) : Option Core :=
  (assign (place core.rstack) obj core.reply).map fun reply => ⟨core.rstack,reply⟩

/-- `createArrayObject`. -/
def arrayObject (elements : ℤ) : Reply :=
  .array (u64 elements) (List.replicate elements.toNat .null)

def moveToNextTask : List Task → List Task
  | [] => []
  | [_] => []
  | cur::prv::rstack =>
    if cur.idx = prv.elements-1 then moveToNextTask (prv::rstack)
    else ⟨none,-1,cur.idx+1⟩::prv::rstack

def finish (core : Core) (n : ℕ) (obj : Reply) : Reading :=
  match createObject core obj with
  | none => .stop .fault
  | some core => .take n { core with rstack := moveToNextTask core.rstack } []

end Objects

section Items

variable (core : Core) (buf : List UInt8)

/-- `processLineItem`. -/
def processLineItem (type : ReplyType) : Reading :=
  match seekNewline buf with
  | none => .wait
  | some len =>
    match type with
    | .integer => finish core (len+2) (.integer (readLongLong buf))
    | .error => finish core (len+2) (.error (buf.take len))
    | _ => finish core (len+2) (.status (buf.take len))

/-- `processBulkItem`. The line behind the string is passed over unread. -/
def processBulkItem : Reading :=
  match seekNewline buf with
  | none => .wait
  | some s =>
    let len := readLongLong buf
    if len < 0 then finish core (s+2) .nil
    else if s+2+(len.toNat+2) ≤ buf.length then
      finish core (s+2+(len.toNat+2)) (.string ((buf.drop (s+2)).take len.toNat))
    else .wait

/-- The error for nested replies: `No support for nested multi bulk replies with depth
> 2`. -/
def depthError : List UInt8 :=
    [78,111,32,115,117,112,112,111,114,116,32,102,111,114,32,110,101,115,116,101,100,32,109,117,
      108,116,105,32,98,117,108,107,32,114,101,112,108,105,101,115,32,119,105,116,104,32,100,101,
      112,116,104,32,62,32,50]

/-- The second part of `processMultiBulkItem`, for a line of some length. -/
def openArray (cur : Task) (rstack : List Task) (len : ℕ) (elements : ℤ) : Reading :=
  if elements = -1 then finish core (len+2) .nil
  else if 0 < elements then
    match createObject core (arrayObject (i32 elements)) with
    | none => .stop .fault
    | some core =>
      .take (len+2) { core with rstack :=
        ⟨none,-1,0⟩::{ cur with elements := i32 elements }::rstack } []
  else finish core (len+2) (arrayObject (i32 elements))

/-- `processMultiBulkItem`. -/
def processMultiBulkItem : Reading :=
  match core.rstack with
  | [] => .stop .fault
  | cur::rstack =>
    if rstack.length = 3 then .stop (.protocol depthError)
    else
      match seekNewline buf with
      | none => .wait
      | some len => openArray core cur rstack len (readLongLong buf)

/-- `chrtos`. -/
def chrtos (byte : UInt8) : List UInt8 :=
  let quoted : List UInt8 :=
    if byte = 92 ∨ byte = 34 then [92,byte]
    else if byte = 10 then [92,110]
    else if byte = 13 then [92,114]
    else if byte = 9 then [92,116]
    else if byte = 7 then [92,97]
    else if byte = 8 then [92,98]
    else if 32 ≤ byte.toNat ∧ byte.toNat < 127 then [byte]
    else [92,120,hexDigit (byte.toNat/16),hexDigit (byte.toNat%16)]
  [34]++quoted++[34]

/-- `Protocol error, got %s as reply type byte`. -/
def protocolByteError (byte : UInt8) : List UInt8 :=
    [80,114,111,116,111,99,111,108,32,101,114,114,111,114,44,32,103,111,116,32]++chrtos byte++
    [32,97,115,32,114,101,112,108,121,32,116,121,112,101,32,98,121,116,101]

def typeOf (byte : UInt8) : Option ReplyType :=
  if byte = 45 then some .error
  else if byte = 43 then some .status
  else if byte = 58 then some .integer
  else if byte = 36 then some .string
  else if byte = 42 then some .array
  else none

/-- The first part of `processItem`, for a task whose type is not known. -/
def readType (cur : Task) (rstack : List Task) : Reading :=
  match buf with
  | [] => .wait
  | byte::_ =>
    match typeOf byte with
    | none => .stop (.protocol (protocolByteError byte))
    | some type => .take 1 { core with rstack := { cur with type := some type }::rstack } []

/-- The second part of `processItem`. -/
def processTyped (type : ReplyType) : Reading :=
  match type with
  | .string => processBulkItem core buf
  | .array => processMultiBulkItem core buf
  | type => processLineItem core buf type

/-- One part of `processItem`. -/
def itemPart : Reading :=
  match core.rstack with
  | [] => .stop .fault
  | cur::rstack =>
    match cur.type with
    | none => readType core buf cur rstack
    | some type => processTyped core buf type

end Items

section Steps

/-- The first task of a reply, and nothing of the reply. -/
def fresh : Core := ⟨[⟨none,-1,-1⟩],.null⟩

/-- A reply is put out when no task is left. -/
def emit : Reading → Reading
  | .take n core _ =>
    match core.rstack with
    | [] => .take n fresh [core.reply]
    | _::_ => .take n core []
  | reading => reading

def step (core : Core) (buf : List UInt8) : Reading := emit (itemPart core buf)

end Steps


section Breaks

/-- The place of the first line break. -/
def findBreak : List UInt8 → Option ℕ
  | c::d::s => if c = cr ∧ d = lf then some 0 else (findBreak (d::s)).map (·+1)
  | _ => none

theorem charAt_drop (s : List UInt8) (q i : ℕ) : charAt (s.drop q) i = charAt s (q+i) := by
  simp [charAt]

theorem findBreak_unfold (s : List UInt8) :
    findBreak s = if charAt s 0 = cr ∧ charAt s 1 = lf then some 0
      else (findBreak (s.drop 1)).map (·+1) := by
  match s with
  | [] => simp [findBreak, charAt, cr]
  | [c] => simp [findBreak, charAt, lf]
  | c::d::s => simp [findBreak, charAt]

theorem findBreak_drop (s : List UInt8) (q : ℕ) :
    findBreak (s.drop q) = if charAt s q = cr ∧ charAt s (q+1) = lf then some 0
      else (findBreak (s.drop (q+1))).map (·+1) := by
  rw [findBreak_unfold, charAt_drop, charAt_drop, List.drop_drop]
  rfl

theorem findBreak_short (s : List UInt8) (h : s.length ≤ 1) : findBreak s = none := by
  match s with
  | [] => rfl
  | [c] => rfl

theorem skipLoop_spec (s : List UInt8) (last k pos : ℕ) (hp : pos ≤ last) (hk : last ≤ pos+k) :
    pos ≤ skipLoop s last k pos ∧ skipLoop s last k pos ≤ last ∧
      (skipLoop s last k pos < last → charAt s (skipLoop s last k pos) = cr) ∧
      findBreak (s.drop pos) =
        (findBreak (s.drop (skipLoop s last k pos))).map (·+(skipLoop s last k pos-pos)) := by
  induction k generalizing pos with
  | zero =>
    simp only [skipLoop, Nat.sub_self]
    refine ⟨le_refl _,hp,by omega,by simp⟩
  | succ k ih =>
    rw [skipLoop]
    split_ifs with h
    · obtain ⟨h1,h2,h3,h4⟩ := ih (pos+1) (by omega) (by omega)
      refine ⟨by omega,h2,h3,?_⟩
      rw [findBreak_drop, if_neg (fun hb => h.2 hb.1), h4, Option.map_map]
      congr 1
      funext x
      simp only [Function.comp_apply]
      omega
    · refine ⟨le_refl _,hp,fun hl => ?_,by simp⟩
      by_contra hc
      exact h ⟨by omega,hc⟩

theorem seekLoop_eq (s : List UInt8) (last k pos : ℕ) (hs : s.length = last+1)
    (hk : last < pos+k) :
    seekLoop s last k pos = (findBreak (s.drop pos)).map (·+pos) := by
  have hend : ∀ q, last ≤ q → findBreak (s.drop q) = none := by
    intro q hq
    apply findBreak_short
    rw [List.length_drop]
    omega
  induction k generalizing pos with
  | zero => rw [hend pos (by omega), seekLoop, Option.map_none]
  | succ k ih =>
    rw [seekLoop]
    split_ifs with h
    · obtain ⟨h1,h2,h3,h4⟩ :=
        skipLoop_spec s last s.length pos (by omega) (by omega)
      simp only
      generalize skipLoop s last s.length pos = q at h1 h2 h3 h4
      rw [h4]
      split_ifs with hc hn
      · have hq : q = last := by
          by_contra hq
          exact hc (h3 (by omega))
        rw [hend q (by omega)]
        rfl
      · rw [findBreak_drop, if_pos ⟨not_not.1 hc,hn⟩]
        simp only [Option.map_some, Option.some.injEq]
        omega
      · rw [findBreak_drop, if_neg (fun hb => hn hb.2), ih (q+1) (by omega), Option.map_map,
          Option.map_map]
        congr 1
        funext x
        simp only [Function.comp_apply]
        omega
    · rw [hend pos (by omega)]
      rfl

/-- As long as its length fits into an `int`, the buffer is searched to its end. -/
theorem seekNewline_eq (s : List UInt8) (h : s.length < 2^31) : seekNewline s = findBreak s := by
  cases s with
  | nil => rfl
  | cons c s =>
    rw [List.length_cons] at h
    have hlen : i32 (((c::s).length:ℤ)-1) = (s.length:ℤ) := by
      rw [List.length_cons, i32_of_range] <;> push_cast <;> omega
    rw [seekNewline, hlen, seekLoop_eq (c::s) s.length _ 0 (by simp) (by simp)]
    simp

theorem findBreak_append (s t : List UInt8) (p : ℕ) (h : findBreak s = some p) :
    findBreak (s++t) = some p := by
  induction s using findBreak.induct generalizing p with
  | case1 c d s hb => simpa [findBreak, hb] using h
  | case2 c d s hb ih =>
    rw [findBreak, if_neg hb, Option.map_eq_some_iff] at h
    obtain ⟨q,hq,rfl⟩ := h
    rw [List.cons_append, List.cons_append, findBreak, if_neg hb, ← List.cons_append, ih q hq]
    rfl
  | case3 s hs => simp [findBreak] at h

theorem findBreak_split {s : List UInt8} {p : ℕ} (h : findBreak s = some p) :
    ∃ t, s = s.take p++cr::lf::t := by
  induction s using findBreak.induct generalizing p with
  | case1 c d s hb =>
    rw [findBreak, if_pos hb, Option.some.injEq] at h
    subst h
    exact ⟨s,by simp [hb.1,hb.2]⟩
  | case2 c d s hb ih =>
    rw [findBreak, if_neg hb, Option.map_eq_some_iff] at h
    obtain ⟨q,hq,rfl⟩ := h
    obtain ⟨t,ht⟩ := ih hq
    exact ⟨t,by rw [List.take_succ_cons, List.cons_append, ← ht]⟩
  | case3 s hs => simp [findBreak] at h

end Breaks

section Steadiness

theorem seekLoop_found (s : List UInt8) (len : ℤ) (k pos p : ℕ)
    (h : seekLoop s len k pos = some p) : charAt s (p+1) = lf := by
  induction k generalizing pos with
  | zero => simp [seekLoop] at h
  | succ k ih =>
    simp only [seekLoop] at h
    by_cases h1 : (pos:ℤ) < len
    · simp only [if_pos h1] at h
      split_ifs at h with h2 h3
      · rw [Option.some.injEq] at h
        rw [← h, h3]
      · exact ih _ h
    · simp [if_neg h1] at h

theorem seekNewline_inside {s : List UInt8} {p : ℕ} (h : seekNewline s = some p) :
    p+2 ≤ s.length := by
  have hlf := seekLoop_found s _ _ _ _ h
  by_contra hout
  rw [charAt, List.getD_eq_getElem?_getD, List.getElem?_eq_none (by omega)] at hlf
  exact absurd hlf (by decide)

theorem readDigits_append (s t : List UInt8) (v : ℤ) (h : cr ∈ s) :
    readDigits (s++t) v = readDigits s v := by
  induction s generalizing v with
  | nil => simp at h
  | cons c s ih =>
    simp only [List.cons_append, readDigits]
    split_ifs with h1 h2
    · rfl
    · exact ih _ ((List.mem_cons.1 h).resolve_left (fun he => h1 he.symm))
    · rfl

theorem readSign_append (s t : List UInt8) (h : cr ∈ s) :
    readSign (s++t) = ((readSign s).1,(readSign s).2++t) ∧ cr ∈ (readSign s).2 := by
  cases s with
  | nil => simp at h
  | cons c s =>
    simp only [readSign, charAt, List.cons_append, List.getD_cons_zero, List.drop_succ_cons,
      List.drop_zero]
    split_ifs with h1 h2
    · exact ⟨rfl,(List.mem_cons.1 h).resolve_left (by rw [h1]; decide)⟩
    · exact ⟨rfl,(List.mem_cons.1 h).resolve_left (by rw [h2]; decide)⟩
    · exact ⟨rfl,h⟩

theorem readLongLong_append (s t : List UInt8) (h : cr ∈ s) :
    readLongLong (s++t) = readLongLong s := by
  obtain ⟨hs,hc⟩ := readSign_append s t h
  rw [readLongLong, readLongLong, hs, readDigits_append _ t 0 hc]

variable (core : Core) (xs ys : List UInt8)

theorem seekNewline_append {p : ℕ} (hl : (xs++ys).length < 2^31) (h : seekNewline xs = some p) :
    seekNewline (xs++ys) = some p ∧ readLongLong (xs++ys) = readLongLong xs := by
  rw [List.length_append] at hl
  have hb : findBreak xs = some p := by rw [← seekNewline_eq xs (by omega), h]
  obtain ⟨t,ht⟩ := findBreak_split hb
  constructor
  · rw [seekNewline_eq _ (by rw [List.length_append]; omega), findBreak_append xs ys p hb]
  · apply readLongLong_append
    rw [ht]
    simp

theorem processLineItem_append (type : ReplyType) (hl : (xs++ys).length < 2^31)
    (h : processLineItem core xs type ≠ .wait) :
    processLineItem core (xs++ys) type = processLineItem core xs type := by
  cases hs : seekNewline xs with
  | none => simp [processLineItem, hs] at h
  | some p =>
    obtain ⟨hp,hv⟩ := seekNewline_append xs ys hl hs
    have hin := seekNewline_inside hs
    simp only [processLineItem, hs, hp, hv,
      List.take_append_of_le_length (show p ≤ xs.length by omega)]

theorem processBulkItem_append (hl : (xs++ys).length < 2^31)
    (h : processBulkItem core xs ≠ .wait) :
    processBulkItem core (xs++ys) = processBulkItem core xs := by
  cases hs : seekNewline xs with
  | none => simp [processBulkItem, hs] at h
  | some p =>
    obtain ⟨hp,hv⟩ := seekNewline_append xs ys hl hs
    simp only [processBulkItem, hs] at h
    simp only [processBulkItem, hs, hp, hv]
    by_cases h1 : readLongLong xs < 0
    · rw [if_pos h1, if_pos h1]
    · by_cases h2 : p+2+((readLongLong xs).toNat+2) ≤ xs.length
      · have h3 : p+2+((readLongLong xs).toNat+2) ≤ (xs++ys).length := by
          rw [List.length_append]
          omega
        rw [if_neg h1, if_neg h1, if_pos h2, if_pos h3, List.drop_append_of_le_length (by omega),
          List.take_append_of_le_length (by rw [List.length_drop]; omega)]
      · rw [if_neg h1, if_neg h2] at h
        exact absurd rfl h

theorem processMultiBulkItem_append (hl : (xs++ys).length < 2^31)
    (h : processMultiBulkItem core xs ≠ .wait) :
    processMultiBulkItem core (xs++ys) = processMultiBulkItem core xs := by
  cases hr : core.rstack with
  | nil => simp only [processMultiBulkItem, hr]
  | cons cur rstack =>
    cases hs : seekNewline xs with
    | none =>
      simp only [processMultiBulkItem, hr, hs] at h ⊢
      by_cases hd : rstack.length = 3
      · rw [if_pos hd, if_pos hd]
      · rw [if_neg hd] at h
        exact absurd rfl h
    | some p =>
      obtain ⟨hp,hv⟩ := seekNewline_append xs ys hl hs
      simp only [processMultiBulkItem, hr, hs, hp, hv]

/-- What a part has decided stays when there is more input. -/
theorem itemPart_append (hl : (xs++ys).length < 2^31) (h : itemPart core xs ≠ .wait) :
    itemPart core (xs++ys) = itemPart core xs := by
  cases hr : core.rstack with
  | nil => simp only [itemPart, hr]
  | cons cur rstack =>
    cases ht : cur.type with
    | none =>
      cases xs with
      | nil => simp [itemPart, hr, ht, readType] at h
      | cons byte xs => simp only [itemPart, hr, ht, readType, List.cons_append]
    | some type =>
      simp only [itemPart, hr, ht] at h ⊢
      cases type with
      | string => exact processBulkItem_append core xs ys hl h
      | array => exact processMultiBulkItem_append core xs ys hl h
      | integer => exact processLineItem_append core xs ys .integer hl h
      | status => exact processLineItem_append core xs ys .status hl h
      | error => exact processLineItem_append core xs ys .error hl h

/-- Everything that a part can do. -/
inductive Reads : Reading → Prop
  | wait : Reads .wait
  | error (e : List UInt8) : Reads (.stop (.protocol e))
  | empty (hr : core.rstack = []) : Reads (.stop .fault)
  | unplaced (obj : Reply) (h : createObject core obj = none) : Reads (.stop .fault)
  | typed (cur : Task) (rstack : List Task) (type : ReplyType) (hr : core.rstack = cur::rstack)
      (hb : 1 ≤ xs.length) :
      Reads (.take 1 { core with rstack := { cur with type := some type }::rstack } [])
  | finished (n : ℕ) (obj : Reply) (next : Core) (hn : 0 < n ∧ n ≤ xs.length)
      (ho : obj ≠ .null) (h : createObject core obj = some next) :
      Reads (.take n { next with rstack := moveToNextTask next.rstack } [])
  | opened (n : ℕ) (elements : ℤ) (cur : Task) (rstack : List Task) (next : Core)
      (hn : 0 < n ∧ n ≤ xs.length) (hr : core.rstack = cur::rstack) (ht : cur.type = some .array)
      (hd : rstack.length ≠ 3) (hv : elements = readLongLong xs) (he : 0 < elements)
      (h : createObject core (arrayObject (i32 elements)) = some next) :
      Reads (.take n { next with rstack :=
        ⟨none,-1,0⟩::{ cur with elements := i32 elements }::rstack } [])

theorem finish_reads (n : ℕ) (obj : Reply) (h0 : 0 < n) (hn : n ≤ xs.length)
    (ho : obj ≠ .null) : Reads core xs (finish core n obj) := by
  rw [finish]
  cases h : createObject core obj with
  | none => exact .unplaced obj h
  | some next => exact .finished n obj next ⟨h0,hn⟩ ho h

theorem processLineItem_reads (type : ReplyType) :
    Reads core xs (processLineItem core xs type) := by
  rw [processLineItem]
  cases hs : seekNewline xs with
  | none => exact .wait
  | some p =>
    have hin := seekNewline_inside hs
    cases type <;> exact finish_reads core xs _ _ (by omega) hin (by simp)

theorem processBulkItem_reads : Reads core xs (processBulkItem core xs) := by
  rw [processBulkItem]
  cases hs : seekNewline xs with
  | none => exact .wait
  | some p =>
    have hin := seekNewline_inside hs
    simp only
    split_ifs with h1 h2
    · exact finish_reads core xs _ _ (by omega) hin (by simp)
    · exact finish_reads core xs _ _ (by omega) h2 (by simp)
    · exact .wait

theorem processMultiBulkItem_reads {cur : Task} {rstack : List Task}
    (hr : core.rstack = cur::rstack) (ht : cur.type = some .array) :
    Reads core xs (processMultiBulkItem core xs) := by
  simp only [processMultiBulkItem, hr]
  split_ifs with hd
  · exact .error _
  · cases hs : seekNewline xs with
    | none => exact .wait
    | some p =>
      have hin := seekNewline_inside hs
      simp only [openArray]
      split_ifs with h1 h2
      · exact finish_reads core xs _ _ (by omega) hin (by simp)
      · cases h : createObject core (arrayObject (i32 (readLongLong xs))) with
        | none => exact .unplaced _ h
        | some next => exact .opened _ _ cur rstack next ⟨by omega,hin⟩ hr ht hd rfl h2 h
      · exact finish_reads core xs _ _ (by omega) hin (by simp [arrayObject])

theorem itemPart_reads : Reads core xs (itemPart core xs) := by
  rw [itemPart]
  cases hr : core.rstack with
  | nil => exact .empty hr
  | cons cur rstack =>
    cases ht : cur.type with
    | none =>
      simp only [ht, readType]
      cases xs with
      | nil => exact .wait
      | cons byte xs =>
        simp only
        cases typeOf byte with
        | none => exact .error _
        | some type => exact .typed cur rstack type hr (by simp)
    | some type =>
      simp only [ht]
      cases type with
      | string => exact processBulkItem_reads core xs
      | array => exact processMultiBulkItem_reads core xs hr ht
      | integer => exact processLineItem_reads core xs .integer
      | status => exact processLineItem_reads core xs .status
      | error => exact processLineItem_reads core xs .error

/-- The bytes that a part takes are there. -/
def Inside (n : ℕ) : Reading → Prop
  | .take m _ _ => 0 < m ∧ m ≤ n
  | _ => True

theorem itemPart_inside : Inside xs.length (itemPart core xs) := by
  generalize hi : itemPart core xs = reading
  have h := itemPart_reads core xs
  rw [hi] at h
  cases h with
  | wait => trivial
  | error => trivial
  | empty => trivial
  | unplaced => trivial
  | typed cur rstack type hr hb => exact ⟨by omega,hb⟩
  | finished n obj next hn => exact hn
  | opened n elements cur rstack next hn => exact hn

theorem emit_wait_iff (reading : Reading) : emit reading = .wait ↔ reading = .wait := by
  cases reading with
  | wait => rfl
  | stop e => rfl
  | take n core out =>
    cases hr : core.rstack <;> simp [emit, hr]

theorem emit_inside (n : ℕ) (reading : Reading) (h : Inside n reading) :
    Inside n (emit reading) := by
  cases reading with
  | wait => trivial
  | stop e => trivial
  | take m core out =>
    simp only [emit]
    cases core.rstack <;> exact h

theorem step_append (hl : (xs++ys).length < 2^31) (h : step core xs ≠ .wait) :
    step core (xs++ys) = step core xs := by
  rw [step, step, itemPart_append core xs ys hl]
  exact fun hw => h ((emit_wait_iff _).2 hw)

theorem step_steady : Steady step (2^31) where
  inside s xs n t out h := by
    have hin : Inside xs.length (step s xs) := emit_inside _ _ (itemPart_inside s xs)
    rw [h] at hin
    exact hin
  take s xs ys n t out hl h := by
    rw [step_append s xs ys hl (by simp [h]), h]
  stop s xs ys e hl h := by
    rw [step_append s xs ys hl (by simp [h]), h]

end Steadiness

end Duda.RedisReader
