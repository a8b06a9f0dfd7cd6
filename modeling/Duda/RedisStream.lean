import Duda.RedisReader

/-!
# The reader on a stream that arrives in pieces

A piece is appended to the buffer, and replies are asked for until none is
complete. The position in the buffer, the moment at which the buffer is cut, the
two parts of an item and the task that is put on an empty stack do not show in
what comes out: a run is the exhaustion of the abstract step on the bytes of
all pieces.
-/

set_option autoImplicit false

namespace Duda.RedisStream
open Duda.IncrementalParser Duda.RedisReader

/-- A reader. The length of the buffer is that of its contents, which an `int` of the
string's header holds. -/
structure Reader where
  err : Option (List UInt8)
  buf : List UInt8
  pos : ℕ
  core : Core
  inside : pos ≤ buf.length
  bounded : buf.length < 2^31

inductive Status where
  | ok | err
  deriving DecidableEq, Repr

namespace Reader

def unread (r : Reader) : List UInt8 := r.buf.drop r.pos

theorem nil_bounded : ([] : List UInt8).length < 2^31 := by decide

def redisReaderCreate : Reader := ⟨none,[],0,⟨[],.null⟩,le_refl 0,nil_bounded⟩

/-- `__redisReaderSetError` for an error of the protocol. -/
def setError (errstr : List UInt8) : Reader :=
  ⟨some errstr,[],0,⟨[],.null⟩,le_refl 0,nil_bounded⟩

theorem unread_length (r : Reader) : r.unread.length = r.buf.length-r.pos := List.length_drop

def advance (r : Reader) (n : ℕ) (core : Core) (h : n ≤ r.unread.length) : Reader :=
  ⟨r.err,r.buf,r.pos+n,core,by
    have hp := r.inside
    rw [unread_length] at h
    omega,r.bounded⟩

/-- What a part of an item does to the reader. -/
def settle (r : Reader) (reading : Reading) (h : Inside r.unread.length reading) :
    Option (Reader × Status) :=
  match reading, h with
  | .wait, _ => some (r,.err)
  | .take n core _, h => some (r.advance n core h.2,.ok)
  | .stop (.protocol errstr), _ => some (setError errstr,.err)
  | .stop .fault, _ => none

def part (r : Reader) : Option (Reader × Status) :=
  r.settle (itemPart r.core r.unread) (itemPart_inside r.core r.unread)

def untyped (r : Reader) : Bool :=
  match r.core.rstack with
  | [] => false
  | cur::_ => cur.type.isNone

def processItem (r : Reader) : Option (Reader × Status) :=
  if r.untyped then
    match r.part with
    | some (r,.ok) => r.part
    | result => result
  else r.part

/-- The loop of `redisReaderGetReply`. -/
def processItems : ℕ → Reader → Option Reader
  | 0, r => some r
  | k+1, r =>
    match r.core.rstack with
    | [] => some r
    | _::_ =>
      match r.processItem with
      | none => none
      | some (r,.ok) => processItems k r
      | some (r,.err) => some r

def begin (r : Reader) : Reader :=
  match r.core.rstack with
  | [] => { r with core := { r.core with rstack := [⟨none,-1,-1⟩] } }
  | _::_ => r

/-- What was read is cut off when it is at least 1k. -/
def discard (r : Reader) : Reader :=
  if 1024 ≤ r.pos then ⟨r.err,r.buf.drop r.pos,0,r.core,Nat.zero_le _,by
    have hb := r.bounded
    rw [List.length_drop]
    omega⟩ else r

/-- The reply that is left when the stack is empty. -/
def release (r : Reader) : Reader × Status × Reply :=
  match r.core.rstack with
  | [] => ({ r with core := ⟨[],.null⟩ },.ok,r.core.reply)
  | _::_ => (r,.ok,.null)

def redisReaderGetReply (r : Reader) : Option (Reader × Status × Reply) :=
  if r.err.isSome then some (r,.err,.null)
  else if r.buf.length = 0 then some (r,.ok,.null)
  else
    match processItems (r.unread.length+1) r.begin with
    | none => none
    | some r => if r.err.isSome then some (r,.err,.null) else some r.discard.release

/-- `redisReaderFeed`. A buffer whose length leaves the `int` is not followed further. -/
def redisReaderFeed (r : Reader) (buf : List UInt8) : Option Reader :=
  if r.err.isSome then some r
  else if h : (r.buf++buf).length < 2^31 then
    some ⟨r.err,r.buf++buf,r.pos,r.core,by
      have hp := r.inside
      rw [List.length_append]
      omega,h⟩
  else none

/-- Replies are asked for until there is none. -/
def drain : ℕ → Reader → Option (Reader × List Reply)
  | 0, r => some (r,[])
  | k+1, r =>
    match r.redisReaderGetReply with
    | none => none
    | some (r,_,.null) => some (r,[])
    | some (r,_,reply) => (drain k r).map fun (r,replies) => (r,reply::replies)

/-- A piece arrives, and all replies that are complete are taken. -/
def receive (r : Reader) (piece : List UInt8) : Option (Reader × List Reply) :=
  (r.redisReaderFeed piece).bind fun r => drain (r.unread.length+1) r

def receiveAll : Reader → List (List UInt8) → Option (Reader × List Reply)
  | r, [] => some (r,[])
  | r, piece::pieces =>
    match r.receive piece with
    | none => none
    | some (r,replies) => (receiveAll r pieces).map fun (r,more) => (r,replies++more)

end Reader

open Reader

section Parts

variable (r : Reader)

theorem advance_unread (n : ℕ) (core : Core) (h : n ≤ r.unread.length) :
    (r.advance n core h).unread = r.unread.drop n := by
  simp only [advance, unread, List.drop_drop]

/-- A part and the abstract step. -/
inductive Parted : Option (Reader × Status) → Prop
  | wait (h : step r.core r.unread = .wait) : Parted (some (r,.err))
  | stop (e : List UInt8) (h : step r.core r.unread = .stop (.protocol e)) :
      Parted (some (setError e,.err))
  | fault (h : step r.core r.unread = .stop .fault) : Parted none
  | take (n : ℕ) (next : Reader) (hn : 0 < n ∧ n ≤ r.unread.length) (herr : next.err = r.err)
      (hrest : next.unread = r.unread.drop n)
      (h : step r.core r.unread = emit (.take n next.core [])) : Parted (some (next,.ok))

theorem settle_parted (reading : Reading) (hin : Inside r.unread.length reading)
    (hi : itemPart r.core r.unread = reading) : Parted r (r.settle reading hin) := by
  have hstep : step r.core r.unread = emit reading := by rw [step, hi]
  cases reading with
  | wait => exact .wait hstep
  | take n core out => exact .take n _ hin rfl (advance_unread r n core hin.2) hstep
  | stop e =>
    cases e with
    | protocol e => exact .stop e hstep
    | fault => exact .fault hstep

theorem part_parted : Parted r r.part := settle_parted r _ _ rfl

end Parts

section Items

/-- One call that goes on to the next reply, and the exhaustion of the step. -/
inductive Looped (r : Reader) : Option Reader → Prop
  | fault (h : exhaust step r.core r.unread = ([],.stopped .fault)) : Looped r none
  | error (e : List UInt8)
      (h : exhaust step r.core r.unread = ([],.stopped (.protocol e))) :
      Looped r (some (setError e))
  | waits (next : Reader) (herr : next.err = none) (hs : next.core.rstack ≠ [])
      (hw : step next.core next.unread = .wait)
      (h : exhaust step r.core r.unread = ([],.waiting next.core next.unread)) :
      Looped r (some next)
  | reply (next : Reader) (herr : next.err = none) (hs : next.core.rstack = [])
      (hr : next.core.reply ≠ .null) (hl : next.unread.length < r.unread.length)
      (h : exhaust step r.core r.unread =
        (next.core.reply::(exhaust step fresh next.unread).1,
          (exhaust step fresh next.unread).2)) : Looped r (some next)

theorem looped_later {r next : Reader} {result : Option Reader}
    (he : exhaust step r.core r.unread = exhaust step next.core next.unread)
    (hl : next.unread.length ≤ r.unread.length) (h : Looped next result) :
    Looped r result := by
  cases h with
  | fault h => exact .fault (he.trans h)
  | error e h => exact .error e (he.trans h)
  | waits last herr hs hw h => exact .waits last herr hs hw (he.trans h)
  | reply last herr hs hr hshort h => exact .reply last herr hs hr (by omega) (he.trans h)

theorem take_later {r next : Reader} {n : ℕ} (hrest : next.unread = r.unread.drop n)
    (h : step r.core r.unread = emit (.take n next.core [])) :
    (next.core.rstack = [] → exhaust step r.core r.unread =
        (next.core.reply::(exhaust step fresh next.unread).1,
          (exhaust step fresh next.unread).2)) ∧
      (next.core.rstack ≠ [] →
        exhaust step r.core r.unread = exhaust step next.core next.unread) := by
  rw [hrest]
  constructor
  · intro hs
    simp only [emit, hs] at h
    rw [exhaust_take step_steady h]
    rfl
  · intro hs
    obtain ⟨cur,rstack,hr⟩ := List.exists_cons_of_ne_nil hs
    simp only [emit, hr] at h
    rw [exhaust_take step_steady h]
    rfl

/-- What follows a part or an item in the loop. -/
def after (f : Reader → Option Reader) : Option (Reader × Status) → Option Reader
  | none => none
  | some (r,.ok) => f r
  | some (r,.err) => some r

theorem processItems_succ (k : ℕ) {r : Reader} (hs : r.core.rstack ≠ []) :
    processItems (k+1) r =
      if r.untyped then after (fun r => after (processItems k) r.part) r.part
      else after (processItems k) r.part := by
  obtain ⟨cur,rstack,hr⟩ := List.exists_cons_of_ne_nil hs
  simp only [processItems, hr, processItem]
  split_ifs with hu
  · rcases r.part with _ | ⟨next,status⟩
    · rfl
    · cases status with
      | err => rfl
      | ok =>
        rcases next.part with _ | ⟨last,status⟩
        · rfl
        · cases status <;> rfl
  · rcases r.part with _ | ⟨next,status⟩
    · rfl
    · cases status <;> rfl

theorem settle_ok {r next : Reader} {reading : Reading} {hin : Inside r.unread.length reading}
    (h : r.settle reading hin = some (next,.ok)) : ∃ n out, reading = .take n next.core out := by
  cases reading with
  | wait => simp [settle] at h
  | take n core out =>
    simp only [settle, Option.some.injEq, Prod.mk.injEq, and_true] at h
    exact ⟨n,out,by rw [← h, advance]⟩
  | stop e => cases e <;> simp [settle] at h

/-- When no task is left there is a reply. -/
def Complete : Reading → Prop
  | .take _ core _ => core.rstack = [] → core.reply ≠ .null
  | _ => True

theorem assign_ne_null {path : List ℕ} {obj root result : Reply} (ho : obj ≠ .null)
    (h : assign path obj root = some result) : result ≠ .null := by
  cases path with
  | nil =>
    rw [assign, Option.some.injEq] at h
    rwa [← h]
  | cons i path =>
    cases root with
    | array elements element =>
      rw [assign] at h
      cases he : element[i]? with
      | none => simp [he] at h
      | some r =>
        simp only [he, Option.map_eq_some_iff] at h
        obtain ⟨r,_,rfl⟩ := h
        simp
    | _ => simp [assign] at h

theorem createObject_ne_null {core next : Core} {obj : Reply} (ho : obj ≠ .null)
    (h : createObject core obj = some next) : next.reply ≠ .null := by
  rw [createObject, Option.map_eq_some_iff] at h
  obtain ⟨reply,hr,rfl⟩ := h
  exact assign_ne_null ho hr

theorem itemPart_complete (core : Core) (buf : List UInt8) : Complete (itemPart core buf) := by
  generalize hi : itemPart core buf = reading
  have h := itemPart_reads core buf
  rw [hi] at h
  cases h with
  | wait => trivial
  | error => trivial
  | empty => trivial
  | unplaced => trivial
  | typed => exact fun hs => absurd hs (List.cons_ne_nil _ _)
  | finished n obj next hn ho h =>
    have hr : next.reply ≠ .null := createObject_ne_null ho h
    exact fun _ => hr
  | opened => exact fun hs => absurd hs (List.cons_ne_nil _ _)

theorem untyped_part {r next : Reader} (hu : r.untyped = true) (h : r.part = some (next,.ok)) :
    next.core.rstack ≠ [] := by
  obtain ⟨n,out,hi⟩ := settle_ok h
  rw [untyped] at hu
  cases hr : r.core.rstack with
  | nil => simp [hr] at hu
  | cons cur rstack =>
    simp only [hr, Option.isNone_iff_eq_none] at hu
    simp only [itemPart, hr, hu, readType] at hi
    cases hb : r.unread with
    | nil => simp [hb] at hi
    | cons byte rest =>
      simp only [hb] at hi
      cases ht : typeOf byte with
      | none => simp [ht] at hi
      | some type =>
        simp only [ht, Outcome.take.injEq] at hi
        rw [← hi.2.1]
        exact List.cons_ne_nil _ _

theorem after_looped {r : Reader} (f : Reader → Option Reader) (herr : r.err = none)
    (hs : r.core.rstack ≠ [])
    (hdone : ∀ next, r.part = some (next,.ok) → next.core.rstack = [] → f next = some next)
    (hmore : ∀ next, next.err = none → next.unread.length < r.unread.length →
      next.core.rstack ≠ [] → Looped next (f next)) : Looped r (after f r.part) := by
  have hp := part_parted r
  generalize hpart : r.part = result at hp
  cases hp with
  | wait h => exact .waits r herr hs h (exhaust_wait step h)
  | stop e h => exact .error e (exhaust_stop step h)
  | fault h => exact .fault (exhaust_stop step h)
  | take n next hn hnext hrest h =>
    have hshort : next.unread.length < r.unread.length := by
      rw [hrest, List.length_drop]
      omega
    obtain ⟨hempty,hfull⟩ := take_later hrest h
    by_cases hstack : next.core.rstack = []
    · rw [after, hdone next hpart hstack]
      obtain ⟨m,out,hi⟩ := settle_ok hpart
      have hcomplete := itemPart_complete r.core r.unread
      rw [hi] at hcomplete
      exact .reply next (hnext.trans herr) hstack (hcomplete hstack) hshort (hempty hstack)
    · exact looped_later (hfull hstack) hshort.le
        (hmore next (hnext.trans herr) hshort hstack)

theorem processItems_empty (k : ℕ) {r : Reader} (hs : r.core.rstack = []) :
    processItems k r = some r := by
  cases k with
  | zero => rfl
  | succ k => simp only [processItems, hs]

/-- With a turn for every byte the loop ends by itself. -/
theorem processItems_looped (k : ℕ) (r : Reader) (herr : r.err = none)
    (hs : r.core.rstack ≠ []) (hk : r.unread.length < k) : Looped r (processItems k r) := by
  induction k generalizing r with
  | zero => omega
  | succ k ih =>
    have hnext : ∀ next : Reader, next.err = none → next.unread.length < r.unread.length →
        next.core.rstack ≠ [] → Looped next (processItems k next) :=
      fun next he hl hn => ih next he hn (by omega)
    rw [processItems_succ k hs]
    split_ifs with hu
    · apply after_looped _ herr hs
      · intro next hp hn
        exact absurd hn (untyped_part hu hp)
      · intro next he hl hn
        exact after_looped _ he hn (fun last _ => processItems_empty k)
          (fun last hle hll hln => hnext last hle (by omega) hln)
    · exact after_looped _ herr hs (fun next _ => processItems_empty k) hnext

end Items

section Replies

theorem itemPart_wait_empty {core : Core} {buf : List UInt8} (h : itemPart core buf = .wait) :
    itemPart core [] = .wait := by
  rw [itemPart] at h ⊢
  cases hr : core.rstack with
  | nil => simp [hr] at h
  | cons cur rstack =>
    cases ht : cur.type with
    | none => simp only [ht, readType]
    | some type =>
      simp only [hr, ht] at h ⊢
      cases type with
      | array =>
        simp only [processTyped, processMultiBulkItem, hr] at h ⊢
        split_ifs at h ⊢ with hd
        rfl
      | _ => rfl

/-- A reader between two calls. -/
structure Clean (r : Reader) : Prop where
  err : r.err = none
  idle : r.core.rstack = [] → r.core.reply = .null
  quiet : step r.begin.core [] = .wait

theorem begin_unread (r : Reader) : r.begin.unread = r.unread := by
  rw [begin]
  cases r.core.rstack <;> rfl

theorem begin_err (r : Reader) : r.begin.err = r.err := by
  rw [begin]
  cases r.core.rstack <;> rfl

theorem begin_core {a b : Reader} (h : a.core = b.core) : a.begin.core = b.begin.core := by
  rw [begin, begin, h]
  cases hr : b.core.rstack with
  | nil => rfl
  | cons cur rstack => exact h

theorem begin_rstack (r : Reader) : r.begin.core.rstack ≠ [] := by
  rw [begin]
  cases hr : r.core.rstack with
  | nil => exact List.cons_ne_nil _ _
  | cons cur rstack =>
    simp only [hr]
    exact List.cons_ne_nil _ _

theorem begin_full {r : Reader} (h : r.core.rstack ≠ []) : r.begin = r := by
  rw [begin]
  cases hr : r.core.rstack with
  | nil => exact absurd hr h
  | cons cur rstack => rfl

theorem discard_unread (r : Reader) : r.discard.unread = r.unread := by
  rw [Reader.discard]
  split_ifs <;> rfl

theorem discard_core (r : Reader) : r.discard.core = r.core ∧ r.discard.err = r.err := by
  rw [Reader.discard]
  split_ifs <;> exact ⟨rfl,rfl⟩

/-- One call of `redisReaderGetReply`. -/
inductive Got (r : Reader) : Option (Reader × Status × Reply) → Prop
  | fault (h : exhaust step r.begin.core r.unread = ([],.stopped .fault)) : Got r none
  | error (e : List UInt8)
      (h : exhaust step r.begin.core r.unread = ([],.stopped (.protocol e))) :
      Got r (some (setError e,.err,.null))
  | waits (next : Reader) (hc : Clean next)
      (hw : step next.begin.core next.unread = .wait)
      (h : exhaust step r.begin.core r.unread = ([],.waiting next.begin.core next.unread)) :
      Got r (some (next,.ok,.null))
  | reply (next : Reader) (reply : Reply) (hc : Clean next) (hr : reply ≠ .null)
      (hl : next.unread.length < r.unread.length)
      (h : exhaust step r.begin.core r.unread =
        (reply::(exhaust step next.begin.core next.unread).1,
          (exhaust step next.begin.core next.unread).2)) : Got r (some (next,.ok,reply))

theorem release_full {r : Reader} (h : r.core.rstack ≠ []) : r.release = (r,.ok,.null) := by
  rw [release]
  cases hr : r.core.rstack with
  | nil => exact absurd hr h
  | cons cur rstack => rfl

theorem step_wait_empty {core : Core} {buf : List UInt8} (h : step core buf = .wait) :
    step core [] = .wait :=
  (emit_wait_iff _).2 (itemPart_wait_empty ((emit_wait_iff _).1 h))

theorem getReply_got (r : Reader) (hc : Clean r) : Got r r.redisReaderGetReply := by
  rw [redisReaderGetReply]
  split_ifs with he hb
  · simp [hc.err] at he
  · have hu : r.unread = [] := by
      rw [unread, List.eq_nil_of_length_eq_zero hb, List.drop_nil]
    have hw : step r.begin.core r.unread = .wait := by rw [hu, hc.quiet]
    exact .waits r hc hw (exhaust_wait step hw)
  · have hloop := processItems_looped (r.unread.length+1) r.begin
      ((begin_err r).trans hc.err) (begin_rstack r) (by rw [begin_unread]; omega)
    generalize processItems (r.unread.length+1) r.begin = result at hloop
    cases hloop with
    | fault h => exact .fault (by rwa [begin_unread] at h)
    | error e h => exact .error e (by rwa [begin_unread] at h)
    | waits next herr hs hw h =>
      obtain ⟨hcore,hdiscard⟩ := discard_core next
      have hds : next.discard.core.rstack ≠ [] := by rwa [hcore]
      simp only [herr, Option.isSome_none, Bool.false_eq_true, if_false, release_full hds]
      apply Got.waits
      · exact ⟨hdiscard.trans herr,fun h => absurd h hds,by
          rw [begin_full hds, hcore]
          exact step_wait_empty hw⟩
      · rw [begin_full hds, hcore, discard_unread, hw]
      · rw [begin_unread] at h
        rw [begin_full hds, hcore, discard_unread, h]
    | reply next herr hs hr hl h =>
      obtain ⟨hcore,hdiscard⟩ := discard_core next
      have hds : next.discard.core.rstack = [] := by rwa [hcore]
      rw [begin_unread] at hl h
      simp only [herr, Option.isSome_none, Bool.false_eq_true, if_false, release, hds]
      have hu : ({ next.discard with core := ⟨[],.null⟩ } : Reader).unread = next.unread :=
        discard_unread next
      apply Got.reply
      · exact ⟨hdiscard.trans herr,fun _ => rfl,rfl⟩
      · rwa [hcore]
      · rwa [hu]
      · rw [hu, h, hcore]
        rfl

end Replies

section Buffers

variable {r next : Reader} {status : Status}

theorem settle_buf {reading : Reading} {hin : Inside r.unread.length reading}
    (h : r.settle reading hin = some (next,status)) : next.buf.length ≤ r.buf.length := by
  cases reading with
  | wait =>
    cases h
    exact le_refl _
  | take n core out =>
    cases h
    exact le_refl _
  | stop e =>
    cases e with
    | protocol e =>
      cases h
      exact Nat.zero_le _
    | fault => cases h

theorem part_buf (h : r.part = some (next,status)) : next.buf.length ≤ r.buf.length :=
  settle_buf h

theorem processItem_buf (h : r.processItem = some (next,status)) :
    next.buf.length ≤ r.buf.length := by
  rw [processItem] at h
  split_ifs at h with hu
  · cases hp : r.part with
    | none => simp [hp] at h
    | some result =>
      obtain ⟨mid,st⟩ := result
      have hmid := part_buf hp
      cases st with
      | ok =>
        simp only [hp] at h
        exact (part_buf h).trans hmid
      | err =>
        simp only [hp, Option.some.injEq, Prod.mk.injEq] at h
        rwa [← h.1]
  · exact part_buf h

theorem processItems_buf (k : ℕ) (h : processItems k r = some next) :
    next.buf.length ≤ r.buf.length := by
  induction k generalizing r with
  | zero =>
    cases h
    exact le_refl _
  | succ k ih =>
    cases hr : r.core.rstack with
    | nil =>
      simp only [processItems, hr, Option.some.injEq] at h
      rw [h]
    | cons cur rstack =>
      cases hp : r.processItem with
      | none => simp [processItems, hr, hp] at h
      | some result =>
        obtain ⟨mid,st⟩ := result
        have hmid := processItem_buf hp
        cases st with
        | ok =>
          simp only [processItems, hr, hp] at h
          exact (ih h).trans hmid
        | err =>
          simp only [processItems, hr, hp, Option.some.injEq] at h
          rwa [← h]

theorem begin_buf (r : Reader) : r.begin.buf = r.buf := by
  rw [begin]
  cases r.core.rstack <;> rfl

theorem release_buf (r : Reader) : r.discard.release.1.buf.length ≤ r.buf.length := by
  have hkeep : ∀ r : Reader, r.release.1.buf = r.buf := by
    intro r
    rw [release]
    cases r.core.rstack <;> rfl
  rw [hkeep, Reader.discard]
  split_ifs
  · rw [List.length_drop]
    exact Nat.sub_le _ _
  · exact le_refl _

theorem getReply_buf {reply : Reply} (h : r.redisReaderGetReply = some (next,status,reply)) :
    next.buf.length ≤ r.buf.length := by
  rw [redisReaderGetReply] at h
  split_ifs at h with he hb
  · cases h
    exact le_refl _
  · cases h
    exact le_refl _
  · cases hp : processItems (r.unread.length+1) r.begin with
    | none => simp [hp] at h
    | some mid =>
      have hmid := processItems_buf _ hp
      rw [begin_buf] at hmid
      simp only [hp] at h
      split_ifs at h with hm
      · cases h
        exact hmid
      · have hlast := release_buf mid
        rw [Option.some.inj h] at hlast
        exact hlast.trans hmid

theorem drain_buf (k : ℕ) {replies : List Reply} (h : drain k r = some (next,replies)) :
    next.buf.length ≤ r.buf.length := by
  induction k generalizing r replies with
  | zero =>
    cases h
    exact le_refl _
  | succ k ih =>
    cases hg : r.redisReaderGetReply with
    | none => simp [drain, hg] at h
    | some result =>
      obtain ⟨mid,st,reply⟩ := result
      have hmid := getReply_buf hg
      by_cases hn : reply = .null
      · subst hn
        simp only [drain, hg, Option.some.injEq, Prod.mk.injEq] at h
        rwa [← h.1]
      · simp only [drain, hg, Option.map_eq_some_iff] at h
        obtain ⟨⟨last,more⟩,hlast,heq⟩ := h
        cases heq
        exact (ih hlast).trans hmid

theorem receive_buf {piece : List UInt8} {replies : List Reply}
    (h : r.receive piece = some (next,replies)) :
    next.buf.length ≤ r.buf.length+piece.length := by
  rw [receive, Option.bind_eq_some_iff] at h
  obtain ⟨mid,hfeed,hdrain⟩ := h
  have hlast := drain_buf _ hdrain
  have hmid : mid.buf.length ≤ r.buf.length+piece.length := by
    rw [redisReaderFeed] at hfeed
    split_ifs at hfeed
    · cases hfeed
      exact Nat.le_add_right _ _
    · cases hfeed
      rw [List.length_append]
  exact hlast.trans hmid

end Buffers

section Pieces

/-- What is left of some bytes, and the replies in them. -/
inductive Drained (core : Core) (bytes : List UInt8) : Option (Reader × List Reply) → Prop
  | fault (h : (exhaust step core bytes).2 = .stopped .fault) : Drained core bytes none
  | error (e : List UInt8) (replies : List Reply)
      (h : exhaust step core bytes = (replies,.stopped (.protocol e))) :
      Drained core bytes (some (setError e,replies))
  | waits (next : Reader) (replies : List Reply) (hc : Clean next)
      (hw : step next.begin.core next.unread = .wait)
      (h : exhaust step core bytes = (replies,.waiting next.begin.core next.unread)) :
      Drained core bytes (some (next,replies))

theorem getReply_error {r : Reader} {e : List UInt8} (h : r.err = some e) :
    r.redisReaderGetReply = some (r,.err,.null) := by
  simp [redisReaderGetReply, h]

theorem drain_null {r next : Reader} {status : Status} (k : ℕ)
    (h : r.redisReaderGetReply = some (next,status,.null)) :
    drain (k+1) r = some (next,[]) := by
  simp [drain, h]

theorem drain_reply {r next : Reader} {status : Status} {reply : Reply} (k : ℕ)
    (hr : reply ≠ .null) (h : r.redisReaderGetReply = some (next,status,reply)) :
    drain (k+1) r = (drain k next).map fun (r,replies) => (r,reply::replies) := by
  simp only [drain, h]

theorem drain_drained (k : ℕ) (r : Reader) (hc : Clean r) (hk : r.unread.length < k) :
    Drained r.begin.core r.unread (drain k r) := by
  induction k generalizing r with
  | zero => omega
  | succ k ih =>
    have hgot := getReply_got r hc
    generalize hg : r.redisReaderGetReply = result at hgot
    cases hgot with
    | fault h =>
      rw [drain, hg]
      exact .fault (by rw [h])
    | error e h =>
      rw [drain_null k hg]
      exact .error e [] h
    | waits next hn hw h =>
      rw [drain_null k hg]
      exact .waits next [] hn hw h
    | reply next reply hn hr hl h =>
      rw [drain_reply k hr hg]
      have hrest := ih next hn (by omega)
      generalize drain k next = rest at hrest
      cases hrest with
      | fault hf => exact .fault (by rw [h, hf])
      | error e replies he => exact .error e _ (by rw [h, he])
      | waits last replies hlast hw he => exact .waits last _ hlast hw (by rw [h, he])

/-- A reader that a piece was appended to. -/
structure Fed (r : Reader) (piece : List UInt8) (next : Reader) : Prop where
  clean : Clean next
  unread : next.unread = r.unread++piece
  core : next.begin.core = r.begin.core
  buf : next.buf = r.buf++piece

theorem feed_fed {r next : Reader} {piece : List UInt8} (hc : Clean r)
    (h : r.redisReaderFeed piece = some next) : Fed r piece next := by
  rw [redisReaderFeed, if_neg (by simp [hc.err])] at h
  split_ifs at h with hl
  rw [Option.some.injEq] at h
  have herr : next.err = r.err := by rw [← h]
  have hbuf : next.buf = r.buf++piece := by rw [← h]
  have hpos : next.pos = r.pos := by rw [← h]
  have hcore : next.core = r.core := by rw [← h]
  refine ⟨⟨herr.trans hc.err,?_,?_⟩,?_,begin_core hcore,hbuf⟩
  · rw [hcore]
    exact hc.idle
  · rw [begin_core hcore]
    exact hc.quiet
  · rw [unread, hbuf, hpos, List.drop_append_of_le_length r.inside, unread]

theorem feed_some {r : Reader} {piece : List UInt8} (hl : r.buf.length+piece.length < 2^31) :
    ∃ next, r.redisReaderFeed piece = some next := by
  rw [redisReaderFeed]
  split_ifs with he hs
  · exact ⟨_,rfl⟩
  · exact ⟨_,rfl⟩
  · rw [List.length_append] at hs
    exact absurd hl hs

theorem receive_drained {r : Reader} (hc : Clean r) (piece : List UInt8)
    (hl : r.buf.length+piece.length < 2^31) :
    Drained r.begin.core (r.unread++piece) (r.receive piece) := by
  obtain ⟨next,hnext⟩ := feed_some hl
  have hfed := feed_fed hc hnext
  have h := drain_drained (next.unread.length+1) next hfed.clean (by omega)
  rw [receive, hnext, Option.bind_some, ← hfed.core, ← hfed.unread]
  exact h

theorem receiveAll_error {r : Reader} {e : List UInt8} (h : r.err = some e)
    (pieces : List (List UInt8)) : r.receiveAll pieces = some (r,[]) := by
  induction pieces with
  | nil => rfl
  | cons piece pieces ih =>
    have hf : r.redisReaderFeed piece = some r := by simp [redisReaderFeed, h]
    have hr : r.receive piece = some (r,[]) := by
      rw [receive, hf, Option.bind_some, drain_null _ (getReply_error h)]
    simp [receiveAll, hr, ih]

/-- A run over pieces is the exhaustion of the step on all their bytes. -/
theorem receiveAll_drained {r : Reader} (hc : Clean r) (hw : step r.begin.core r.unread = .wait)
    (pieces : List (List UInt8)) (hl : r.buf.length+pieces.flatten.length < 2^31) :
    Drained r.begin.core (r.unread++pieces.flatten) (r.receiveAll pieces) := by
  induction pieces generalizing r with
  | nil =>
    rw [List.flatten_nil, List.append_nil]
    exact .waits r [] hc hw (exhaust_wait step hw)
  | cons piece pieces ih =>
    rw [List.flatten_cons, List.length_append] at hl
    rw [List.flatten_cons, ← List.append_assoc]
    have hunread := unread_length r
    have happ := exhaust_append step_steady r.begin.core (r.unread++piece) pieces.flatten
      (by simp only [List.length_append]; omega)
    have hfirst := receive_drained hc piece (by omega)
    rw [receiveAll]
    generalize hrec : r.receive piece = first at hfirst
    cases hfirst with
    | fault h => exact .fault (by rw [happ, feed, h])
    | error e replies h =>
      rw [h] at happ
      simp only [receiveAll_error (show (setError e).err = some e from rfl), Option.map_some,
        List.append_nil]
      exact .error e replies happ
    | waits next replies hn hnw h =>
      have hbuf := receive_buf hrec
      have hrest := ih hn hnw (by omega)
      simp only [h, feed] at happ
      simp only
      generalize next.receiveAll pieces = rest at hrest
      cases hrest with
      | fault hf => exact .fault (by rw [happ, hf])
      | error e more he => exact .error e _ (by rw [happ, he])
      | waits last more hl hlw he => exact .waits last _ hl hlw (by rw [happ, he])

theorem create_clean : Clean redisReaderCreate := ⟨rfl,fun _ => rfl,rfl⟩

theorem create_drained (pieces : List (List UInt8)) (hl : pieces.flatten.length < 2^31) :
    Drained fresh pieces.flatten (redisReaderCreate.receiveAll pieces) :=
  receiveAll_drained create_clean rfl pieces
    (by simpa only [redisReaderCreate, List.length_nil, Nat.zero_add] using hl)

/-- What a user of the reader can tell: the error, the bytes that wait, the place in the
reply, and the replies. -/
def observe (result : Reader × List Reply) :
    Option (List UInt8) × List UInt8 × Core × List Reply :=
  (result.1.err,result.1.unread,result.1.begin.core,result.2)

theorem drained_observe {core : Core} {bytes : List UInt8} {a b : Option (Reader × List Reply)}
    (ha : Drained core bytes a) (hb : Drained core bytes b) : a.map observe = b.map observe := by
  cases ha with
  | fault h =>
    cases hb with
    | fault => rfl
    | error e replies h' => simp [h'] at h
    | waits last replies hc hw h' => simp [h'] at h
  | error e replies h =>
    cases hb with
    | fault h' => simp [h] at h'
    | error e' replies' h' =>
      rw [h, Prod.mk.injEq, Rest.stopped.injEq, Stop.protocol.injEq] at h'
      rw [h'.1, h'.2]
    | waits last replies' hc hw h' => simp [h] at h'
  | waits next replies hc hw h =>
    cases hb with
    | fault h' => simp [h] at h'
    | error e replies' h' => simp [h] at h'
    | waits last replies' hc' hw' h' =>
      rw [h, Prod.mk.injEq, Rest.waiting.injEq] at h'
      simp only [Option.map_some, observe, hc.err, hc'.err, h'.1, h'.2.1, h'.2.2]

/-- How a stream is cut into pieces shows neither in the replies nor in the reader. -/
theorem pieces_agree (pieces others : List (List UInt8)) (h : pieces.flatten = others.flatten)
    (hl : pieces.flatten.length < 2^31) :
    (redisReaderCreate.receiveAll pieces).map observe =
      (redisReaderCreate.receiveAll others).map observe := by
  have ho := create_drained others (by rwa [← h])
  rw [← h] at ho
  exact drained_observe (create_drained pieces hl) ho

/-- An array with a number and a string, byte by byte and in two pieces. -/
theorem small_array_agrees :
    (redisReaderCreate.receiveAll ([42,50,13,10,58,55,13,10,36,49,13,10,65,13,10].map ([·]))).map
        observe =
      (redisReaderCreate.receiveAll
        [[42,50,13,10,58,55,13],[10,36,49,13,10,65,13,10]]).map observe :=
  pieces_agree _ _ (by decide) (by decide)

end Pieces

end Duda.RedisStream
