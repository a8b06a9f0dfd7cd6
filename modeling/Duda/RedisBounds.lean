import Duda.RedisRoundTrip

/-!
# What any bytes can do to the reader

A server may send anything. The stack has room for four tasks, and an element is
written where the array of the task below has a slot for it. Both hold on every
run in which no array announces more elements than an `int` can count. An array that does
announce more has no slots at all, and its first element is written through the null
pointer.
-/

set_option autoImplicit false

namespace Duda.RedisBounds
open Duda.Decimal Duda.IncrementalParser Duda.MachineInt Duda.RedisReader Duda.RedisStream
open Duda.RedisRoundTrip

section Slots

/-- A path from the root through arrays of the given sizes. -/
def Leads : List ℕ → List ℕ → Reply → Prop
  | [], [], _ => True
  | i::path, n::sizes, .array _ element =>
    element.length = n ∧ ∃ r, element[i]? = some r ∧ Leads path sizes r
  | _, _, _ => False

/-- An object at the end of a path keeps the path. Where it is an array, each of its slots
prolongs it. -/
theorem leads_assign {path sizes : List ℕ} {root : Reply} (obj : Reply)
    (h : Leads path sizes root) :
    ∃ root', assign path obj root = some root' ∧ Leads path sizes root' ∧
      ∀ elements element i, obj = .array elements element → i < element.length →
        Leads (path++[i]) (sizes++[element.length]) root' := by
  induction path generalizing sizes root with
  | nil =>
    cases sizes with
    | nil =>
      refine ⟨obj,rfl,trivial,?_⟩
      rintro elements element i rfl hi
      exact ⟨rfl,_,List.getElem?_eq_getElem hi,trivial⟩
    | cons n sizes => simp [Leads] at h
  | cons j path ih =>
    cases sizes with
    | nil => simp [Leads] at h
    | cons n sizes =>
      cases root with
      | array elements element =>
        obtain ⟨hn,r,hr,hrest⟩ := h
        obtain ⟨r',ha,hkeep,hnew⟩ := ih hrest
        have hj : j < element.length := (List.getElem?_eq_some_iff.1 hr).1
        have hset : (element.set j r')[j]? = some r' := List.getElem?_set_self hj
        refine ⟨.array elements (element.set j r'),?_,⟨by simpa using hn,r',hset,hkeep⟩,?_⟩
        · simp only [assign, hr, ha, Option.map_some]
        · intro m es i ho hi
          exact ⟨by simpa using hn,r',hset,hnew m es i ho hi⟩
      | _ => simp [Leads] at h

theorem leads_parent {path sizes : List ℕ} {i n : ℕ} {root : Reply}
    (h : Leads (path++[i]) (sizes++[n]) root) :
    Leads path sizes root ∧ ∀ k < n, Leads (path++[k]) (sizes++[n]) root := by
  induction path generalizing sizes root with
  | nil =>
    cases sizes with
    | nil =>
      cases root with
      | array elements element =>
        obtain ⟨hn,_⟩ := h
        exact ⟨trivial,fun k hk => ⟨hn,_,List.getElem?_eq_getElem (by omega),trivial⟩⟩
      | _ => simp [Leads] at h
    | cons m sizes =>
      cases root <;> cases sizes <;> simp [Leads] at h
  | cons j path ih =>
    cases sizes with
    | nil =>
      cases root <;> cases path <;> simp [Leads] at h
    | cons m sizes =>
      cases root with
      | array elements element =>
        obtain ⟨hm,r,hr,hrest⟩ := h
        exact ⟨⟨hm,r,hr,(ih hrest).1⟩,fun k hk => ⟨hm,r,hr,(ih hrest).2 k hk⟩⟩
      | _ => simp [Leads] at h

end Slots

section Runs

def sizes (rstack : List Task) : List ℕ := ((rstack.drop 1).map fun t => t.elements.toNat).reverse

def Counted : List Task → Prop
  | cur::prv::up => 0 ≤ cur.idx ∧ cur.idx < prv.elements ∧ Counted (prv::up)
  | _ => True

structure Sound (core : Core) : Prop where
  depth : core.rstack.length ≤ 4
  busy : core.rstack ≠ []
  counted : Counted core.rstack
  leads : Leads (place core.rstack) (sizes core.rstack) core.reply

theorem fresh_sound : Sound fresh := ⟨by decide,by decide,trivial,trivial⟩

theorem sizes_cons (cur prv : Task) (up : List Task) :
    sizes (cur::prv::up) = sizes (prv::up)++[prv.elements.toNat] := by
  simp [sizes]

theorem counted_congr {a b : Task} {up : List Task} (hc : Counted (a::up)) (h : a.idx = b.idx) :
    Counted (b::up) := by
  cases up with
  | nil => trivial
  | cons prv up => rwa [Counted, h] at hc

theorem moveToNextTask_sound (rstack : List Task) (reply : Reply) (hc : Counted rstack)
    (hl : Leads (place rstack) (sizes rstack) reply) :
    (moveToNextTask rstack).length ≤ rstack.length ∧ Counted (moveToNextTask rstack) ∧
      (moveToNextTask rstack ≠ [] →
        Leads (place (moveToNextTask rstack)) (sizes (moveToNextTask rstack)) reply) := by
  induction rstack using moveToNextTask.induct with
  | case1 => exact ⟨le_refl _,trivial,fun _ => hl⟩
  | case2 cur => exact ⟨Nat.zero_le _,trivial,fun h => absurd rfl h⟩
  | case3 cur prv up hlast ih =>
    rw [place_cons, sizes_cons] at hl
    obtain ⟨h1,h2,h3⟩ := ih hc.2.2 (leads_parent hl).1
    rw [moveToNextTask_last cur prv up hlast]
    exact ⟨h1.trans (Nat.le_succ _),h2,h3⟩
  | case4 cur prv up hnext =>
    obtain ⟨h0,hlt,hup⟩ := hc
    rw [place_cons, sizes_cons] at hl
    rw [moveToNextTask_next cur prv up hnext]
    refine ⟨le_refl _,⟨by simp only; omega,by simp only; omega,hup⟩,fun _ => ?_⟩
    rw [place_cons, sizes_cons]
    exact (leads_parent hl).2 _ (by simp only; omega)

theorem createObject_sound {core : Core} (hs : Sound core) (obj : Reply) :
    ∃ reply, createObject core obj = some ⟨core.rstack,reply⟩ ∧
      Leads (place core.rstack) (sizes core.rstack) reply ∧
      ∀ elements element i, obj = .array elements element → i < element.length →
        Leads (place core.rstack++[i]) (sizes core.rstack++[element.length]) reply := by
  obtain ⟨reply,ha,hl,hn⟩ := leads_assign obj hs.leads
  exact ⟨reply,by rw [createObject, ha]; rfl,hl,hn⟩

/-- An array that is announced has a number of elements that an `int` holds. -/
def Announced (core : Core) (buf : List UInt8) : Prop :=
  ∀ cur rstack, core.rstack = cur::rstack → cur.type = some .array → readLongLong buf < 2^31

theorem emit_sound {n m : ℕ} {core next : Core} {out out' : List Reply}
    (h : emit (.take n core out) = .take m next out')
    (hs : core.rstack ≠ [] → Sound core) : Sound next := by
  cases hr : core.rstack with
  | nil =>
    simp only [emit, hr, Outcome.take.injEq] at h
    rw [← h.2.1]
    exact fresh_sound
  | cons cur rstack =>
    simp only [emit, hr, Outcome.take.injEq] at h
    rw [← h.2.1]
    exact hs (by simp [hr])

theorem emit_take (n : ℕ) (core : Core) (out : List Reply) :
    ∃ next out', emit (.take n core out) = .take n next out' := by
  cases hr : core.rstack with
  | nil => exact ⟨fresh,[core.reply],by simp only [emit, hr]⟩
  | cons cur rstack => exact ⟨core,[],by simp only [emit, hr]⟩

theorem step_no_fault {core : Core} (hs : Sound core) (buf : List UInt8) :
    step core buf ≠ .stop .fault := by
  have hr := itemPart_reads core buf
  rw [step]
  generalize itemPart core buf = reading at hr
  cases hr with
  | wait => simp [emit]
  | error e => simp [emit]
  | empty he => exact absurd he hs.busy
  | unplaced obj h =>
    obtain ⟨reply,hsome,_⟩ := createObject_sound hs obj
    rw [h] at hsome
    cases hsome
  | _ =>
    obtain ⟨next,out,hnext⟩ := emit_take _ _ []
    rw [hnext]
    simp

theorem step_sound {core next : Core} {buf : List UInt8} {n : ℕ} {out : List Reply}
    (hs : Sound core) (ha : Announced core buf) (h : step core buf = .take n next out) :
    Sound next := by
  have hr := itemPart_reads core buf
  rw [step] at h
  generalize itemPart core buf = reading at hr h
  cases hr with
  | wait => simp [emit] at h
  | error e => simp [emit] at h
  | empty he => simp [emit] at h
  | unplaced obj hu => simp [emit] at h
  | typed cur rstack type hstack hb =>
    apply emit_sound h
    intro _
    obtain ⟨hd,_,hc,hl⟩ := hs
    rw [hstack] at hd hc hl
    have hp : place (cur::rstack) = place ({ cur with type := some type }::rstack) :=
      place_congr rstack rfl
    rw [hp] at hl
    exact ⟨hd,List.cons_ne_nil _ _,counted_congr hc rfl,hl⟩
  | finished m obj mid hn ho hobj =>
    apply emit_sound h
    intro hne
    obtain ⟨reply,hsome,hl,_⟩ := createObject_sound hs obj
    rw [hobj, Option.some.injEq] at hsome
    subst hsome
    obtain ⟨h1,h2,h3⟩ := moveToNextTask_sound core.rstack reply hs.counted hl
    exact ⟨h1.trans hs.depth,hne,h2,h3 hne⟩
  | opened m elements cur rstack mid hn hstack ht hd hv he hobj =>
    apply emit_sound h
    intro _
    have hlt := ha cur rstack hstack ht
    rw [← hv] at hlt
    rw [i32_of_range elements (by omega) hlt] at hobj ⊢
    obtain ⟨reply,hsome,_,hnew⟩ := createObject_sound hs (arrayObject elements)
    rw [hobj, Option.some.injEq] at hsome
    subst hsome
    have hslot := hnew _ _ 0 rfl (by simp; omega)
    have hdepth := hs.depth
    have hcounted := hs.counted
    have hp : place (cur::rstack) = place ({ cur with elements := elements }::rstack) :=
      place_congr rstack rfl
    rw [hstack] at hslot hdepth hcounted
    rw [List.length_cons] at hdepth
    refine ⟨?_,List.cons_ne_nil _ _,⟨le_refl _,he,counted_congr hcounted rfl⟩,?_⟩
    · simp only [List.length_cons]
      omega
    · rw [place_cons, sizes_cons, ← hp]
      rw [List.length_replicate] at hslot
      exact hslot

/-- The states that the reader goes through, with what is unread there. -/
inductive Visits : Core → List UInt8 → Core → List UInt8 → Prop
  | here {core : Core} {xs : List UInt8} : Visits core xs core xs
  | later {core next last : Core} {xs ys : List UInt8} {n : ℕ} {out : List Reply}
      (hs : step core xs = .take n next out) (h : Visits next (xs.drop n) last ys) :
      Visits core xs last ys

theorem visits_sound {core last : Core} {xs ys : List UInt8} (h : Visits core xs last ys)
    (hs : Sound core) (ha : ∀ mid zs, Visits core xs mid zs → Announced mid zs) : Sound last := by
  induction h with
  | here => exact hs
  | later hstep h ih =>
    exact ih (step_sound hs (ha _ _ .here) hstep) (fun mid zs hv => ha mid zs (.later hstep hv))

theorem exhaust_no_fault (core : Core) (xs : List UInt8) (hs : Sound core)
    (ha : ∀ mid zs, Visits core xs mid zs → Announced mid zs) :
    (exhaust step core xs).2 ≠ .stopped .fault := by
  induction core, xs using exhaust.induct step with
  | case1 core xs h => simp [exhaust_wait step h]
  | case2 core xs e h =>
    rw [exhaust_stop step h]
    rintro ⟨rfl⟩
    exact step_no_fault hs xs h
  | case3 core xs n next out h hin ih =>
    rw [exhaust_take step_steady h]
    exact ih (step_sound hs (ha _ _ .here) h) (fun mid zs hv => ha mid zs (.later h hv))
  | case4 core xs n next out h hout => exact absurd (step_steady.inside core xs n next out h) hout

/-- Whatever arrives, in whatever pieces: the stack keeps within its four tasks and no
element is written outside of its array. -/
theorem stream_safe (pieces : List (List UInt8)) (hl : pieces.flatten.length < 2^31)
    (ha : ∀ core xs, Visits fresh pieces.flatten core xs → Announced core xs) :
    (∀ core xs, Visits fresh pieces.flatten core xs → core.rstack.length ≤ 4) ∧
      ∃ r replies, Reader.redisReaderCreate.receiveAll pieces = some (r,replies) := by
  constructor
  · exact fun core xs hv => (visits_sound hv fresh_sound ha).depth
  · have hd := create_drained pieces hl
    generalize Reader.redisReaderCreate.receiveAll pieces = result at hd
    cases hd with
    | fault h => exact absurd h (exhaust_no_fault fresh _ fresh_sound ha)
    | error e replies h => exact ⟨_,_,rfl⟩
    | waits next replies hc hw h => exact ⟨_,_,rfl⟩

instance (core : Core) (buf : List UInt8) : Decidable (Announced core buf) :=
  decidable_of_iff
    (∀ cur ∈ core.rstack.head?, cur.type = some .array → readLongLong buf < 2^31) <| by
    constructor
    · intro h cur rstack hr ht
      exact h cur (by simp [hr]) ht
    · intro h cur hc ht
      obtain ⟨rstack,hr⟩ := List.head?_eq_some_iff.1 hc
      exact h cur rstack hr ht

/-- The announcements on a run of at most some steps. -/
def announcedAll : ℕ → Core → List UInt8 → Bool
  | 0, _, _ => false
  | k+1, core, xs => decide (Announced core xs) &&
    match step core xs with
    | .take n next _ => announcedAll k next (xs.drop n)
    | _ => true

theorem announcedAll_visits {k : ℕ} {core mid : Core} {xs ys : List UInt8}
    (h : announcedAll k core xs = true) (hv : Visits core xs mid ys) : Announced mid ys := by
  induction hv generalizing k with
  | here =>
    cases k with
    | zero => cases h
    | succ k =>
      rw [announcedAll, Bool.and_eq_true, decide_eq_true_eq] at h
      exact h.1
  | later hs hv ih =>
    cases k with
    | zero => cases h
    | succ k =>
      rw [announcedAll, Bool.and_eq_true, hs] at h
      exact ih h.2

/-- An array with a number and an array with a string, in three pieces. -/
theorem nested_array_safe :
    (∀ core xs, Visits fresh [42,50,13,10,58,55,13,10,42,49,13,10,36,49,13,10,65,13,10] core xs →
        core.rstack.length ≤ 4) ∧
      ∃ r replies, Reader.redisReaderCreate.receiveAll
        [[42,50,13],[10,58,55,13,10,42,49],[13,10,36,49,13,10,65,13,10]] = some (r,replies) :=
  stream_safe [[42,50,13],[10,58,55,13,10,42,49],[13,10,36,49,13,10,65,13,10]] (by decide)
    (fun _ _ => announcedAll_visits (k := 10) (by decide +kernel))

end Runs

section Overflow

theorem arrayObject_empty {elements : ℤ} (h : elements ≤ 0) :
    arrayObject elements = .array (u64 elements) [] := by
  rw [arrayObject, Int.toNat_of_nonpos h]
  rfl

section Headers

variable {n : ℕ} {e j : ℤ} {up : List Task} {root : Reply}

/-- The header of an array whose count an `int` takes for zero or less. Where the array is
linked at all, its elements are asked for. -/
theorem overlong_header (h0 : 0 < n) (hn : n < 2^63) (hi : i32 n ≤ 0) (hup : up.length ≠ 3)
    (rest : List UInt8) (hl : (decimal n++crlf++rest).length < 2^31) :
    step ⟨⟨some .array,e,j⟩::up,root⟩ (decimal n++crlf++rest) = .stop .fault ∨
      ∃ linked,
        assign (place (⟨some .array,e,j⟩::up)) (.array (u64 (i32 n)) []) root = some linked ∧
        step ⟨⟨some .array,e,j⟩::up,root⟩ (decimal n++crlf++rest) =
          .take ((decimal n).length+2) ⟨⟨none,-1,0⟩::⟨some .array,i32 n,j⟩::up,linked⟩ [] := by
  have hs := seekNewline_line rest (findBreak_none _ (decimal_no_cr n)) hl
  have hopen : step ⟨⟨some .array,e,j⟩::up,root⟩ (decimal n++crlf++rest) =
      emit (openArray ⟨⟨some .array,e,j⟩::up,root⟩ ⟨some .array,e,j⟩ up (decimal n).length n) := by
    simp only [step, itemPart, processTyped, processMultiBulkItem, hs, if_neg hup,
      readLongLong_count n _ hn]
  rw [hopen, openArray, if_neg (by omega), if_pos (by omega), createObject,
    arrayObject_empty hi]
  cases ha : assign (place (⟨some .array,e,j⟩::up)) (.array (u64 (i32 n)) []) root with
  | none => exact .inl rfl
  | some linked => exact .inr ⟨linked,rfl,rfl⟩

/-- An element of an array without slots. -/
theorem element_faults {linked : Reply} (r : Reply) (hf : Fits 0 r) (behind : List UInt8)
    (hl : (encode r++behind).length < 2^31)
    (ha : assign (place (⟨some .array,i32 n,j⟩::up)) (.array (u64 (i32 n)) []) root = some linked) :
    exhaust step ⟨⟨none,-1,0⟩::⟨some .array,i32 n,j⟩::up,linked⟩ (encode r++behind) =
      ([],.stopped .fault) := by
  have hscalar : ∀ elements element, r ≠ .array elements element := by
    rintro elements element rfl
    simp [Fits] at hf
  obtain ⟨byte,type,body,he,ht,hitem⟩ := scalar_item 0 r behind hf hscalar hl
  have hmissing : assign (place (⟨some type,-1,0⟩::⟨some .array,i32 n,j⟩::up)) r linked = none := by
    rw [place_cons]
    rw [assign_append r ha]
    rfl
  have hfault : step ⟨⟨some type,-1,0⟩::⟨some .array,i32 n,j⟩::up,linked⟩ (body++behind) =
      .stop .fault := by
    have hpart : itemPart ⟨⟨some type,-1,0⟩::⟨some .array,i32 n,j⟩::up,linked⟩ (body++behind) = _ :=
      hitem _
    rw [step, hpart, finish, createObject, hmissing]
    rfl
  rw [he, List.cons_append, exhaust_type ht, exhaust_stop step hfault]

end Headers

/-- A count that an `int` takes for zero or less: the array gets no slots and yet its
elements are read. Before it stands anything after which a reply, or an element of an
array, begins; behind its first element stands anything. -/
theorem overlong_faults (before behind : List UInt8) (replies : List Reply) (e j : ℤ)
    (up : List Task) (root : Reply) (n : ℕ) (r : Reply) (pieces : List (List UInt8))
    (hbefore : exhaust step fresh before = (replies,.waiting ⟨⟨none,e,j⟩::up,root⟩ []))
    (hup : up.length < 3) (h0 : 0 < n) (hn : n < 2^63) (hi : i32 n ≤ 0) (hf : Fits 0 r)
    (hp : pieces.flatten = before++42::(decimal n++crlf++(encode r++behind)))
    (hl : pieces.flatten.length < 2^31) :
    Reader.redisReaderCreate.receiveAll pieces = none := by
  have hd := create_drained pieces hl
  rw [hp] at hd hl
  have hlen : (decimal n++crlf++(encode r++behind)).length < 2^31 := by
    rw [List.length_append, List.length_cons] at hl
    omega
  have hall : exhaust step fresh (before++42::(decimal n++crlf++(encode r++behind))) =
      (replies,.stopped .fault) := by
    rw [exhaust_append step_steady fresh before _ hl, hbefore, feed_waiting,
      List.nil_append, exhaust_type (show typeOf 42 = some .array from rfl)]
    rcases overlong_header h0 hn hi (Nat.ne_of_lt hup) (encode r++behind) hlen with
      hstop | ⟨linked,ha,htake⟩
    · rw [exhaust_stop step hstop, List.append_nil]
    · have hplace : place (⟨some .array,e,j⟩::up) = place (⟨some .array,i32 n,j⟩::up) :=
        place_congr up rfl
      have hshort : (encode r++behind).length < 2^31 := by
        rw [List.length_append] at hlen
        omega
      rw [exhaust_take step_steady htake, drop_line,
        element_faults r hf behind hshort (hplace ▸ ha), List.append_nil, List.append_nil]
  generalize Reader.redisReaderCreate.receiveAll pieces = result at hd
  cases hd with
  | fault => rfl
  | error e replies h =>
    rw [hall] at h
    cases h
  | waits next replies hc hw h =>
    rw [hall] at h
    cases h

/-- A number, and an array of two, of which the first is an array that announces four billion
elements and has one. -/
theorem overlong_number_faults : Reader.redisReaderCreate.receiveAll
    [encodeAll [.integer 1]++[42,50,13],
      10::42::(decimal (2^32)++crlf++(encode (.integer 7)++[58]))] = none := by
  have hsmall : (encodeAll [.integer 1]++[42,50,13,10]).length < 2^31 := by
    simp [encodeAll, encode, signed, decimal, crlf]
  have htake : step ⟨[⟨some .array,-1,-1⟩],.null⟩ [50,13,10] =
      .take 3 ⟨[⟨none,-1,0⟩,⟨some .array,2,-1⟩],.array 2 [.null,.null]⟩ [] := rfl
  have hbefore : exhaust step fresh (encodeAll [.integer 1]++[42,50,13,10]) =
      ([.integer 1],.waiting ⟨[⟨none,-1,0⟩,⟨some .array,2,-1⟩],.array 2 [.null,.null]⟩ []) := by
    rw [exhaust_encodeAll _ _ (by simp [FitAll, Fits]) hsmall, fresh,
      exhaust_type (show typeOf 42 = some .array from rfl), exhaust_take step_steady htake,
      show ([50,13,10] : List UInt8).drop 3 = [] from rfl, exhaust_wait step rfl]
    rfl
  exact overlong_faults _ [58] [.integer 1] (-1) 0 [⟨some .array,2,-1⟩] _ (2^32) (.integer 7) _
    hbefore (by decide) (by decide) (by decide) (by decide) (by simp [Fits])
    (by simp [encodeAll]) (by simp [encode, encodeAll, signed, decimal, crlf])

end Overflow

end Duda.RedisBounds
