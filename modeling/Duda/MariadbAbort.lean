import Duda.MariadbFrame
import Duda.MariadbHistory
import Duda.MariadbOnward

/-!
# A query that is aborted

`mariadb_query_abort` sets a flag, which the loop over the queue and the handler
of a result look at, and the loops over the rows do not. A result set is held
from the answer to `mysql_use_result` that delivers it to the end of
`mysql_free_result`; this module follows it beside the connection, for every
answer of the library and every call of the user, and settles when an aborted
query is heeded.
-/

set_option autoImplicit false

namespace Duda.MariadbAbort
open Duda.Mariadb Duda.MariadbHistory Duda.MariadbMoves Duda.MariadbOnward Duda.MariadbQueue
open Duda.Runs
open Duda.MariadbFrame (tells)
open Duda.MariadbQuery (bare)

/-- The connection, and whether a result set is held. -/
structure Watched where
  machine : Machine
  held : Bool
  deriving DecidableEq, Repr

def heldAfter (s : Watched) : Input → Bool
  | .answer a =>
    match s.machine.point,a with
    | some (.useResult _),.result true => true
    | some (.freeStart _),.done | some .freeCont,.done => false
    | _,_ => s.held
  | _ => s.held

def watch (s : Watched) (a : Input) : Except Fault Watched :=
  (step s.machine a).map fun t => ⟨t,heldAfter s a⟩

/-- The operations that are before a query, from the query itself to its further
results. -/
def ahead : Point → ℕ
  | .connectStart | .connectCont => 5
  | .queryStart _ | .queryCont => 4
  | .useResult _ => 3
  | .fetchStart _ | .fetchCont => 2
  | .freeStart _ | .freeCont => 1
  | .nextStart _ | .nextCont => 0

/-- The answers that end an operation for good. -/
def ends : Answer → Bool
  | .failed | .done | .result _ | .noRow _ | .next .none => true
  | .wouldBlock | .row | .next .more | .next .error => false

/-- What becomes of the aborted query `x` in a step: none of its callbacks is
made; it stays aborted until it is freed; no result set is held when it is
freed, and then the next query is on its way; and with every operation that
ends it comes nearer to that. -/
structure Heeded (m : Machine) (a : Input) (t : Watched) (x : Query) : Prop where
  silent : ∀ ev ∈ t.machine.log.drop m.log.length, about ev ≠ some x.id
  stays : x ∈ t.machine.queries ∨ x.id ∈ t.machine.freed
  released : x.id ∈ t.machine.freed → t.held = false
  onward : x.id ∈ t.machine.freed → t.machine.point = none → t.machine.stack = [] →
    t.machine.queries = []
  nearer : ∀ p c, x.id ∈ m.started → m.point = some p → a = .answer c → ends c = true →
    x.id ∈ t.machine.freed ∨ ∃ p', t.machine.point = some p' ∧ ahead p' < ahead p

/-- A step that is no misuse of memory, and heeds the aborted queries. -/
def Heeds (s : Watched) (a : Input) (r : Except Fault Watched) : Prop :=
  (∀ f, r = .error f → f = .notEnabled) ∧
    ∀ t, r = .ok t → ∀ x ∈ s.machine.queries, x.abort = true → Heeded s.machine a t x

/-- No row, nor the end of the rows, of the query `x` has a callback to be told. -/
def Untold (m : Machine) (a : Input) (x : Query) : Prop :=
  m.point = some (.fetchStart x.id) ∨ m.point = some .fetchCont ∧ m.current_query = some x.id →
    (a = .answer .row → x.row_cb = false) ∧ (a = .answer (.noRow false) → x.end_cb = false)

instance (m : Machine) (a : Input) (x : Query) : Decidable (Untold m a x) :=
  inferInstanceAs (Decidable (_ → _))

/-- When the query `x` is freed, one of the handlers looks at the queue again,
or there is nothing in it. -/
def Resumed (m : Machine) (a : Input) (x : Query) : Prop :=
  x.id ∈ m.started → frees m a = true → bare m.stack = true → m.queries.tail = []

instance (m : Machine) (a : Input) (x : Query) : Decidable (Resumed m a x) :=
  inferInstanceAs (Decidable (_ → _))

/-- The places between a delivered result set and its release. -/
inductive Holding (m : Machine) : Prop where
  | fetchStart (q : ℕ) (hp : m.point = some (.fetchStart q))
  | freeStart (q : ℕ) (hp : m.point = some (.freeStart q))
  | fetchCont (hp : m.point = some .fetchCont)
      (hst : m.state = .rowFetching ∨ m.state = .rowFetched)
  | freeCont (hp : m.point = some .freeCont) (hst : m.state = .resultFreeing)
  | told (hp : m.point = none) (f : Frame) (k : List Frame) (hk : m.stack = f::k)
      (hf : tells f = true) (hst : f = .readRowCb → m.state = .rowFetched)
  | waiting (hp : m.point = none) (hk : ∀ f ∈ m.stack.head?, tells f = false)
      (hst : m.state = .rowFetching ∨ m.state = .rowFetched ∨ m.state = .resultFreeing)

section Holds

variable {m t : Machine}

theorem tail_silent {K : List Frame} (hK : Tail K) : ∀ f ∈ K.head?, tells f = false := by
  cases hK with
  | loop => simp
  | connected => simp [tells]
  | read => simp [tells]

theorem asks_holding {k k' : List Frame} {p p' : Point} {a : Answer} {s : ConnState}
    (h : Asks k m p a s p' k') (hp : 0 < ahead p ∧ ahead p ≤ 3) (ha : a ≠ .done) :
    Holding ({ m with state := s }.await p' k') := by
  cases h with
  | aborted | last | readLast => exact .freeStart _ rfl
  | rows | row => exact .fetchStart _ rfl
  | readRow => exact .fetchCont rfl (.inr rfl)
  | queried | readQueried | freed | readFreed => exact absurd rfl ha
  | more | error | readMore | readError => exact absurd hp.1 (Nat.lt_irrefl 0)

theorem tells_holding {p : Point} {a : Answer} {s : ConnState} {ev : Event} {f : Frame}
    (k : List Frame) (h : Tells m p a s ev f) :
    Holding (({ m with state := s }.logged ev).user (f::k)) := by
  cases h with
  | readRow => exact .told rfl _ k rfl rfl (fun _ => rfl)
  | result | row | last | readLast => exact .told rfl _ k rfl rfl (fun hf => by cases hf)

theorem waited_holding {n : ℕ} {K k : List Frame} (hw : Working m n K) (hk : Returns n K k)
    (s : ConnState) (hs : s = .rowFetching ∨ s = .rowFetched ∨ s = .resultFreeing)
    (h : ret k { m with state := s } = .ok t) : Holding t ∧ t.freed = m.freed := by
  have ho := hw.isOpen
  have hbusy : Busy s ∧ s ≠ .resultFreed := by
    rcases hs with rfl | rfl | rfl <;> simp [Busy]
  rw [ret_waiting (m := { m with state := s }) ⟨ho.alive,ho.tail,ho.linked⟩ hbusy.1 hbusy.2 hk] at h
  cases h
  exact ⟨.waiting rfl (tail_silent ho.tail) hs,rfl⟩

theorem resultUsed_holding {e : Ending} (k : List Frame) (q : ℕ)
    (h : Handled k m (.useResult q) (.result true) e) (hr : e.run k = .ok t) :
    Holding t ∧ t.freed = m.freed := by
  cases h with
  | asks p a s p' k' h =>
    cases hr
    exact ⟨asks_holding h (by simp [ahead]) (by simp),rfl⟩
  | tells p a s ev f h =>
    cases hr
    exact ⟨tells_holding k h,rfl⟩
  | connects p a ok s f h => cases h
  | frees p a q s c h => cases h

/-- A call that is made while a result set is held. -/
theorem handled_holding {e : Ending} {p : Point} {a : Answer} (hi : Inv m) (hp : m.point = some p)
    (hat : (∃ q, p = .fetchStart q ∨ p = .freeStart q) ∨ (p = .fetchCont ∨ p = .freeCont) ∧
      (m.state = .rowFetching ∨ m.state = .rowFetched ∨ m.state = .resultFreeing))
    (hfree : heldAfter ⟨m,true⟩ (.answer a) = true) (h : Handled m.stack m p a e)
    (hr : e.run m.stack = .ok t) : Holding t ∧ t.freed = m.freed := by
  have hahead : 0 < ahead p ∧ ahead p ≤ 2 := by
    rcases hat with ⟨q,rfl | rfl⟩ | ⟨rfl | rfl,-⟩ <;> simp [ahead]
  cases h with
  | connecting | lost | unpolled | failed | readFailed | again => simp [ahead] at hahead
  | connects p a ok s f h => cases h <;> simp [ahead] at hahead
  | established p hc => rcases hc with rfl | rfl <;> simp [ahead] at hahead
  | waits p s hs =>
    obtain ⟨q,hq⟩ | ⟨hc,-⟩ := hat
    · obtain ⟨K,hw,-,hk⟩ := calls_inside q p (inv_calls hi p hp)
        (by rcases hq with rfl | rfl <;> simp)
      refine waited_holding hw hk s ?_ hr
      rcases hq with rfl | rfl <;> cases hs <;> simp
    · rcases hc with rfl | rfl <;> cases hs
  | still p hc hn =>
    obtain ⟨q,hq⟩ | ⟨hc',hst⟩ := hat
    · rcases hq with rfl | rfl <;> cases hc
    · rw [calls_reading p (inv_calls hi p hp) (by rcases hc' with rfl | rfl <;> simp)] at hr
      cases hr
      exact ⟨.waiting rfl (by simp [Machine.user]) hst,rfl⟩
  | frees p a q s c h =>
    cases h with
    | noResult | noMore => simp [ahead] at hahead
    | freed => simp [heldAfter, hp] at hfree
  | asks p a s p' k' h =>
    cases hr
    refine ⟨asks_holding h ⟨hahead.1,by omega⟩ ?_,rfl⟩
    rintro rfl
    cases h <;> simp [heldAfter, hp, ahead] at hfree hahead
  | tells p a s ev f h =>
    cases hr
    exact ⟨tells_holding m.stack h,rfl⟩

theorem told_returned (f : Frame) (k : List Frame) (hf : tells f = true)
    (hst : f = .readRowCb → m.state = .rowFetched) (h : returned m (f::k) = .ok t) :
    Holding t ∧ t.freed = m.freed := by
  obtain ⟨e,he,hr⟩ := returned_reentered f h
  cases he with
  | unpolled | lost | waits | connected | readConnected => cases hf
  | asks ha f p k' hf =>
    cases hr
    cases hf with
    | result i => exact ⟨.fetchStart i rfl,rfl⟩
    | row q => exact ⟨.fetchStart q rfl,rfl⟩
    | last i | readLast i => exact ⟨.freeStart i rfl,rfl⟩
    | readRow => exact ⟨.fetchCont rfl (.inr (hst rfl)),rfl⟩

theorem told_busy (hi : Inv m) (hp : m.point = none) (f : Frame) (k : List Frame)
    (hk : m.stack = f::k) (hf : tells f = true) : Busy m.state := by
  have htail : Tail m.stack → Busy m.state := by
    intro hK
    have hsilent := tail_silent hK f (by simp [hk])
    cases hsilent.symm.trans hf
  cases hi with
  | unconnected _ _ _ _ _ hk' | connecting _ _ _ _ _ hk' | dead _ _ _ _ hk' =>
    cases hk.symm.trans hk'
  | refused _ _ _ _ _ hk' | readRefused _ _ _ _ _ hk' =>
    cases hk.symm.trans hk'
    cases hf
  | idle n K hs ho hst hk' => exact htail (hk' ▸ ho.tail)
  | waiting _ _ _ hst | callback _ _ _ _ hst | readCallback _ _ hst => exact hst
  | starting _ _ _ _ hq | inside _ _ _ _ _ _ _ hq | reading _ _ _ _ _ _ hq =>
    cases hp.symm.trans hq

/-- The calls of the user leave a busy connection where it is. -/
theorem noted_holding (hi : Inv m) (hp : m.point = none) (hst : Busy m.state) (a : Input)
    (hread : a ≠ .read) (hret : a ≠ .callbackReturns) (h : step m a = .ok t) :
    (t.point = none ∧ t.stack = m.stack ∧ t.state = m.state) ∧ t.freed = m.freed := by
  cases step_moves a h with
  | connects cb _ _ hclosed => exact absurd hclosed hst.1
  | connecting | leaves | aborts => exact ⟨⟨hp,rfl,rfl⟩,rfl⟩
  | waits s r w e t _ _ _ hadd =>
    cases (user_ret hi hp (enqueued m s r w e)).symm.trans hadd
    exact ⟨⟨rfl,rfl,rfl⟩,rfl⟩
  | looks _ _ _ _ _ _ _ hconn | releases _ _ _ _ hconn => exact absurd hconn hst.2.2
  | idle | reads => exact absurd rfl hread
  | answers p a e t hq => cases hp.symm.trans hq
  | returns => exact absurd rfl hret

theorem read_holding (hst : m.state = .rowFetching ∨ m.state = .rowFetched ∨
    m.state = .resultFreeing) (hp : m.point = none) (hk : m.stack = []) (h : onRead m = .ok t) :
    Holding t ∧ t.freed = m.freed := by
  obtain ⟨-,⟨rfl,-⟩ | ⟨p,hc,rfl⟩⟩ := onRead_spec t h
  · exact ⟨.waiting hp (by simp [hk]) hst,rfl⟩
  · rcases hst with hst | hst | hst
    · rw [hst] at hc
      cases hc
      exact ⟨.fetchCont rfl (.inl hst),rfl⟩
    · rw [hst] at hc
      cases hc
    · rw [hst] at hc
      cases hc
      exact ⟨.freeCont rfl hst,rfl⟩

theorem connected_holding (hi : Inv m) (hp : m.point = none)
    (hst : m.state = .rowFetching ∨ m.state = .rowFetched ∨ m.state = .resultFreeing)
    (hk : ∀ f ∈ m.stack.head?, tells f = false)
    (hg : m.stack.head? = some .readConnectedCb → m.state = .connected)
    (h : returned m m.stack = .ok t) : Holding t ∧ t.freed = m.freed := by
  have hbusy : Busy m.state := by
    rcases hst with hst | hst | hst <;> simp [hst, Busy]
  cases hi with
  | waiting n K hw _ hk' _ =>
    rw [hk'] at hg h
    cases hw.isOpen.tail with
    | loop => cases h
    | connected =>
      obtain ⟨-,h⟩ := guard_ok h
      rw [connectEnd, resume, if_neg hbusy.2.2] at h
      cases h
      exact ⟨.waiting rfl (by simp [Machine.user]) hst,rfl⟩
    | read => exact absurd (hg rfl) hbusy.2.2
  | unconnected _ _ _ _ hst' | refused _ _ _ _ hst' => exact absurd hst' hbusy.1
  | connecting _ _ _ _ hst' | readRefused _ _ _ _ hst' => exact absurd hst' hbusy.2.1
  | dead n hs ha hpoll hk' _ =>
    rw [hk'] at h
    cases h
  | idle n K hs ho hst' hk' _ => exact absurd hst' hbusy.2.2
  | callback n K k' hw _ hk' f hf hm _ =>
    have hsilent := hk f (by simp [hm])
    simp only [List.mem_cons, List.not_mem_nil, or_false] at hf
    rcases hf with rfl | rfl | rfl <;> cases hsilent
  | readCallback n hw _ f hf hm _ =>
    have hsilent := hk f (by simp [hm])
    simp only [List.mem_cons, List.not_mem_nil, or_false] at hf
    rcases hf with rfl | rfl <;> cases hsilent
  | starting _ _ _ _ hq | inside _ _ _ _ _ _ _ hq | reading _ _ _ _ _ _ hq =>
    cases hp.symm.trans hq

theorem step_holding (hi : Inv m) (a : Input) (hg : Orderly m a) (hh : Holding m)
    (hfree : heldAfter ⟨m,true⟩ a = true) (h : step m a = .ok t) :
    Holding t ∧ t.freed = m.freed := by
  have hcall : ∀ p, m.point = some p →
      ((∃ q, p = .fetchStart q ∨ p = .freeStart q) ∨ (p = .fetchCont ∨ p = .freeCont) ∧
        (m.state = .rowFetching ∨ m.state = .rowFetched ∨ m.state = .resultFreeing)) →
      Holding t ∧ t.freed = m.freed := by
    intro p hp hat
    obtain ⟨c,rfl,hc⟩ := MariadbFrame.called_answer hp a t h
    obtain ⟨e,he,hr⟩ := answered_handled p c hc
    exact handled_holding hi hp hat hfree he hr
  cases hh with
  | fetchStart q hp => exact hcall _ hp (.inl ⟨q,.inl rfl⟩)
  | freeStart q hp => exact hcall _ hp (.inl ⟨q,.inr rfl⟩)
  | fetchCont hp hst => exact hcall _ hp (.inr ⟨.inl rfl,hst.imp_right .inl⟩)
  | freeCont hp hst => exact hcall _ hp (.inr ⟨.inr rfl,.inr (.inr hst)⟩)
  | told hp f k hk hf hst =>
    by_cases hret : a = .callbackReturns
    · subst hret
      obtain ⟨-,h⟩ := guard_ok h
      rw [hk] at h
      exact told_returned f k hf hst h
    · have hread : a ≠ .read := by
        rintro rfl
        obtain ⟨⟨-,hnil,-⟩,-⟩ := guard_ok h
        cases hk.symm.trans hnil
      obtain ⟨⟨hp',hk',hst'⟩,hfreed⟩ :=
        noted_holding hi hp (told_busy hi hp f k hk hf) a hread hret h
      exact ⟨.told hp' f k (hk'.trans hk) hf (fun hr => hst'.trans (hst hr)),hfreed⟩
  | waiting hp hk hst =>
    by_cases hret : a = .callbackReturns
    · subst hret
      obtain ⟨-,h⟩ := guard_ok h
      exact connected_holding hi hp hst hk hg h
    · by_cases hread : a = .read
      · subst hread
        obtain ⟨⟨-,hnil,-⟩,h⟩ := guard_ok h
        exact read_holding hst hp hnil h
      · have hbusy : Busy m.state := by
          rcases hst with hst | hst | hst <;> simp [hst, Busy]
        obtain ⟨⟨hp',hk',hst'⟩,hfreed⟩ := noted_holding hi hp hbusy a hread hret h
        exact ⟨.waiting hp' (hk' ▸ hk) (hst' ▸ hst),hfreed⟩

end Holds

section Nearer

variable {m t : Machine} {x : Query}

def owner (m : Machine) : Point → Option ℕ
  | .connectStart | .connectCont => none
  | .queryStart q | .useResult q | .fetchStart q | .freeStart q | .nextStart q => some q
  | .queryCont | .fetchCont | .freeCont | .nextCont => m.current_query

/-- A call is made for the query in flight. -/
theorem inv_owner (hi : Inv m) (hx : x ∈ m.queries) (hstart : x.id ∈ m.started) (p : Point)
    (hp : m.point = some p) : owner m p = some x.id := by
  cases inv_calls hi p hp with
  | connect n hs | connectCont n hs => exact absurd hstart (settled_unstarted hs hx)
  | starting n K hw hk hp' =>
    subst hp'
    rw [inFlight_started hw.flight hx hstart]
    rfl
  | inside n K hw hst hk hp' =>
    rw [inFlight_started hw.flight hx hstart]
    simp only [List.mem_cons, List.not_mem_nil, or_false] at hp'
    rcases hp' with rfl | rfl | rfl | rfl <;> rfl
  | reading n hw hst hk hp' =>
    rw [inFlight_started hw.flight hx hstart]
    simp only [List.mem_cons, List.not_mem_nil, or_false] at hp'
    rcases hp' with rfl | rfl | rfl | rfl <;> exact hw.current

theorem current_eq {y : Query} (hlook : m.lookup x.id = .ok x) (ho : m.current_query = some x.id)
    (hy : m.currentQuery = .ok y) : y = x := by
  rw [Machine.currentQuery, ho] at hy
  exact (Except.ok.inj (hlook.symm.trans hy)).symm

/-- An operation on the aborted query `x` ends: the query is freed, or called for
by an operation behind it. -/
theorem handled_nearer {k : List Frame} {p : Point} {c : Answer} {e : Ending}
    (hlook : m.lookup x.id = .ok x) (habort : x.abort = true) (ho : owner m p = some x.id)
    (hc : ends c = true) (hend : ahead p = 2 → c = .noRow false → x.end_cb = false)
    (h : Handled k m p c e) (hr : e.run k = .ok t) :
    x.id ∈ t.freed ∨ ∃ p', t.point = some p' ∧ ahead p' < ahead p := by
  cases h with
  | connecting | waits | still | again => cases hc
  | lost | unpolled => cases ho
  | connects p a ok s f h => cases h <;> cases ho
  | established p hp => rcases hp with rfl | rfl <;> cases ho
  | failed q u h =>
    cases ho
    exact .inl ((handleQuery_grows hr).freed.subset (queryFree_freed h))
  | readFailed y hy u h =>
    obtain rfl := current_eq hlook ho hy
    have hu := queryFree_freed h
    exact .inl ((handleQuery_grows hr).freed.subset hu)
  | frees p a q s c' hf u h =>
    obtain rfl : q = x.id := by cases hf <;> exact Option.some.inj ho
    have hu := queryFree_freed h
    exact .inl ((ret_grows hr).freed.subset hu)
  | asks p a s p' k' h =>
    cases hr
    refine .inr ⟨p',rfl,?_⟩
    cases h with
    | queried | readQueried | aborted | last | readLast | freed | readFreed => simp [ahead]
    | rows q i y hy hab hres =>
      cases ho
      cases hlook.symm.trans hy
      cases habort.symm.trans hab
    | row | readRow | more | error | readMore | readError => cases hc
  | tells p a s ev f h =>
    cases h with
    | result q y hy hab hres =>
      cases ho
      cases hlook.symm.trans hy
      cases habort.symm.trans hab
    | last q y hy he =>
      cases ho
      cases hlook.symm.trans hy
      cases he.symm.trans (hend rfl rfl)
    | readLast y hy he =>
      obtain rfl := current_eq hlook ho hy
      cases he.symm.trans (hend rfl rfl)
    | row | readRow => cases hc

theorem step_nearer (hi : Inv m) (hx : x ∈ m.queries) (habort : x.abort = true)
    (hstart : x.id ∈ m.started) (p : Point) (hp : m.point = some p) (c : Answer)
    (hc : ends c = true) (hun : Untold m (.answer c) x) (h : step m (.answer c) = .ok t) :
    x.id ∈ t.freed ∨ ∃ p', t.point = some p' ∧ ahead p' < ahead p := by
  have ho := inv_owner hi hx hstart p hp
  rw [step_answer p hp] at h
  obtain ⟨e,he,hr⟩ := answered_handled p c h
  refine handled_nearer (inv_lookup hi hx) habort ho hc (fun hrow hlast => ?_) he hr
  refine (hun ?_).2 (congrArg _ hlast)
  cases p with
  | fetchStart q =>
    cases ho
    exact .inl hp
  | fetchCont => exact .inr ⟨hp,ho⟩
  | connectStart | connectCont | queryStart _ | queryCont | useResult _ | freeStart _ | freeCont
  | nextStart _ | nextCont => cases hrow

end Nearer

section Silence

variable {m t : Machine} {x : Query}

theorem told_silent (hi : Inv m) (hx : x ∈ m.queries) (q : ℕ) (ev : Event)
    (hev : about ev = some q) (has : Query → Bool) :
    (∀ e ∈ told m q ev has, about e ≠ some x.id) ↔ (q = x.id → has x = false) := by
  by_cases hq : q = x.id
  · subst hq
    rw [told, inv_lookup hi hx]
    cases h : has x <;> simp [h, hev]
  · refine ⟨fun _ h => absurd h hq,fun _ e he => ?_⟩
    rw [told] at he
    split at he
    · split at he
      · rw [List.mem_singleton] at he
        rw [he, hev]
        simpa using hq
      · cases he
    · cases he

theorem rowTellings_iff (hi : Inv m) (hx : x ∈ m.queries) (q : ℕ) (c : Answer) :
    (∀ ev ∈ rowTellings m q c, about ev ≠ some x.id) ↔
      (q = x.id → (c = .row → x.row_cb = false) ∧ (c = .noRow false → x.end_cb = false)) := by
  cases c with
  | row =>
    rw [rowTellings, told_silent hi hx q _ rfl]
    simp
  | noRow failed =>
    cases failed with
    | false =>
      rw [rowTellings, told_silent hi hx q _ rfl]
      simp
    | true => simp [rowTellings]
  | wouldBlock | failed | done | result _ | next _ => simp [rowTellings]

/-- The callbacks that a step makes for an aborted query. -/
theorem tellings_iff (hi : Inv m) (hx : x ∈ m.queries) (habort : x.abort = true) (a : Input) :
    (∀ ev ∈ tellings m a, about ev ≠ some x.id) ↔ Untold m a x := by
  cases a with
  | answer c =>
    cases hp : m.point with
    | none => simp [tellings, Untold, hp]
    | some p =>
      cases p with
      | fetchStart q =>
        simp only [tellings, hp]
        rw [rowTellings_iff hi hx]
        simp [Untold, hp]
      | fetchCont =>
        simp only [tellings, hp]
        cases hcur : m.current_query with
        | none => simp [Untold, hp, hcur]
        | some q =>
          rw [Option.elim_some, rowTellings_iff hi hx]
          simp [Untold, hp, hcur]
      | useResult q =>
        simp only [tellings, hp]
        split
        · rw [told_silent hi hx q _ rfl]
          simp [Untold, hp, habort]
        · simp [Untold, hp]
      | connectStart | connectCont | queryStart _ | queryCont | freeStart _ | freeCont
      | nextStart _ | nextCont => simp [tellings, Untold, hp]
  | connectAsync _ | queryAsync _ _ _ _ | disconnectAsync _ | abortAsync _ | read
  | callbackReturns => simp [tellings, Untold]

theorem silent_iff (hi : Inv m) (hx : x ∈ m.queries) (habort : x.abort = true) (a : Input)
    (h : step m a = .ok t) :
    (∀ ev ∈ t.log.drop m.log.length, about ev ≠ some x.id) ↔ Untold m a x := by
  obtain ⟨l,hlog,hnone⟩ := (step_grows a t h).log
  rw [hlog, List.drop_left, ← tellings_iff hi hx habort a]
  constructor
  · exact fun hs ev hev => hs ev (List.mem_append_left _ hev)
  · intro hs ev hev
    rcases List.mem_append.mp hev with hev | hev
    · exact hs ev hev
    · simp [hnone ev hev]

end Silence

/-- The connection is in order, and what is held is between its delivery and its
release. -/
structure Watching (s : Watched) : Prop where
  inv : Inv s.machine
  held : s.held = true → Holding s.machine

/-- The condition on a step: no aborted query is told of a row or of the end of
its rows, and the queue is looked at again when an aborted query is freed. -/
def Obeyed (s : Watched) (a : Input) : Prop :=
  ∀ x ∈ s.machine.queries, x.abort = true → Untold s.machine a x ∧ Resumed s.machine a x

instance (s : Watched) (a : Input) : Decidable (Obeyed s a) :=
  inferInstanceAs (Decidable (∀ x ∈ s.machine.queries, _))

section Runs

variable {s : Watched} {a : Input} {t : Machine}

theorem watch_ok {u : Watched} (h : watch s a = .ok u) :
    ∃ t, step s.machine a = .ok t ∧ u = ⟨t,heldAfter s a⟩ := by
  obtain ⟨t,ht,rfl⟩ := map_ok h
  exact ⟨t,ht,rfl⟩

theorem heldAfter_cases (h : heldAfter s a = true) :
    (∃ q, s.machine.point = some (.useResult q) ∧ a = .answer (.result true)) ∨
      s.held = true ∧ heldAfter ⟨s.machine,true⟩ a = true := by
  cases a with
  | answer c =>
    simp only [heldAfter] at h ⊢
    split at h
    · next q hp => exact .inl ⟨q,hp,rfl⟩
    · cases h
    · cases h
    · exact .inr ⟨h,rfl⟩
  | connectAsync _ | queryAsync _ _ _ _ | disconnectAsync _ | abortAsync _ | read
  | callbackReturns => exact .inr ⟨h,rfl⟩

/-- While a result set is held no query is freed. -/
theorem held_step (hs : Watching s) (hg : Orderly s.machine a) (h : step s.machine a = .ok t)
    (hh : heldAfter s a = true) : Holding t ∧ t.freed = s.machine.freed := by
  rcases heldAfter_cases hh with ⟨q,hp,rfl⟩ | ⟨hheld,hfree⟩
  · rw [step_answer _ hp] at h
    obtain ⟨e,he,hr⟩ := answered_handled _ _ h
    exact resultUsed_holding s.machine.stack q he hr
  · exact step_holding hs.inv a hg (hs.held hheld) hfree h

theorem watching_step {u : Watched} (hs : Watching s) (hg : Orderly s.machine a)
    (h : watch s a = .ok u) : Watching u := by
  obtain ⟨t,ht,rfl⟩ := watch_ok h
  have hsound := step_sound hs.inv a hg
  rw [ht] at hsound
  exact ⟨hsound,fun hh => (held_step hs hg ht hh).1⟩

theorem onward_of_resumed {x : Query} (hs : Watching s) (hx : x ∈ s.machine.queries)
    (h : step s.machine a = .ok t) (hr : Resumed s.machine a x) (hfreed : x.id ∈ t.freed)
    (hp : t.point = none) (hk : t.stack = []) : t.queries = [] := by
  have halive := inv_alive hs.inv hx
  -- nothing was freed, or the queue was looked at, or the handlers returned past it
  rcases step_proceeds hs.inv a h with hsame | hlook | ⟨hf,hb,htail⟩
  · exact absurd (hsame ▸ hfreed) halive
  · exact hlook hp hk
  · obtain ⟨n,K,hw,-,-,-,hn⟩ := step_bare hs.inv a h hf hb
    obtain ⟨st,hst,-,-⟩ := hw.flight.started
    rw [hn, List.mem_append, List.mem_singleton] at hfreed
    have hid : x.id = n := hfreed.resolve_left halive
    rw [htail]
    exact hr (by simp [hst, hid]) hf hb

theorem resumed_of_onward {x : Query} (hs : Watching s) (hx : x ∈ s.machine.queries)
    (h : step s.machine a = .ok t)
    (ho : x.id ∈ t.freed → t.point = none → t.stack = [] → t.queries = []) :
    Resumed s.machine a x := by
  intro hstart hf hb
  obtain ⟨n,K,hw,hp,hk,htail,hn⟩ := step_bare hs.inv a h hf hb
  have hid := inFlight_started hw.flight hx hstart
  rw [← htail]
  exact ho (by simp [hn, hid]) hp hk

theorem heeded_iff {x : Query} (hs : Watching s) (hg : Orderly s.machine a)
    (hx : x ∈ s.machine.queries) (habort : x.abort = true) (h : step s.machine a = .ok t) :
    Heeded s.machine a ⟨t,heldAfter s a⟩ x ↔ Untold s.machine a x ∧ Resumed s.machine a x := by
  constructor
  · intro hh
    exact ⟨(silent_iff hs.inv hx habort a h).mp hh.silent,resumed_of_onward hs hx h hh.onward⟩
  · rintro ⟨hun,hr⟩
    refine ⟨(silent_iff hs.inv hx habort a h).mpr hun,(step_grows a t h).queue x hx habort,?_,
      onward_of_resumed hs hx h hr,?_⟩
    · intro hfreed
      -- while something is held nothing is freed, and `x` is in the queue
      by_contra hheld
      have hsame := (held_step hs hg h (by simpa using hheld)).2
      exact inv_alive hs.inv hx (hsame ▸ hfreed)
    · rintro p c hstart hp rfl hc
      exact step_nearer hs.inv hx habort hstart p hp c hc hun h

theorem heeds_iff (hs : Watching s) (hg : Orderly s.machine a) :
    Heeds s a (watch s a) ↔ Taken Obeyed s a (watch s a) := by
  have hsound := step_sound hs.inv a hg
  constructor
  · intro hh u hu x hx habort
    obtain ⟨t,ht,rfl⟩ := watch_ok hu
    exact (heeded_iff hs hg hx habort ht).mp (hh.2 _ hu x hx habort)
  · intro ho
    refine ⟨fun f hf => ?_,fun u hu x hx habort => ?_⟩
    · rw [watch] at hf
      cases hstep : step s.machine a with
      | ok t =>
        rw [hstep] at hf
        cases hf
      | error e =>
        rw [hstep] at hf hsound
        cases hf
        exact hsound
    · have hobey := ho u hu x hx habort
      obtain ⟨t,ht,rfl⟩ := watch_ok hu
      exact (heeded_iff hs hg hx habort ht).mpr hobey

end Runs

/-- In a run of a new connection the aborted queries are heeded if its steps are
orderly, no aborted query is told of a row or of the end of its rows, and the
queue is looked at again when one is freed. In an orderly run the last two are
necessary as well. -/
theorem abort_heeded (multi : Bool) (calls : List Input) :
    (Along watch (fun s a r => Orderly s.machine a ∧ Taken Obeyed s a r) calls
        ⟨connCreate multi,false⟩ →
      Along watch Heeds calls ⟨connCreate multi,false⟩) ∧
    (Along watch (fun s a _ => Orderly s.machine a) calls ⟨connCreate multi,false⟩ →
      Along watch Heeds calls ⟨connCreate multi,false⟩ →
      Along watch (Taken Obeyed) calls ⟨connCreate multi,false⟩) := by
  have hstart : Watching ⟨connCreate multi,false⟩ :=
    ⟨.unconnected 0 ⟨⟨rfl,rfl,Nat.le_refl _⟩,List.Pairwise.nil,by simp [connCreate]⟩ rfl rfl rfl rfl
      (.inl rfl),fun hh => by cases hh⟩
  -- both sides carry the order of the calls, which keeps the invariant
  have hboth := along_iff (I := Watching)
    (G := fun s a r => Orderly s.machine a ∧ Taken Obeyed s a r)
    (Q := fun s a r => Orderly s.machine a ∧ Heeds s a r)
    (fun s a t hs hg ht => watching_step hs hg.1 ht)
    (fun s a hs => and_congr_right fun hg => heeds_iff hs hg) calls _ hstart
  constructor
  · intro h
    exact ((along_and _ _ _ _).mp (hboth.mpr h)).2
  · intro horder hh
    exact ((along_and _ _ _ _).mp (hboth.mp ((along_and _ _ _ _).mpr ⟨horder,hh⟩))).2

/-- A query is aborted while it waits for the server. -/
theorem waiting_abort_heeded : Along watch Heeds
    [.connectAsync false,.answer .done,.queryAsync true true true true,.answer .wouldBlock,
      .abortAsync 0,.read,.answer .done,.answer (.result true),.answer .done]
    ⟨connCreate false,false⟩ :=
  (abort_heeded false _).1 (by decide)

/-- A query is aborted in its result callback, and a row is there. -/
def abortedInside : List Input :=
  [.connectAsync false,.answer .done,.queryAsync true true true true,.answer .done,
    .answer (.result true),.abortAsync 0,.callbackReturns]

/-- The row callback is called after the abort. -/
theorem row_after_abort :
    (∃ s, run watch abortedInside ⟨connCreate false,false⟩ = .ok s ∧
      s.machine.queries.map Query.abort = [true] ∧ s.machine.log = [.result 0] ∧
      ∃ t, watch s (.answer .row) = .ok t ∧ t.machine.log = [.result 0,.row 0]) ∧
    ¬Along watch Heeds (abortedInside++[.answer .row]) ⟨connCreate false,false⟩ := by
  refine ⟨⟨_,rfl,rfl,rfl,_,rfl,rfl⟩,fun h => ?_⟩
  have hlast := ((along_append Heeds abortedInside [.answer .row] _).mp h).2 _ rfl
  have hheeded := hlast.1.2 _ rfl ⟨0,true,true,true,true,true⟩ (by decide) rfl
  exact hheeded.silent (.row 0) (by decide) rfl

end Duda.MariadbAbort
