import Duda.Mariadb

/-!
# The moves of a connection

After an answer of the library, and after a callback, a handler ends in one of
four ways: it returns to the handlers below it, it goes through the queue, it
calls the library again, or it calls the user. The tables of this module say
which for every call and every answer, and what the connection is then; behind
them stands what is left when the handlers have returned. The invariants of a
connection are read off the tables.
-/

set_option autoImplicit false

namespace Duda.MariadbMoves
open Duda.Mariadb Duda.Runs

/-- The end of a handler, with the connection as it is then. -/
inductive Ending where
  | returns (u : Machine)
  | looks (u : Machine)
  | asks (u : Machine) (p : Point) (k : List Frame)
  | tells (u : Machine) (ev : Event) (f : Frame)

def Ending.run (k : List Frame) : Ending → Except Fault Machine
  | .returns u => ret k u
  | .looks u => handleQuery k (ret k) u
  | .asks u p k' => .ok (u.await p k')
  | .tells u ev f => .ok ((u.logged ev).user (f::k))

def continues : Point → Bool
  | .connectCont | .queryCont | .fetchCont | .freeCont | .nextCont => true
  | _ => false

/-- The state in which an operation of a query is left that would block when it
is started. -/
def waitsIn : Point → Option ConnState
  | .queryStart _ => some .querying
  | .fetchStart _ => some .rowFetching
  | .freeStart _ => some .resultFreeing
  | .nextStart _ => some .nextResulting
  | _ => none

section Tables

variable (k : List Frame) (m : Machine)

/-- The handler sets the state and calls the library. -/
inductive Asks : Point → Answer → ConnState → Point → List Frame → Prop where
  | queried (q i : ℕ) : Asks (.queryStart q) .done .queried (.useResult i) (.queryLoop::k)
  | readQueried (i : ℕ) : Asks .queryCont .done .queried (.useResult i) (.readQuerying::k)
  | aborted (q i : ℕ) (x : Query) (hx : m.lookup q = .ok x) (ha : x.abort = true) :
      Asks (.useResult q) (.result true) m.state (.freeStart i) k
  | rows (q i : ℕ) (x : Query) (hx : m.lookup q = .ok x) (ha : x.abort = false)
      (hr : x.result_cb = false) : Asks (.useResult q) (.result true) m.state (.fetchStart i) k
  | row (q : ℕ) (x : Query) (hx : m.lookup q = .ok x) (hr : x.row_cb = false) :
      Asks (.fetchStart q) .row .rowFetched (.fetchStart q) k
  | last (q i : ℕ) (x : Query) (hx : m.lookup q = .ok x) (failed : Bool)
      (he : failed = false → x.end_cb = false) :
      Asks (.fetchStart q) (.noRow failed) .rowFetched (.freeStart i) k
  | readRow (x : Query) (hx : m.currentQuery = .ok x) (hr : x.row_cb = false) :
      Asks .fetchCont .row .rowFetched .fetchCont k
  | readLast (i : ℕ) (x : Query) (hx : m.currentQuery = .ok x) (failed : Bool)
      (he : failed = false → x.end_cb = false) :
      Asks .fetchCont (.noRow failed) .rowFetched (.freeStart i) (.readRowEnd::k)
  | freed (q i : ℕ) (h : m.multi = true) :
      Asks (.freeStart q) .done .resultFreed (.nextStart i) k
  | readFreed (i : ℕ) : Asks .freeCont .done .resultFreed (.nextStart i) k
  | more (q i : ℕ) :
      Asks (.nextStart q) (.next .more) .nextResulted (.useResult i) (.nextLoop q::k)
  | error (q : ℕ) : Asks (.nextStart q) (.next .error) .nextResulted (.nextStart q) k
  | readMore (i : ℕ) :
      Asks .nextCont (.next .more) .nextResulted (.useResult i) (.readNexting::k)
  | readError : Asks .nextCont (.next .error) .nextResulted .nextCont k

/-- The handler sets the state and calls the user back for a query. -/
inductive Tells : Point → Answer → ConnState → Event → Frame → Prop where
  | result (q : ℕ) (x : Query) (hx : m.lookup q = .ok x) (ha : x.abort = false)
      (hr : x.result_cb = true) :
      Tells (.useResult q) (.result true) m.state (.result q) .resultCb
  | row (q : ℕ) (x : Query) (hx : m.lookup q = .ok x) (hr : x.row_cb = true) :
      Tells (.fetchStart q) .row .rowFetched (.row q) (.rowCb q)
  | last (q : ℕ) (x : Query) (hx : m.lookup q = .ok x) (he : x.end_cb = true) :
      Tells (.fetchStart q) (.noRow false) .rowFetched (.last q) .endCb
  | readRow (x : Query) (hx : m.currentQuery = .ok x) (hr : x.row_cb = true) :
      Tells .fetchCont .row .rowFetched (.row x.id) .readRowCb
  | readLast (x : Query) (hx : m.currentQuery = .ok x) (he : x.end_cb = true) :
      Tells .fetchCont (.noRow false) .rowFetched (.last x.id) .readEndCb

/-- The handler calls the user back for the connection. -/
inductive Connects : Point → Answer → Bool → ConnState → Frame → Prop where
  | refused : Connects .connectStart .failed false m.state .refusedCb
  | connected : Connects .connectStart .done true .connected .connectedCb
  | readRefused : Connects .connectCont .failed false m.state .readRefusedCb
  | readConnected : Connects .connectCont .done true .connected .readConnectedCb

/-- The handler frees its query before it returns. -/
inductive Frees : Point → Answer → ℕ → ConnState → Option ℕ → Prop where
  | noResult (q : ℕ) : Frees (.useResult q) (.result false) q m.state m.current_query
  | freed (q : ℕ) (h : m.multi = false) : Frees (.freeStart q) .done q .resultFreed none
  | noMore (q : ℕ) : Frees (.nextStart q) (.next .none) q .nextResulted none

/-- What a handler does with an answer of the library. -/
inductive Handled : Point → Answer → Ending → Prop where
  | connecting : Handled .connectStart .wouldBlock
      (.returns { m with state := .connecting, linked := true, polled := true })
  | lost : Handled .connectStart .failed (.returns m.connFree)
  | unpolled : Handled .connectCont .failed (.returns { m with polled := false })
  | connects (p : Point) (a : Answer) (ok : Bool) (s : ConnState) (f : Frame)
      (h : Connects m p a ok s f) : Handled p a (.tells { m with state := s } (.connect ok) f)
  | established (p : Point) (hp : p = .connectStart ∨ p = .connectCont) (linked polled : Bool) :
      Handled p .done
        (.looks { m with state := .connected, linked := linked, polled := polled })
  | waits (p : Point) (s : ConnState) (hs : waitsIn p = some s) :
      Handled p .wouldBlock (.returns { m with state := s })
  | still (p : Point) (hp : continues p = true) (hn : p = .nextCont → m.state ≠ .connected) :
      Handled p .wouldBlock (.returns m)
  | again (hst : m.state = .connected) : Handled .nextCont .wouldBlock (.looks m)
  | failed (q : ℕ) (u : Machine) (h : m.queryFree q = .ok u) :
      Handled (.queryStart q) .failed (.looks u)
  | readFailed (x : Query) (hx : m.currentQuery = .ok x) (u : Machine)
      (h : m.queryFree x.id = .ok u) :
      Handled .queryCont .failed (.looks { u with state := .connected })
  | frees (p : Point) (a : Answer) (q : ℕ) (s : ConnState) (c : Option ℕ) (hf : Frees m p a q s c)
      (u : Machine) (h : { m with state := s, current_query := c }.queryFree q = .ok u) :
      Handled p a (.returns { u with state := .connected })
  | asks (p : Point) (a : Answer) (s : ConnState) (p' : Point) (k' : List Frame)
      (h : Asks k m p a s p' k') : Handled p a (.asks { m with state := s } p' k')
  | tells (p : Point) (a : Answer) (s : ConnState) (ev : Event) (f : Frame)
      (h : Tells m p a s ev f) : Handled p a (.tells { m with state := s } ev f)

/-- The call of the library behind a callback of a query. -/
inductive Follows : Frame → Point → List Frame → Prop where
  | result (i : ℕ) : Follows .resultCb (.fetchStart i) k
  | row (q : ℕ) : Follows (.rowCb q) (.fetchStart q) k
  | last (i : ℕ) : Follows .endCb (.freeStart i) k
  | readRow : Follows .readRowCb .fetchCont k
  | readLast (i : ℕ) : Follows .readEndCb (.freeStart i) (.readRowEnd::k)

/-- What a handler does when its callback returns. -/
inductive Reentered : Frame → Ending → Prop where
  | unpolled : Reentered .readRefusedCb (.returns { m with polled := false })
  | lost (ha : m.alive = true) : Reentered .refusedCb (.returns m.connFree)
  | waits (ha : m.alive = true) (hst : m.state ≠ .connected) :
      Reentered .connectedCb (.returns { m with linked := true, polled := true })
  | connected (ha : m.alive = true) (hst : m.state = .connected) :
      Reentered .connectedCb (.looks { m with linked := true, polled := true })
  | readConnected (ha : m.alive = true) : Reentered .readConnectedCb (.looks m)
  | asks (ha : m.alive = true) (f : Frame) (p : Point) (k' : List Frame) (h : Follows k f p k') :
      Reentered f (.asks m p k')

end Tables

section Complete

variable {k : List Frame} {m t : Machine}

theorem resume_cases (h : resume k m = .ok t) :
    m.state = .connected ∧ handleQuery k (ret k) m = .ok t ∨
      m.state ≠ .connected ∧ ret k m = .ok t := by
  rw [resume] at h
  split at h
  · next hst => exact .inl ⟨hst,h⟩
  · next hst => exact .inr ⟨hst,h⟩

variable (q : ℕ) (a : Answer)

theorem connect_handled (h : connectStarted k m a = .ok t) :
    ∃ e, Handled k m .connectStart a e ∧ e.run k = .ok t := by
  cases a with
  | wouldBlock => exact ⟨_,.connecting,h⟩
  | failed =>
    rw [connectStarted] at h
    split at h
    · exact ⟨_,.connects _ _ false _ _ .refused,h⟩
    · exact ⟨_,.lost,h⟩
  | done =>
    rw [connectStarted] at h
    split at h
    · exact ⟨_,.connects _ _ true _ _ .connected,h⟩
    · exact ⟨_,.established _ (.inl rfl) true true,h⟩
  | result _ | row | noRow _ | next _ => cases h

theorem connectCont_handled (h : connectContinued k m a = .ok t) :
    ∃ e, Handled k m .connectCont a e ∧ e.run k = .ok t := by
  cases a with
  | wouldBlock => exact ⟨_,.still _ rfl (fun h => by cases h),h⟩
  | failed =>
    rw [connectContinued] at h
    split at h
    · exact ⟨_,.connects _ _ false _ _ .readRefused,h⟩
    · exact ⟨_,.unpolled,h⟩
  | done =>
    rw [connectContinued] at h
    split at h
    · exact ⟨_,.connects _ _ true _ _ .readConnected,h⟩
    · exact ⟨_,.established _ (.inr rfl) m.linked m.polled,h⟩
  | result _ | row | noRow _ | next _ => cases h

theorem query_handled (h : queryStarted k m q a = .ok t) :
    ∃ e, Handled k m (.queryStart q) a e ∧ e.run k = .ok t := by
  cases a with
  | wouldBlock => exact ⟨_,.waits _ _ rfl,h⟩
  | failed =>
    obtain ⟨u,hu,h⟩ := bind_ok h
    exact ⟨_,.failed q u hu,h⟩
  | done =>
    obtain ⟨x,-,rfl⟩ := map_ok h
    exact ⟨_,.asks _ _ _ _ _ (.queried q x.id),rfl⟩
  | result _ | row | noRow _ | next _ => cases h

theorem queryCont_handled (h : queryContinued k m a = .ok t) :
    ∃ e, Handled k m .queryCont a e ∧ e.run k = .ok t := by
  cases a with
  | wouldBlock => exact ⟨_,.still _ rfl (fun h => by cases h),h⟩
  | failed =>
    obtain ⟨x,hx,h⟩ := bind_ok h
    obtain ⟨u,hu,h⟩ := bind_ok h
    exact ⟨_,.readFailed x hx u hu,h⟩
  | done =>
    obtain ⟨x,-,rfl⟩ := map_ok h
    exact ⟨_,.asks _ _ _ _ _ (.readQueried x.id),rfl⟩
  | result _ | row | noRow _ | next _ => cases h

theorem result_handled (h : resultUsed k m q a = .ok t) :
    ∃ e, Handled k m (.useResult q) a e ∧ e.run k = .ok t := by
  cases a with
  | result present =>
    cases present with
    | false =>
      obtain ⟨u,hu,h⟩ := bind_ok h
      exact ⟨_,.frees _ _ q _ _ (.noResult q) u hu,h⟩
    | true =>
      obtain ⟨x,hx,h⟩ := bind_ok h
      split at h
      · next ha =>
        obtain ⟨y,-,rfl⟩ := map_ok h
        exact ⟨_,.asks _ _ _ _ _ (.aborted q y.id x hx ha),rfl⟩
      · next ha =>
        have ha : x.abort = false := by simpa using ha
        split at h
        · next hr => exact ⟨_,.tells _ _ _ _ _ (.result q x hx ha hr),h⟩
        · next hr =>
          obtain ⟨y,-,rfl⟩ := map_ok h
          exact ⟨_,.asks _ _ _ _ _ (.rows q y.id x hx ha (by simpa using hr)),rfl⟩
  | wouldBlock | failed | done | row | noRow _ | next _ => cases h

theorem row_handled (h : rowStarted k m q a = .ok t) :
    ∃ e, Handled k m (.fetchStart q) a e ∧ e.run k = .ok t := by
  cases a with
  | wouldBlock => exact ⟨_,.waits _ _ rfl,h⟩
  | row =>
    obtain ⟨x,hx,h⟩ := bind_ok h
    split at h
    · next hr => exact ⟨_,.tells _ _ _ _ _ (.row q x hx hr),h⟩
    · next hr => exact ⟨_,.asks _ _ _ _ _ (.row q x hx (by simpa using hr)),h⟩
  | noRow failed =>
    obtain ⟨x,hx,h⟩ := bind_ok h
    cases failed with
    | true =>
      obtain ⟨y,-,rfl⟩ := map_ok h
      exact ⟨_,.asks _ _ _ _ _ (.last q y.id x hx true (fun h => by cases h)),rfl⟩
    | false =>
      rw [if_neg (by simp)] at h
      split at h
      · next he => exact ⟨_,.tells _ _ _ _ _ (.last q x hx he),h⟩
      · next he =>
        obtain ⟨y,-,rfl⟩ := map_ok h
        exact ⟨_,.asks _ _ _ _ _ (.last q y.id x hx false (fun _ => by simpa using he)),rfl⟩
  | failed | done | result _ | next _ => cases h

theorem rowCont_handled (h : rowContinued k m a = .ok t) :
    ∃ e, Handled k m .fetchCont a e ∧ e.run k = .ok t := by
  cases a with
  | wouldBlock => exact ⟨_,.still _ rfl (fun h => by cases h),h⟩
  | row =>
    obtain ⟨x,hx,h⟩ := bind_ok h
    split at h
    · next hr => exact ⟨_,.tells _ _ _ _ _ (.readRow x hx hr),h⟩
    · next hr => exact ⟨_,.asks _ _ _ _ _ (.readRow x hx (by simpa using hr)),h⟩
  | noRow failed =>
    obtain ⟨x,hx,h⟩ := bind_ok h
    cases failed with
    | true =>
      obtain ⟨y,-,rfl⟩ := map_ok h
      exact ⟨_,.asks _ _ _ _ _ (.readLast y.id x hx true (fun h => by cases h)),rfl⟩
    | false =>
      rw [if_neg (by simp)] at h
      split at h
      · next he => exact ⟨_,.tells _ _ _ _ _ (.readLast x hx he),h⟩
      · next he =>
        obtain ⟨y,-,rfl⟩ := map_ok h
        exact ⟨_,.asks _ _ _ _ _ (.readLast y.id x hx false (fun _ => by simpa using he)),rfl⟩
  | failed | done | result _ | next _ => cases h

theorem free_handled (h : freeStarted k m q a = .ok t) :
    ∃ e, Handled k m (.freeStart q) a e ∧ e.run k = .ok t := by
  cases a with
  | wouldBlock => exact ⟨_,.waits _ _ rfl,h⟩
  | done =>
    rw [freeStarted] at h
    split at h
    · next hm =>
      obtain ⟨x,-,rfl⟩ := map_ok h
      exact ⟨_,.asks _ _ _ _ _ (.freed q x.id hm),rfl⟩
    · next hm =>
      obtain ⟨u,hu,h⟩ := bind_ok h
      exact ⟨_,.frees _ _ q _ _ (.freed q (by simpa using hm)) u hu,h⟩
  | failed | result _ | row | noRow _ | next _ => cases h

theorem freeCont_handled (h : freeContinued k m a = .ok t) :
    ∃ e, Handled k m .freeCont a e ∧ e.run k = .ok t := by
  cases a with
  | wouldBlock => exact ⟨_,.still _ rfl (fun h => by cases h),h⟩
  | done =>
    rw [freeContinued] at h
    split at h
    · obtain ⟨x,-,rfl⟩ := map_ok h
      exact ⟨_,.asks _ _ _ _ _ (.readFreed x.id),rfl⟩
    · cases h
  | failed | result _ | row | noRow _ | next _ => cases h

theorem next_handled (h : nextStarted k m q a = .ok t) :
    ∃ e, Handled k m (.nextStart q) a e ∧ e.run k = .ok t := by
  cases a with
  | wouldBlock => exact ⟨_,.waits _ _ rfl,h⟩
  | next n =>
    cases n with
    | none =>
      obtain ⟨u,hu,h⟩ := bind_ok h
      exact ⟨_,.frees _ _ q _ _ (.noMore q) u hu,h⟩
    | more =>
      obtain ⟨x,-,rfl⟩ := map_ok h
      exact ⟨_,.asks _ _ _ _ _ (.more q x.id),rfl⟩
    | error => exact ⟨_,.asks _ _ _ _ _ (.error q),h⟩
  | failed | done | result _ | row | noRow _ => cases h

theorem nextCont_handled (h : nextContinued k m a = .ok t) :
    ∃ e, Handled k m .nextCont a e ∧ e.run k = .ok t := by
  cases a with
  | wouldBlock =>
    rcases resume_cases h with ⟨hst,h⟩ | ⟨hst,h⟩
    · exact ⟨_,.again hst,h⟩
    · exact ⟨_,.still _ rfl (fun _ => hst),h⟩
  | next n =>
    cases n with
    | none => cases h
    | more =>
      obtain ⟨x,-,rfl⟩ := map_ok h
      exact ⟨_,.asks _ _ _ _ _ (.readMore x.id),rfl⟩
    | error => exact ⟨_,.asks _ _ _ _ _ .readError,h⟩
  | failed | done | result _ | row | noRow _ => cases h

/-- The table of the answers is complete. -/
theorem answered_handled (p : Point) (a : Answer) (h : answered k m a p = .ok t) :
    ∃ e, Handled k m p a e ∧ e.run k = .ok t := by
  cases p with
  | connectStart => exact connect_handled a h
  | connectCont => exact connectCont_handled a h
  | queryStart q => exact query_handled q a h
  | queryCont => exact queryCont_handled a h
  | useResult q => exact result_handled q a h
  | fetchStart q => exact row_handled q a h
  | fetchCont => exact rowCont_handled a h
  | freeStart q => exact free_handled q a h
  | freeCont => exact freeCont_handled a h
  | nextStart q => exact next_handled q a h
  | nextCont => exact nextCont_handled a h

/-- The table of the callbacks is complete. -/
theorem returned_reentered (f : Frame) (h : returned m (f::k) = .ok t) :
    ∃ e, Reentered k m f e ∧ e.run k = .ok t := by
  cases f with
  | readRefusedCb => exact ⟨_,.unpolled,h⟩
  | connectedCb =>
    obtain ⟨ha,h⟩ := guard_ok h
    rcases resume_cases h with ⟨hst,h⟩ | ⟨hst,h⟩
    · exact ⟨_,.connected ha hst,h⟩
    · exact ⟨_,.waits ha hst,h⟩
  | refusedCb =>
    obtain ⟨ha,h⟩ := guard_ok h
    exact ⟨_,.lost ha,h⟩
  | readConnectedCb =>
    obtain ⟨ha,h⟩ := guard_ok h
    exact ⟨_,.readConnected ha,h⟩
  | resultCb =>
    obtain ⟨ha,h⟩ := guard_ok h
    obtain ⟨x,-,rfl⟩ := map_ok h
    exact ⟨_,.asks ha _ _ _ (.result x.id),rfl⟩
  | rowCb q =>
    obtain ⟨ha,h⟩ := guard_ok h
    obtain ⟨x,-,rfl⟩ := map_ok h
    exact ⟨_,.asks ha _ _ _ (.row q),rfl⟩
  | endCb =>
    obtain ⟨ha,h⟩ := guard_ok h
    obtain ⟨x,-,rfl⟩ := map_ok h
    exact ⟨_,.asks ha _ _ _ (.last x.id),rfl⟩
  | readRowCb =>
    obtain ⟨ha,h⟩ := guard_ok h
    obtain ⟨x,-,rfl⟩ := map_ok h
    exact ⟨_,.asks ha _ _ _ .readRow,rfl⟩
  | readEndCb =>
    obtain ⟨ha,h⟩ := guard_ok h
    obtain ⟨x,-,rfl⟩ := map_ok h
    exact ⟨_,.asks ha _ _ _ (.readLast x.id),rfl⟩
  | queryLoop | nextLoop _ | readQuerying | readRowEnd | readNexting => cases (guard_ok h).2

end Complete

/-- The call with which `mariadb_on_read` continues in a state. -/
def continuation : ConnState → Option Point
  | .connecting => some .connectCont
  | .querying => some .queryCont
  | .rowFetching => some .fetchCont
  | .resultFreeing => some .freeCont
  | .nextResulting => some .nextCont
  | _ => none

section Inputs

variable {m t : Machine}

/-- A read event leaves a connection as it is, or continues its operation. -/
theorem onRead_spec (t : Machine) (h : onRead m = .ok t) :
    m.alive = true ∧ (t = m ∧ continuation m.state = none ∨
      ∃ p, continuation m.state = some p ∧ t = m.await p []) := by
  have hcall : ∀ p, continuation m.state = some p →
      (m.currentQuery.map fun _ => m.await p []) = .ok t →
      t = m ∧ continuation m.state = none ∨
        ∃ p, continuation m.state = some p ∧ t = m.await p [] := by
    intro p hp ht
    obtain ⟨q,_,rfl⟩ := map_ok ht
    exact .inr ⟨p,hp,rfl⟩
  rw [onRead] at h
  obtain ⟨ha,h⟩ := guard_ok h
  refine ⟨ha,?_⟩
  cases hst : m.state with
  | connecting =>
    rw [hst] at h
    cases h
    exact .inr ⟨.connectCont,rfl,rfl⟩
  | querying | rowFetching | resultFreeing | nextResulting =>
    rw [hst] at h hcall
    exact hcall _ rfl h
  | closed | connected | queried | rowFetched | nextResulted | resultFreed =>
    rw [hst] at h
    cases h
    exact .inl ⟨rfl,rfl⟩

theorem release_cases (h : handleRelease m = .ok t) : ∃ l, (∀ ev ∈ l, ev = Event.disconnect) ∧ t =
    { m with log := m.log++l, polled := false, state := .closed, linked := false }.connFree := by
  obtain ⟨-,h⟩ := guard_ok h
  cases h
  split
  · exact ⟨[.disconnect],by simp,rfl⟩
  · refine ⟨[],by simp,?_⟩
    rw [List.append_nil]

theorem disconnect_cases (cb : Bool) (h : handleDisconnect m cb = .ok t) :
    m.state ≠ .connected ∧ t = { m with
      disconnect_cb := m.disconnect_cb || cb, disconnect_on_finish := true } ∨
    m.state = .connected ∧ ∃ l, (∀ ev ∈ l, ev = Event.disconnect) ∧
      t = { m with
        disconnect_cb := m.disconnect_cb || cb, log := m.log++l, polled := false, state := .closed,
        linked := false }.connFree := by
  rw [handleDisconnect] at h
  split at h
  · next hst =>
    cases h
    exact .inl ⟨hst,rfl⟩
  · next hst => exact .inr ⟨not_not.mp hst,release_cases h⟩

end Inputs

/-- What the handlers do while they return: queries that are not passed to the
server go off the front of the queue, and the connection may be released. -/
structure Walked (m t : Machine) : Prop where
  log : ∃ l, t.log = m.log++l ∧ ∀ ev ∈ l, ev = .disconnect
  queue : ∃ l, m.queries = l++t.queries ∧ t.freed = m.freed++l.map Query.id ∧
    ∀ q ∈ l, q.abort = true ∨ q.query_str = false
  started : m.started ⊆ t.started
  state : t.state = m.state ∨ t.state = .connected ∨ t.state = .closed

/-- The queue has been gone through: its first query is on its way, or it is
empty. -/
inductive Looked (k : List Frame) (m t : Machine) : Prop where
  | started (q : ℕ) (hp : t.point = some (.queryStart q)) (hk : t.stack <:+ k)
      (ha : t.alive = m.alive)
  | emptied (hp : t.point = none) (hk : t.stack <:+ k) (hq : t.queries = [])

/-- Where the handlers stop that return: in the code of the user, at the next
result, or in the queue. -/
inductive Stopped (k : List Frame) (m t : Machine) : Prop where
  | user (l k' : List Frame) (hk : k = l++k')
      (hl : m.state = .connected → ∀ f ∈ l, ∃ q, f = .nextLoop q) (ht : t = m.user k')
  | next (q : ℕ) (k' : List Frame) (ha : m.alive = true) (hst : m.state = .resultFreed)
      (hk : .nextLoop q::k' <:+ k) (ht : t = m.await (.nextStart q) k')
  | readNext (k' : List Frame) (ha : m.alive = true) (hst : m.state = .resultFreed)
      (hk : .readNexting::k' <:+ k) (ht : t = m.await .nextCont k')
  | looked (ha : m.alive = true) (hst : m.state = .connected) (h : Looked k.tail m t)

section Walks

variable {k : List Frame} {m u t : Machine}

theorem walked_same (hlog : t.log = m.log) (hqueries : t.queries = m.queries)
    (hfreed : t.freed = m.freed) (hstarted : t.started = m.started)
    (hst : t.state = m.state ∨ t.state = .connected) : Walked m t where
  log := ⟨[],by simp [hlog],by simp⟩
  queue := ⟨[],by simp [hqueries],by simp [hfreed],by simp⟩
  started := hstarted ▸ List.Subset.refl _
  state := hst.imp_right .inl

theorem walked_after (h' : Walked u t) (h : Walked m u) : Walked m t := by
  obtain ⟨l₁,hl₁,hd₁⟩ := h.log
  obtain ⟨l₂,hl₂,hd₂⟩ := h'.log
  obtain ⟨q₁,hq₁,hf₁,hs₁⟩ := h.queue
  obtain ⟨q₂,hq₂,hf₂,hs₂⟩ := h'.queue
  refine ⟨⟨l₁++l₂,by simp [hl₂, hl₁],?_⟩,⟨q₁++q₂,by simp [hq₁, hq₂],by simp [hf₂, hf₁],?_⟩,
    fun _ hi => h'.started (h.started hi),?_⟩
  · exact fun ev hev => (List.mem_append.mp hev).elim (hd₁ ev) (hd₂ ev)
  · exact fun q hq => (List.mem_append.mp hq).elim (hs₁ q) (hs₂ q)
  · exact h'.state.elim (fun hst => hst ▸ h.state) .inr

theorem looked_suffix {k' : List Frame} (h : Looked k' u t) (hk : k' <:+ k)
    (ha : u.alive = m.alive) : Looked k m t := by
  cases h with
  | started q hp hk' ha' => exact .started q hp (hk'.trans hk) (ha'.trans ha)
  | emptied hp hk' hq => exact .emptied hp (hk'.trans hk) hq

theorem looked_empty (h : Stopped k u t) (hq : u.queries = [])
    (hst : u.state = .connected ∨ u.alive = false) (ha : u.alive = true → u.alive = m.alive) :
    Looked k m t := by
  have hfreed : u.alive = true → u.state ≠ .resultFreed := by
    intro hlive hfreed
    rcases hst with hst | hdead
    · cases hfreed.symm.trans hst
    · cases hdead.symm.trans hlive
  cases h with
  | user l k' hk hl ht =>
    subst ht
    exact .emptied rfl (hk ▸ List.suffix_append l k') hq
  | next q k' ha hst hk ht => exact absurd hst (hfreed ha)
  | readNext k' ha hst hk ht => exact absurd hst (hfreed ha)
  | looked hlive hst h => exact looked_suffix h (List.tail_suffix k) (ha hlive)

theorem queryLoop_walked (after : Machine → Except Fault Machine)
    (hafter : ∀ u t, after u = .ok t → Walked u t ∧ Stopped k u t) (qs : List Query)
    (h : queryLoop k after qs m = .ok t) : Walked { m with queries := qs } t ∧ Looked k m t := by
  induction qs generalizing m with
  | nil =>
    rw [queryLoop] at h
    split at h
    · obtain ⟨u,hu,h⟩ := bind_ok h
      obtain ⟨l,hl,rfl⟩ := release_cases hu
      obtain ⟨hw,hs⟩ := hafter _ t h
      refine ⟨walked_after hw ?_,looked_empty hs rfl (.inr rfl) (fun h => by cases h)⟩
      exact ⟨⟨l,rfl,hl⟩,⟨[],rfl,rfl,by simp⟩,List.Subset.refl _,.inr (.inr rfl)⟩
    · obtain ⟨hw,hs⟩ := hafter _ t h
      exact ⟨walked_after hw (walked_same rfl rfl rfl rfl (.inr rfl)),
        looked_empty hs rfl (.inl rfl) (fun _ => rfl)⟩
  | cons q qs ih =>
    have hdrop : ∀ s, s = m.state ∨ s = .connected → (q.abort = true ∨ q.query_str = false) →
        Walked { m with queries := q::qs }
          { m with queries := qs, state := s, freed := m.freed++[q.id] } :=
      fun s hs hq => ⟨⟨[],by simp,by simp⟩,⟨[q],rfl,rfl,by simpa using hq⟩,List.Subset.refl _,
        hs.imp_right .inl⟩
    rw [queryLoop] at h
    split at h
    · next hab =>
      obtain ⟨hw,hs⟩ := ih h
      exact ⟨walked_after hw (hdrop .connected (.inr rfl) (.inl hab)),
        looked_suffix hs (List.suffix_refl k) rfl⟩
    · split at h
      · cases h
        exact ⟨⟨⟨[],by simp [Machine.await],by simp⟩,⟨[],rfl,by simp [Machine.await],by simp⟩,
          List.subset_append_left _ _,.inl rfl⟩,.started q.id rfl (List.suffix_refl k) rfl⟩
      · next hstr =>
        obtain ⟨hw,hs⟩ := ih h
        exact ⟨walked_after hw (hdrop m.state (.inl rfl) (.inr (by simpa using hstr))),
          looked_suffix hs (List.suffix_refl k) rfl⟩

theorem ret_walked (h : ret k m = .ok t) : Walked m t ∧ Stopped k m t := by
  induction k generalizing m t with
  | nil =>
    cases h
    exact ⟨walked_same rfl rfl rfl rfl (.inl rfl),.user [] [] rfl (by simp) rfl⟩
  | cons f k ih =>
    have hloop : m.alive = true → m.state = .connected → handleQuery k (ret k) m = .ok t →
        Walked m t ∧ Stopped (f::k) m t := by
      intro ha hst h
      obtain ⟨hw,hs⟩ := queryLoop_walked (ret k) (fun u t => ih) m.queries h
      exact ⟨hw,.looked ha hst hs⟩
    -- a handler that does not stop here has nothing to do in the state `CONNECTED`
    have hpass : (m.state = .connected → ∃ q, f = .nextLoop q) → ret k m = .ok t →
        Walked m t ∧ Stopped (f::k) m t := by
      intro hf h
      obtain ⟨hw,hs⟩ := ih h
      refine ⟨hw,?_⟩
      cases hs with
      | user l k' hk hl ht =>
        refine .user (f::l) k' (by simp [hk]) (fun hst f' hf' => ?_) ht
        rcases List.mem_cons.mp hf' with rfl | hf'
        · exact hf hst
        · exact hl hst f' hf'
      | next q k' ha hst hk ht => exact .next q k' ha hst (hk.trans (List.suffix_cons f k)) ht
      | readNext k' ha hst hk ht => exact .readNext k' ha hst (hk.trans (List.suffix_cons f k)) ht
      | looked ha hst h => exact .looked ha hst (looked_suffix h (List.tail_suffix k) rfl)
    have hstop : m.user (f::k) = t → Walked m t ∧ Stopped (f::k) m t := by
      rintro rfl
      exact ⟨walked_same rfl rfl rfl rfl (.inl rfl),.user [] (f::k) rfl (by simp) rfl⟩
    have hawait : ∀ p, m.await p k = t → Walked m t := by
      rintro p rfl
      exact walked_same rfl rfl rfl rfl (.inl rfl)
    cases f with
    | queryLoop | readQuerying | readRowEnd =>
      obtain ⟨ha,h⟩ := guard_ok h
      split at h
      · next hst => exact hloop ha hst h
      · next hst => exact hpass (fun h => absurd h hst) h
    | nextLoop q =>
      obtain ⟨ha,h⟩ := guard_ok h
      split at h
      · next hst =>
        have ht := Except.ok.inj h
        exact ⟨hawait _ ht,.next q k ha hst (List.suffix_refl _) ht.symm⟩
      · exact hpass (fun _ => ⟨q,rfl⟩) h
    | readNexting =>
      obtain ⟨ha,h⟩ := guard_ok h
      split at h
      · next hst =>
        have ht := Except.ok.inj h
        exact ⟨hawait _ ht,.readNext k ha hst (List.suffix_refl _) ht.symm⟩
      · split at h
        · next hst => exact hloop ha hst h
        · next hst => exact hpass (fun h => absurd h hst) h
    | connectedCb | refusedCb | readConnectedCb | readRefusedCb | resultCb | rowCb _ | endCb
    | readRowCb | readEndCb => exact hstop (Except.ok.inj h)

theorem handleQuery_walked (h : handleQuery k (ret k) m = .ok t) : Walked m t ∧ Looked k m t :=
  queryLoop_walked (ret k) (fun _ _ => ret_walked) m.queries h

end Walks

/-- The connection with the query that is enqueued. -/
def enqueued (m : Machine) (query_str result_cb row_cb end_cb : Bool) : Machine := { m with
  queries := m.queries++[⟨m.next,query_str,false,result_cb,row_cb,end_cb⟩], next := m.next+1 }

/-- What an input does. -/
inductive Moves (m : Machine) : Input → Machine → Prop where
  | connects (cb : Bool) (hp : m.point = none) (ha : m.alive = true) (hst : m.state = .closed) :
      Moves m (.connectAsync cb)
        ({ m with connect_cb := m.connect_cb || cb }.await .connectStart m.stack)
  | connecting (cb : Bool) (hp : m.point = none) (ha : m.alive = true)
      (hst : m.state ≠ .closed) :
      Moves m (.connectAsync cb) { m with connect_cb := m.connect_cb || cb }
  | waits (s r w e : Bool) (t : Machine) (hp : m.point = none) (ha : m.alive = true)
      (hst : m.state ≠ .connected) (h : ret m.stack (enqueued m s r w e) = .ok t) :
      Moves m (.queryAsync s r w e) t
  | looks (s r w e : Bool) (t : Machine) (hp : m.point = none) (ha : m.alive = true)
      (hst : m.state = .connected)
      (h : handleQuery m.stack (ret m.stack) (enqueued m s r w e) = .ok t) :
      Moves m (.queryAsync s r w e) t
  | leaves (cb : Bool) (hp : m.point = none) (ha : m.alive = true) (hst : m.state ≠ .connected) :
      Moves m (.disconnectAsync cb) { m with
        disconnect_cb := m.disconnect_cb || cb, disconnect_on_finish := true }
  | releases (cb : Bool) (l : List Event) (hp : m.point = none) (ha : m.alive = true)
      (hst : m.state = .connected) (hl : ∀ ev ∈ l, ev = .disconnect) :
      Moves m (.disconnectAsync cb) { m with
        disconnect_cb := m.disconnect_cb || cb, log := m.log++l, polled := false, state := .closed,
        linked := false }.connFree
  | aborts (q : ℕ) (hp : m.point = none) (ha : m.alive = true) :
      Moves m (.abortAsync q) (queryAbort m q)
  | idle (hp : m.point = none) (hk : m.stack = []) (ha : m.alive = true)
      (hc : continuation m.state = none) : Moves m .read m
  | reads (p : Point) (hp : m.point = none) (hk : m.stack = []) (ha : m.alive = true)
      (hc : continuation m.state = some p) : Moves m .read (m.await p [])
  | answers (p : Point) (a : Answer) (e : Ending) (t : Machine) (hp : m.point = some p)
      (h : Handled m.stack m p a e) (hr : e.run m.stack = .ok t) : Moves m (.answer a) t
  | returns (f : Frame) (k : List Frame) (e : Ending) (t : Machine) (hp : m.point = none)
      (hk : m.stack = f::k) (h : Reentered k m f e) (hr : e.run k = .ok t) :
      Moves m .callbackReturns t

/-- Every step is a move. -/
theorem step_moves {m t : Machine} (a : Input) (h : step m a = .ok t) : Moves m a t := by
  cases a with
  | connectAsync cb =>
    obtain ⟨hg,h⟩ := guard_ok h
    cases h
    rw [handleConnect]
    split
    · next hst => exact .connects cb hg.1 hg.2 hst
    · next hst => exact .connecting cb hg.1 hg.2 hst
  | queryAsync s r w e =>
    obtain ⟨hg,h⟩ := guard_ok h
    rcases resume_cases h with ⟨hst,h⟩ | ⟨hst,h⟩
    · exact .looks s r w e t hg.1 hg.2 hst h
    · exact .waits s r w e t hg.1 hg.2 hst h
  | disconnectAsync cb =>
    obtain ⟨hg,h⟩ := guard_ok h
    obtain ⟨hst,rfl⟩ | ⟨hst,l,hl,rfl⟩ := disconnect_cases cb h
    · exact .leaves cb hg.1 hg.2 hst
    · exact .releases cb l hg.1 hg.2 hst hl
  | abortAsync q =>
    obtain ⟨hg,h⟩ := guard_ok h
    cases h
    exact .aborts q hg.1 hg.2.1
  | read =>
    obtain ⟨hg,h⟩ := guard_ok h
    obtain ⟨ha,⟨rfl,hc⟩ | ⟨p,hc,rfl⟩⟩ := onRead_spec t h
    · exact .idle hg.1 hg.2.1 ha hc
    · exact .reads p hg.1 hg.2.1 ha hc
  | answer a =>
    rw [step] at h
    split at h
    · next p hp =>
      obtain ⟨e,he,hr⟩ := answered_handled p a h
      exact .answers p a e t hp he hr
    · cases h
  | callbackReturns =>
    obtain ⟨hp,h⟩ := guard_ok h
    cases hk : m.stack with
    | nil =>
      rw [hk] at h
      cases h
    | cons f k =>
      rw [hk] at h
      obtain ⟨e,he,hr⟩ := returned_reentered f h
      exact .returns f k e t hp hk he hr

/-- How a call of the library comes about. -/
inductive Arises (m : Machine) (a : Input) (t : Machine) : Point → Prop where
  | starts (q : ℕ) : Arises m a t (.queryStart q)
  | next (q : ℕ) : Arises m a t (.nextStart q)
  | readNext (hst : t.state = .resultFreed) : Arises m a t .nextCont
  | connects (cb : Bool) (ha : a = .connectAsync cb) : Arises m a t .connectStart
  | reads (p : Point) (ha : a = .read) (hc : continuation m.state = some p) : Arises m a t p
  | asks (p p' : Point) (x : Answer) (s : ConnState) (k' : List Frame) (ha : a = .answer x)
      (hp : m.point = some p) (hst : t.state = s) (h : Asks m.stack m p x s p' k') :
      Arises m a t p'
  | follows (f : Frame) (k k' : List Frame) (p : Point) (ha : a = .callbackReturns)
      (hk : m.stack = f::k) (hst : t.state = m.state) (h : Follows k f p k') : Arises m a t p

section Points

variable {k : List Frame} {m u t : Machine} {a : Input} {p : Point}

theorem looked_stack (h : Looked k m t) : t.stack <:+ k := by
  cases h with
  | started q hp hk ha => exact hk
  | emptied hp hk hq => exact hk

theorem stopped_stack (h : Stopped k m t) : t.stack <:+ k := by
  cases h with
  | user l k' hk hl ht =>
    subst ht
    exact hk ▸ List.suffix_append l k'
  | next q k' ha hst hk ht =>
    subst ht
    exact (List.suffix_cons _ k').trans hk
  | readNext k' ha hst hk ht =>
    subst ht
    exact (List.suffix_cons _ k').trans hk
  | looked ha hst h => exact (looked_stack h).trans (List.tail_suffix k)

theorem looked_arises (h : Looked k u t) (hp : t.point = some p) : Arises m a t p := by
  cases h with
  | started q hq hk ha =>
    cases hq.symm.trans hp
    exact .starts q
  | emptied hq hk he => cases hq.symm.trans hp

theorem stopped_arises (h : Stopped k u t) (hp : t.point = some p) : Arises m a t p := by
  cases h with
  | user l k' hk hl ht =>
    subst ht
    cases hp
  | next q k' ha hst hk ht =>
    subst ht
    cases hp
    exact .next q
  | readNext k' ha hst hk ht =>
    subst ht
    cases hp
    exact .readNext hst
  | looked ha hst h => exact looked_arises h hp

theorem step_arises (h : step m a = .ok t) (hp : t.point = some p) : Arises m a t p := by
  cases step_moves a h with
  | connects cb =>
    cases hp
    exact .connects cb rfl
  | connecting cb hq | leaves cb hq | releases cb l hq | aborts q hq | idle hq =>
    cases hq.symm.trans hp
  | waits s r w e t hq ha hst h => exact stopped_arises (ret_walked h).2 hp
  | looks s r w e t hq ha hst h => exact looked_arises (handleQuery_walked h).2 hp
  | reads p' hq hk ha hc =>
    cases hp
    exact .reads _ rfl hc
  | answers p' x e t hq he hr =>
    cases he with
    | connecting | lost | unpolled | waits | still | frees =>
      exact stopped_arises (ret_walked hr).2 hp
    | established | again | failed | readFailed =>
      exact looked_arises (handleQuery_walked hr).2 hp
    | connects | tells =>
      cases hr
      cases hp
    | asks p' x s p'' k' hask =>
      cases hr
      cases hp
      exact .asks p' _ x s k' rfl hq rfl hask
  | returns f k e t hq hk he hr =>
    cases he with
    | unpolled | lost | waits => exact stopped_arises (ret_walked hr).2 hp
    | connected | readConnected => exact looked_arises (handleQuery_walked hr).2 hp
    | asks ha f p' k' hask =>
      cases hr
      cases hp
      exact .follows f k k' _ rfl hk rfl hask

end Points

end Duda.MariadbMoves
