import Duda.Mariadb
import Mathlib.Data.List.Range

/-!
# The queries of a connection, one after the other

The handlers of a connection are entered again from inside the callbacks. This
module states what holds between any two calls of the client library, of the
user and of the event loop: the queries are freed in the order in which they
were enqueued, and only the first of those left can be with the server.
-/

set_option autoImplicit false

namespace Duda.MariadbQueue
open Duda.Mariadb Duda.Runs

/-- The queries are passed to the server in the order in which they were
enqueued, each at most once; at most one of them is not yet freed; and the
queries that left the queue were freed once. -/
structure Serial (m : Machine) : Prop where
  ordered : m.started.Pairwise (· < ·)
  single : ∀ p ∈ m.started, ∀ q ∈ m.started, p ∉ m.freed → q ∉ m.freed → p = q
  once : m.freed.Nodup
  left : ∀ i < m.next, i ∈ m.queries.map Query.id ↔ i ∉ m.freed

/-- Whether the callback of an established connection is running. -/
def InConnectCb (m : Machine) : Prop :=
  Frame.connectedCb ∈ m.stack ∨ Frame.readConnectedCb ∈ m.stack

instance (m : Machine) : Decidable (InConnectCb m) :=
  inferInstanceAs (Decidable (_ ∨ _))

/-- The connect callback does not end the connection, and, after a deferred
connection, leaves it without a query on the way; a refused connection is not
tried again; a deferred `mysql_free_result` belongs to a connection with
several statements, and a deferred `mysql_next_result` finds another result. -/
def Orderly (m : Machine) : Input → Prop
  | .connectAsync _ => Frame.refusedCb ∉ m.stack
  | .queryAsync .. => m.disconnect_on_finish = true → ¬InConnectCb m
  | .disconnectAsync _ => ¬InConnectCb m
  | .answer a =>
    (m.point = some .freeCont → a = .done → m.multi = true) ∧
      (m.point = some .nextCont → a ≠ .next .none)
  | .callbackReturns => m.stack.head? = some .readConnectedCb → m.state = .connected
  | .abortAsync _ | .read => True

instance (m : Machine) (a : Input) : Decidable (Orderly m a) :=
  match a with
  | .connectAsync _ => inferInstanceAs (Decidable (_ ∉ _))
  | .queryAsync .. => inferInstanceAs (Decidable (_ → _))
  | .disconnectAsync _ => inferInstanceAs (Decidable (¬_))
  | .answer _ => inferInstanceAs (Decidable (_ ∧ _))
  | .callbackReturns => inferInstanceAs (Decidable (_ → _))
  | .abortAsync _ | .read => inferInstanceAs (Decidable True)

/-- The queries before `n` are freed, the others are in the queue. -/
structure Ledger (m : Machine) (n : ℕ) : Prop where
  freed : m.freed = List.range n
  queue : m.queries.map Query.id = List.range' n (m.next-n)
  le : n ≤ m.next

structure Settled (m : Machine) (n : ℕ) : Prop extends Ledger m n where
  ordered : m.started.Pairwise (· < ·)
  past : ∀ i ∈ m.started, i < n

structure InFlight (m : Machine) (n : ℕ) : Prop extends Ledger m n where
  lt : n < m.next
  started : ∃ st, m.started = st++[n] ∧ st.Pairwise (· < ·) ∧ ∀ i ∈ st, i < n

section Ledgers

variable (m : Machine) (n : ℕ)

theorem ledger_left (h : Ledger m n) : ∀ i < m.next,
    i ∈ m.queries.map Query.id ↔ i ∉ m.freed := by
  intro i hi
  rw [h.queue, h.freed, List.mem_range'_1, List.mem_range]
  have := h.le
  omega

theorem settled_serial (h : Settled m n) : Serial m := by
  refine ⟨h.ordered,?_,h.freed ▸ List.nodup_range,ledger_left m n h.toLedger⟩
  intro p hp q _ hfree
  rw [h.freed, List.mem_range] at hfree
  exact absurd (h.past p hp) hfree

theorem inFlight_serial (h : InFlight m n) : Serial m := by
  obtain ⟨st,hst,hsorted,hlt⟩ := h.started
  have hlast : ∀ p ∈ m.started, p ∉ m.freed → p = n := by
    intro p hp hfree
    rw [h.freed, List.mem_range] at hfree
    rw [hst, List.mem_append, List.mem_singleton] at hp
    rcases hp with hp | hp
    · exact absurd (hlt p hp) hfree
    · exact hp
  refine ⟨?_,?_,h.freed ▸ List.nodup_range,ledger_left m n h.toLedger⟩
  · rw [hst, List.pairwise_append]
    exact ⟨hsorted,List.pairwise_singleton _ _,fun a ha b hb =>
      (List.mem_singleton.mp hb) ▸ hlt a ha⟩
  · intro p hp q hq hpfree hqfree
    exact (hlast p hp hpfree).trans (hlast q hq hqfree).symm

/-- The first query of the queue has the number `n`. -/
theorem ledger_head (q : Query) (qs : List Query) (h : Ledger { m with queries := q::qs } n) :
    q.id = n ∧ n < m.next ∧ qs.map Query.id = List.range' (n+1) (m.next-(n+1)) := by
  have hq : q.id::qs.map Query.id = List.range' n (m.next-n) := h.queue
  have hle : n ≤ m.next := h.le
  cases hlen : m.next-n with
  | zero =>
    rw [hlen] at hq
    cases hq
  | succ l =>
    rw [hlen, List.range'_succ] at hq
    obtain ⟨hid,hqs⟩ := List.cons.inj hq
    refine ⟨hid,by omega,?_⟩
    rw [hqs, show m.next-(n+1) = l by omega]

theorem settled_pop (q : Query) (qs : List Query) (s : ConnState)
    (h : Settled { m with queries := q::qs } n) :
    Settled { m with queries := qs, state := s, freed := m.freed++[q.id] } (n+1) := by
  obtain ⟨hid,hlt,hqs⟩ := ledger_head m n q qs h.toLedger
  have hfreed : m.freed = List.range n := h.freed
  refine ⟨⟨?_,hqs,hlt⟩,h.ordered,fun i hi => (h.past i hi).trans (Nat.lt_succ_self n)⟩
  rw [hid, hfreed, List.range_succ]

theorem settled_start (q : Query) (qs : List Query)
    (h : Settled { m with queries := q::qs } n) :
    InFlight { m with
      queries := q::qs, current_query := some q.id, started := m.started++[q.id] } n := by
  obtain ⟨hid,hlt,-⟩ := ledger_head m n q qs h.toLedger
  exact ⟨⟨h.freed,h.queue,h.le⟩,hlt,m.started,by rw [hid],h.ordered,h.past⟩

theorem inFlight_head (h : InFlight m n) :
    ∃ q qs, m.queries = q::qs ∧ q.id = n ∧ m.lookup n = .ok q ∧
      m.queryFree n = .ok { m with queries := qs, freed := m.freed++[n] } := by
  cases hm : m.queries with
  | nil =>
    have hq := h.queue
    have hlt := h.lt
    rw [hm, List.map_nil, eq_comm, List.range'_eq_nil_iff] at hq
    omega
  | cons q qs =>
    have hl : Ledger { m with queries := q::qs } n := by
      rw [← hm]
      exact h.toLedger
    obtain ⟨hid,-,hqs⟩ := ledger_head m n q qs hl
    have hlook : m.lookup n = .ok q := by
      rw [Machine.lookup, hm, List.find?_cons_of_pos (by simpa using hid)]
    have hkeep : qs.filter (fun x => x.id ≠ n) = qs := by
      apply List.filter_eq_self.mpr
      intro x hx
      have hmem : x.id ∈ qs.map Query.id := List.mem_map_of_mem hx
      rw [hqs, List.mem_range'_1] at hmem
      simp only [ne_eq, decide_not, Bool.not_eq_true', decide_eq_false_iff_not]
      omega
    refine ⟨q,qs,rfl,hid,hlook,?_⟩
    rw [Machine.queryFree, hlook, hm, List.filter_cons_of_neg (by simpa using hid), hkeep]
    rfl

theorem inFlight_freed (q : Query) (qs : List Query) (hm : m.queries = q::qs)
    (h : InFlight m n) : Settled { m with queries := qs, freed := m.freed++[n] } (n+1) := by
  have hl : Ledger { m with queries := q::qs } n := by
    rw [← hm]
    exact h.toLedger
  obtain ⟨-,hlt,hqs⟩ := ledger_head m n q qs hl
  obtain ⟨st,hst,hsorted,hpast⟩ := h.started
  have hfreed : m.freed++[n] = List.range (n+1) := by rw [h.freed, List.range_succ]
  have hall : ∀ i ∈ m.started, i < n+1 := by
    intro i hi
    rw [hst, List.mem_append, List.mem_singleton] at hi
    rcases hi with hi | hi
    · exact (hpast i hi).trans (Nat.lt_succ_self n)
    · omega
  exact ⟨⟨hfreed,hqs,hlt⟩,(inFlight_serial m n h).ordered,hall⟩

end Ledgers

/-- Where the control is when a handler has returned to the code of the user. -/
inductive Tail : List Frame → Prop where
  | loop : Tail []
  | connected : Tail [.connectedCb]
  | read : Tail [.readConnectedCb]

/-- A stack of handlers of the query `q` above the code of the user. -/
inductive Returns (q : ℕ) (K : List Frame) : List Frame → Prop where
  | here : Returns q K K
  | handler (f : Frame) (hf : f ∈ [Frame.queryLoop,.readQuerying,.readRowEnd,.readNexting]) :
      Returns q K (f::K)
  | next (k : List Frame) (hk : Returns q K k) : Returns q K (.nextLoop q::k)

/-- A state in which a query is with the server. -/
def Busy (s : ConnState) : Prop := s ≠ .closed ∧ s ≠ .connecting ∧ s ≠ .connected

/-- The connection is open while the code at `K` runs. -/
structure Open (m : Machine) (K : List Frame) : Prop where
  alive : m.alive = true
  tail : Tail K
  linked : K ≠ [.connectedCb] → m.linked = true

/-- The connection is not released before a callback of the user returns. -/
def Kept (m : Machine) (K : List Frame) : Prop := K ≠ [] → m.disconnect_on_finish = false

structure Working (m : Machine) (n : ℕ) (K : List Frame) : Prop where
  isOpen : Open m K
  kept : Kept m K
  flight : InFlight m n
  current : m.current_query = some n

inductive Inv (m : Machine) : Prop where
  | unconnected (n : ℕ) (hs : Settled m n) (ha : m.alive = true) (hpoll : m.polled = false)
      (hst : m.state = .closed) (hk : m.stack = [])
      (hp : m.point = none ∨ m.point = some .connectStart)
  | refused (n : ℕ) (hs : Settled m n) (ha : m.alive = true) (hpoll : m.polled = false)
      (hst : m.state = .closed) (hk : m.stack = [.refusedCb]) (hp : m.point = none)
  | connecting (n : ℕ) (hs : Settled m n) (ha : m.alive = true) (hl : m.linked = true)
      (hst : m.state = .connecting) (hk : m.stack = [])
      (hp : m.point = none ∨ m.point = some .connectCont)
  | readRefused (n : ℕ) (hs : Settled m n) (ha : m.alive = true) (hl : m.linked = true)
      (hst : m.state = .connecting) (hk : m.stack = [.readRefusedCb]) (hp : m.point = none)
  | dead (n : ℕ) (hs : Settled m n) (ha : m.alive = false) (hpoll : m.polled = false)
      (hk : m.stack = []) (hp : m.point = none)
  | idle (n : ℕ) (K : List Frame) (hs : Settled m n) (ho : Open m K)
      (hst : m.state = .connected) (hk : m.stack = K) (hp : m.point = none)
  | starting (n : ℕ) (K : List Frame) (hw : Working m n K) (hk : m.stack = K)
      (hp : m.point = some (.queryStart n))
  | waiting (n : ℕ) (K : List Frame) (hw : Working m n K) (hst : Busy m.state) (hk : m.stack = K)
      (hp : m.point = none)
  | inside (n : ℕ) (K : List Frame) (hw : Working m n K) (hst : Busy m.state)
      (hk : Returns n K m.stack) (p : Point)
      (hp : p ∈ [Point.useResult n,.fetchStart n,.freeStart n,.nextStart n])
      (hm : m.point = some p)
  | reading (n : ℕ) (hw : Working m n []) (hst : Busy m.state) (hk : m.stack = []) (p : Point)
      (hp : p ∈ [Point.queryCont,.fetchCont,.freeCont,.nextCont]) (hm : m.point = some p)
  | callback (n : ℕ) (K k : List Frame) (hw : Working m n K) (hst : Busy m.state)
      (hk : Returns n K k) (f : Frame) (hf : f ∈ [Frame.resultCb,.rowCb n,.endCb])
      (hm : m.stack = f::k) (hp : m.point = none)
  | readCallback (n : ℕ) (hw : Working m n []) (hst : Busy m.state) (f : Frame)
      (hf : f ∈ [Frame.readRowCb,.readEndCb]) (hm : m.stack = [f]) (hp : m.point = none)

/-- A call of the library is made for the query in flight, or before there is
one. -/
inductive Calls (m : Machine) (p : Point) : Prop where
  | connect (n : ℕ) (hs : Settled m n) (ha : m.alive = true) (hpoll : m.polled = false)
      (hst : m.state = .closed) (hk : m.stack = []) (hp : p = .connectStart)
  | connectCont (n : ℕ) (hs : Settled m n) (ha : m.alive = true) (hl : m.linked = true)
      (hst : m.state = .connecting) (hk : m.stack = []) (hp : p = .connectCont)
  | starting (n : ℕ) (K : List Frame) (hw : Working m n K) (hk : m.stack = K)
      (hp : p = .queryStart n)
  | inside (n : ℕ) (K : List Frame) (hw : Working m n K) (hst : Busy m.state)
      (hk : Returns n K m.stack)
      (hp : p ∈ [Point.useResult n,.fetchStart n,.freeStart n,.nextStart n])
  | reading (n : ℕ) (hw : Working m n []) (hst : Busy m.state) (hk : m.stack = [])
      (hp : p ∈ [Point.queryCont,.fetchCont,.freeCont,.nextCont])

theorem inv_calls {m : Machine} (hi : Inv m) (p : Point) (hp : m.point = some p) : Calls m p := by
  cases hi with
  | unconnected n hs ha hpoll hst hk hq =>
    rcases hq with hq | hq
    · cases hp.symm.trans hq
    · exact .connect n hs ha hpoll hst hk (Option.some.inj (hp.symm.trans hq))
  | connecting n hs ha hl hst hk hq =>
    rcases hq with hq | hq
    · cases hp.symm.trans hq
    · exact .connectCont n hs ha hl hst hk (Option.some.inj (hp.symm.trans hq))
  | starting n K hw hk hq => exact .starting n K hw hk (Option.some.inj (hp.symm.trans hq))
  | inside n K hw hst hk p' hp' hq =>
    cases hp.symm.trans hq
    exact .inside n K hw hst hk hp'
  | reading n hw hst hk p' hp' hq =>
    cases hp.symm.trans hq
    exact .reading n hw hst hk hp'
  | refused _ _ _ _ _ _ hq | readRefused _ _ _ _ _ _ hq | dead _ _ _ _ _ hq
  | idle _ _ _ _ _ _ hq | waiting _ _ _ _ _ hq | callback _ _ _ _ _ _ _ _ _ hq
  | readCallback _ _ _ _ _ _ hq => cases hp.symm.trans hq

/-- The step is sound, or its input cannot come here. -/
def Sound : Except Fault Machine → Prop
  | .ok m => Inv m
  | .error f => f = .notEnabled

theorem tail_user (K : List Frame) (hK : Tail K) (m : Machine) : ret K m = .ok (m.user K) := by
  cases hK with
  | loop => rfl
  | connected => rfl
  | read => rfl

section Handlers

variable {m : Machine} {n : ℕ} {K k : List Frame}

theorem settled_at (hs : Settled m n) (m' : Machine) (hf : m'.freed = m.freed)
    (hq : m'.queries = m.queries) (hn : m'.next = m.next) (hst : m'.started = m.started) :
    Settled m' n := by
  refine ⟨⟨hf.trans hs.freed,?_,hn ▸ hs.le⟩,hst ▸ hs.ordered,hst ▸ hs.past⟩
  rw [hq, hn]
  exact hs.queue

theorem inFlight_at (hf : InFlight m n) (m' : Machine) (hfreed : m'.freed = m.freed)
    (hq : m'.queries = m.queries) (hn : m'.next = m.next) (hst : m'.started = m.started) :
    InFlight m' n := by
  refine ⟨⟨hfreed.trans hf.freed,?_,hn ▸ hf.le⟩,hn ▸ hf.lt,hst ▸ hf.started⟩
  rw [hq, hn]
  exact hf.queue

theorem working_at (hw : Working m n K) (s : ConnState) (l : List Event) (p : Option Point)
    (k : List Frame) : Working { m with state := s, log := l, point := p, stack := k } n K :=
  ⟨⟨hw.isOpen.alive,hw.isOpen.tail,hw.isOpen.linked⟩,hw.kept,
    inFlight_at hw.flight _ rfl rfl rfl rfl,hw.current⟩

/-- The handlers of a query that waits for the server return without an effect. -/
theorem ret_waiting (hw : Open m K) (hst : Busy m.state) (hfree : m.state ≠ .resultFreed)
    (hk : Returns n K k) : ret k m = .ok (m.user K) := by
  induction hk with
  | here => exact tail_user K hw.tail m
  | handler f hf =>
    have hr := tail_user K hw.tail m
    simp only [List.mem_cons, List.not_mem_nil, or_false] at hf
    rcases hf with rfl | rfl | rfl | rfl
    all_goals simp [ret, hw.alive, hst.2.2, hfree, hr]
  | next k hk ih => simp [ret, hw.alive, hfree, ih]

theorem sound_waiting (hw : Working m n K) (hst : Busy m.state) (hfree : m.state ≠ .resultFreed)
    (hk : Returns n K k) : Sound (ret k m) := by
  rw [ret_waiting hw.isOpen hst hfree hk]
  exact .waiting n K (working_at hw _ _ _ _) hst rfl rfl

theorem settled_connFree (hs : Settled m n) : Settled m.connFree m.next := by
  refine ⟨⟨?_,?_,Nat.le_refl _⟩,hs.ordered,fun i hi => (hs.past i hi).trans_le hs.le⟩
  · show m.freed++m.queries.map Query.id = List.range m.next
    have happ := List.range'_append_1 (s := 0) (m := n) (n := m.next-n)
    rw [Nat.zero_add, Nat.add_sub_of_le hs.le] at happ
    rw [hs.freed, hs.queue, List.range_eq_range', List.range_eq_range', happ]
  · show [] = List.range' m.next (m.next-m.next)
    rw [Nat.sub_self]
    rfl

theorem release_spec (hs : Settled m n) (hl : m.linked = true) :
    ∃ m', handleRelease m = .ok m' ∧ Settled m' m.next ∧ m'.alive = false ∧ m'.polled = false ∧
      m'.stack = m.stack ∧ m'.point = m.point := by
  rw [handleRelease, if_pos hl]
  refine ⟨_,rfl,?_⟩
  split_ifs
  · exact ⟨settled_connFree (settled_at hs _ rfl rfl rfl rfl),rfl,rfl,rfl,rfl⟩
  · exact ⟨settled_connFree (settled_at hs _ rfl rfl rfl rfl),rfl,rfl,rfl,rfl⟩

/-- What is left of the queue is gone through from the event loop or from the
code of the user. -/
theorem sound_loop (qs : List Query) (hs : Settled { m with queries := qs } n) (ho : Open m K)
    (hkept : Kept m K) : Sound (queryLoop K (ret K) qs m) := by
  induction qs generalizing m n with
  | nil =>
    rw [queryLoop]
    split_ifs with hf
    · have hK : K = [] := by
        by_contra hK
        exact absurd hf (by simp [hkept hK])
      subst hK
      obtain ⟨m',hr,hs',ha,hpoll,-⟩ := release_spec (m := { m with
        queries := [], current_query := none, state := .connected })
        (settled_at hs _ rfl rfl rfl rfl) (ho.linked (by simp))
      rw [hr]
      exact .dead m.next (settled_at hs' _ rfl rfl rfl rfl) ha hpoll rfl rfl
    · rw [tail_user K ho.tail]
      exact .idle n K (settled_at hs _ rfl rfl rfl rfl) ⟨ho.alive,ho.tail,ho.linked⟩ rfl rfl rfl
  | cons q qs ih =>
    rw [queryLoop]
    split_ifs
    · exact ih (settled_pop m n q qs .connected hs) ⟨ho.alive,ho.tail,ho.linked⟩ hkept
    · have hid := (ledger_head m n q qs hs.toLedger).1
      have hflight := settled_start m n q qs hs
      exact .starting n K ⟨⟨ho.alive,ho.tail,ho.linked⟩,hkept,
        inFlight_at hflight _ rfl rfl rfl rfl,congrArg some hid⟩ rfl (by rw [hid]; rfl)
    · exact ih (settled_pop m n q qs m.state hs) ⟨ho.alive,ho.tail,ho.linked⟩ hkept

theorem sound_handleQuery (hs : Settled m n) (ho : Open m K) (hkept : Kept m K) :
    Sound (handleQuery K (ret K) m) :=
  sound_loop m.queries hs ho hkept

theorem sound_resume (hs : Settled m n) (ho : Open m K) (hkept : Kept m K)
    (hst : m.state = .connected) : Sound (resume K m) := by
  rw [resume, if_pos hst]
  exact sound_handleQuery hs ho hkept

/-- The handlers of a query that is freed go on with the queue, or leave that
to the code of the user. -/
theorem sound_ret (hs : Settled m n) (ho : Open m K) (hkept : Kept m K)
    (hst : m.state = .connected) (q : ℕ) (hk : Returns q K k) : Sound (ret k m) := by
  induction hk with
  | here =>
    rw [tail_user K ho.tail]
    exact .idle n K (settled_at hs _ rfl rfl rfl rfl) ⟨ho.alive,ho.tail,ho.linked⟩ hst rfl rfl
  | handler f hf =>
    have hq := sound_handleQuery hs ho hkept
    simp only [List.mem_cons, List.not_mem_nil, or_false] at hf
    rcases hf with rfl | rfl | rfl | rfl
    all_goals simpa [ret, ho.alive, hst] using hq
  | next k hk ih => simpa [ret, ho.alive, hst] using ih

theorem working_current (hw : Working m n K) : ∃ x, m.currentQuery = .ok x ∧ m.lookup n = .ok x ∧
    x.id = n := by
  obtain ⟨x,-,-,hid,hlook,-⟩ := inFlight_head m n hw.flight
  refine ⟨x,?_,hlook,hid⟩
  rw [Machine.currentQuery, hw.current]
  exact hlook

theorem sound_freed (hw : Working m n K) (hk : Returns n K k) (c : Option ℕ) :
    Sound (({ m with current_query := c }.queryFree n).bind fun m =>
      ret k { m with state := .connected }) := by
  obtain ⟨x,xs,hm,-,-,hfree⟩ := inFlight_head { m with current_query := c } n
    (inFlight_at hw.flight _ rfl rfl rfl rfl)
  rw [hfree]
  have hs := inFlight_freed m n x xs hm hw.flight
  exact sound_ret (settled_at hs _ rfl rfl rfl rfl)
    ⟨hw.isOpen.alive,hw.isOpen.tail,hw.isOpen.linked⟩ hw.kept rfl n hk

theorem sound_await (hw : Working m n K) (hst : Busy m.state) (hk : Returns n K k) (p : ℕ → Point)
    (hp : p n ∈ [Point.useResult n,.fetchStart n,.freeStart n,.nextStart n]) :
    Sound (m.currentQuery.map fun q => m.await (p q.id) k) := by
  obtain ⟨x,hx,-,hid⟩ := working_current hw
  rw [hx, show Except.map _ (Except.ok x) = Except.ok (m.await (p x.id) k) from rfl, hid]
  exact .inside n K (working_at hw _ _ _ _) hst hk (p n) hp rfl

theorem sound_handleResult (hw : Working m n K) (hst : Busy m.state) (hk : Returns n K k) :
    Sound (handleResult k m) :=
  sound_await hw hst hk .useResult (by simp)

theorem sound_handleRow (hw : Working m n K) (hst : Busy m.state) (hk : Returns n K k) :
    Sound (handleRow k m) :=
  sound_await hw hst hk .fetchStart (by simp)

theorem sound_handleResultFree (hw : Working m n K) (hst : Busy m.state) (hk : Returns n K k) :
    Sound (handleResultFree k m) :=
  sound_await hw hst hk .freeStart (by simp)

theorem sound_handleNextResult (hw : Working m n K) (hst : Busy m.state) (hk : Returns n K k) :
    Sound (handleNextResult k m) :=
  sound_await hw hst hk .nextStart (by simp)

theorem sound_callback (hw : Working m n K) (hst : Busy m.state) (hk : Returns n K k) (e : Event)
    (f : Frame) (hf : f ∈ [Frame.resultCb,.rowCb n,.endCb]) :
    Sound (.ok ((m.logged e).user (f::k))) :=
  .callback n K k (working_at hw _ _ _ _) hst hk f hf rfl rfl

end Handlers

section Steps

variable {m : Machine} {n : ℕ} {K k : List Frame}

theorem sound_queryStarted (hw : Working m n K) (a : Answer) : Sound (queryStarted K m n a) := by
  cases a with
  | wouldBlock => exact sound_waiting (working_at hw _ _ _ _) (by simp [Busy]) (by simp) .here
  | failed =>
    obtain ⟨x,xs,hm,-,-,hfree⟩ := inFlight_head m n hw.flight
    rw [queryStarted, hfree]
    exact sound_handleQuery (inFlight_freed m n x xs hm hw.flight)
      ⟨hw.isOpen.alive,hw.isOpen.tail,hw.isOpen.linked⟩ hw.kept
  | done =>
    exact sound_handleResult (working_at hw _ _ _ _) (by simp [Busy])
      (.handler .queryLoop (by simp))
  | _ => rfl

theorem sound_resultUsed (hw : Working m n K) (hst : Busy m.state) (hk : Returns n K k)
    (a : Answer) : Sound (resultUsed k m n a) := by
  cases a with
  | result present =>
    cases present with
    | false => exact sound_freed hw hk m.current_query
    | true =>
      obtain ⟨x,-,hx,-⟩ := working_current hw
      rw [resultUsed, hx]
      show Sound (if x.abort = true then _ else _)
      split_ifs
      · exact sound_handleResultFree hw hst hk
      · exact sound_callback hw hst hk _ _ (by simp)
      · exact sound_handleRow hw hst hk
  | _ => rfl

theorem sound_rowStarted (hw : Working m n K) (hk : Returns n K k) (a : Answer) :
    Sound (rowStarted k m n a) := by
  have hw' := working_at hw .rowFetched m.log m.point m.stack
  have hst : Busy .rowFetched := by simp [Busy]
  obtain ⟨x,-,hx,-⟩ := working_current hw
  cases a with
  | wouldBlock => exact sound_waiting (working_at hw _ _ _ _) (by simp [Busy]) (by simp) hk
  | row =>
    rw [rowStarted, hx]
    show Sound (if x.row_cb = true then _ else _)
    split_ifs
    · exact sound_callback hw' hst hk _ _ (by simp)
    · exact .inside n K (working_at hw' _ _ _ _) hst hk (.fetchStart n) (by simp) rfl
  | noRow failed =>
    rw [rowStarted, hx]
    show Sound (if failed = true then _ else _)
    split_ifs
    · exact sound_handleResultFree hw' hst hk
    · exact sound_callback hw' hst hk _ _ (by simp)
    · exact sound_handleResultFree hw' hst hk
  | _ => rfl

theorem sound_freeStarted (hw : Working m n K) (hk : Returns n K k) (a : Answer) :
    Sound (freeStarted k m n a) := by
  cases a with
  | wouldBlock => exact sound_waiting (working_at hw _ _ _ _) (by simp [Busy]) (by simp) hk
  | done =>
    have hw' := working_at hw .resultFreed m.log m.point m.stack
    rw [freeStarted]
    split_ifs
    · exact sound_handleNextResult hw' (by simp [Busy]) hk
    · exact sound_freed hw' hk none
  | _ => rfl

theorem sound_nextStarted (hw : Working m n K) (hk : Returns n K k) (a : Answer) :
    Sound (nextStarted k m n a) := by
  have hw' := working_at hw .nextResulted m.log m.point m.stack
  have hst : Busy .nextResulted := by simp [Busy]
  cases a with
  | wouldBlock => exact sound_waiting (working_at hw _ _ _ _) (by simp [Busy]) (by simp) hk
  | next r =>
    cases r with
    | none => exact sound_freed hw' hk none
    | more => exact sound_handleResult hw' hst (.next k hk)
    | error => exact .inside n K (working_at hw' _ _ _ _) hst hk (.nextStart n) (by simp) rfl
  | _ => rfl

theorem sound_still (hw : Working m n []) (hst : Busy m.state) : Sound (ret [] m) :=
  .waiting n [] (working_at hw _ _ _ _) hst rfl rfl

theorem sound_queryContinued (hw : Working m n []) (hst : Busy m.state) (a : Answer) :
    Sound (queryContinued [] m a) := by
  cases a with
  | wouldBlock => exact sound_still hw hst
  | failed =>
    obtain ⟨x,hx,-,hid⟩ := working_current hw
    obtain ⟨y,ys,hm,-,-,hfree⟩ := inFlight_head m n hw.flight
    rw [queryContinued, hx]
    show Sound ((m.queryFree x.id).bind _)
    rw [hid, hfree]
    exact sound_handleQuery (settled_at (inFlight_freed m n y ys hm hw.flight) _ rfl rfl rfl rfl)
      ⟨hw.isOpen.alive,hw.isOpen.tail,hw.isOpen.linked⟩ hw.kept
  | done =>
    exact sound_handleResult (working_at hw _ _ _ _) (by simp [Busy])
      (.handler .readQuerying (by simp))
  | _ => rfl

theorem sound_rowContinued (hw : Working m n []) (hst : Busy m.state) (a : Answer) :
    Sound (rowContinued [] m a) := by
  have hw' := working_at hw .rowFetched m.log m.point m.stack
  have hst' : Busy .rowFetched := by simp [Busy]
  have hk : Returns n [] [.readRowEnd] := .handler .readRowEnd (by simp)
  obtain ⟨x,hx,-,-⟩ := working_current hw
  cases a with
  | wouldBlock => exact sound_still hw hst
  | row =>
    rw [rowContinued, hx]
    show Sound (if x.row_cb = true then _ else _)
    split_ifs
    · exact .readCallback n (working_at hw' _ _ _ _) hst' .readRowCb (by simp) rfl rfl
    · exact .reading n (working_at hw' _ _ _ _) hst' rfl .fetchCont (by simp) rfl
  | noRow failed =>
    rw [rowContinued, hx]
    show Sound (if failed = true then _ else _)
    split_ifs
    · exact sound_handleResultFree hw' hst' hk
    · exact .readCallback n (working_at hw' _ _ _ _) hst' .readEndCb (by simp) rfl rfl
    · exact sound_handleResultFree hw' hst' hk
  | _ => rfl

theorem sound_freeContinued (hw : Working m n []) (hst : Busy m.state) (a : Answer)
    (hmulti : a = .done → m.multi = true) : Sound (freeContinued [] m a) := by
  cases a with
  | wouldBlock => exact sound_still hw hst
  | done =>
    rw [freeContinued, if_pos (hmulti rfl)]
    exact sound_handleNextResult (working_at hw _ _ _ _) (by simp [Busy]) .here
  | _ => rfl

theorem sound_nextContinued (hw : Working m n []) (hst : Busy m.state) (a : Answer)
    (hmore : a ≠ .next .none) : Sound (nextContinued [] m a) := by
  have hw' := working_at hw .nextResulted m.log m.point m.stack
  have hst' : Busy .nextResulted := by simp [Busy]
  cases a with
  | wouldBlock =>
    rw [nextContinued, resume, if_neg hst.2.2]
    exact sound_still hw hst
  | next r =>
    cases r with
    | none => exact absurd rfl hmore
    | more => exact sound_handleResult hw' hst' (.handler .readNexting (by simp))
    | error => exact .reading n (working_at hw' _ _ _ _) hst' rfl .nextCont (by simp) rfl
  | _ => rfl

theorem sound_connectEnd (hs : Settled m n) (ha : m.alive = true) (hst : m.state = .connected) :
    Sound (connectEnd [] m) :=
  sound_resume (settled_at hs _ rfl rfl rfl rfl) ⟨ha,.loop,fun _ => rfl⟩ (fun h => absurd rfl h) hst

theorem sound_connFree (hs : Settled m n) (hpoll : m.polled = false) :
    Sound (ret [] m.connFree) :=
  .dead m.next (settled_at (settled_connFree hs) _ rfl rfl rfl rfl) rfl hpoll rfl rfl

theorem sound_connectStarted (hs : Settled m n) (ha : m.alive = true) (hpoll : m.polled = false)
    (hst : m.state = .closed) (a : Answer) : Sound (connectStarted [] m a) := by
  cases a with
  | wouldBlock =>
    exact .connecting n (settled_at hs _ rfl rfl rfl rfl) ha rfl rfl rfl (.inl rfl)
  | failed =>
    rw [connectStarted]
    split_ifs
    · exact .refused n (settled_at hs _ rfl rfl rfl rfl) ha hpoll hst rfl rfl
    · exact sound_connFree hs hpoll
  | done =>
    rw [connectStarted]
    split_ifs
    · exact .idle n [.connectedCb] (settled_at hs _ rfl rfl rfl rfl)
        ⟨ha,.connected,fun h => absurd rfl h⟩ rfl rfl rfl
    · exact sound_connectEnd (settled_at hs _ rfl rfl rfl rfl) ha rfl
  | _ => rfl

theorem sound_connectContinued (hs : Settled m n) (ha : m.alive = true) (hl : m.linked = true)
    (hst : m.state = .connecting) (a : Answer) : Sound (connectContinued [] m a) := by
  cases a with
  | wouldBlock => exact .connecting n (settled_at hs _ rfl rfl rfl rfl) ha hl hst rfl (.inl rfl)
  | failed =>
    rw [connectContinued]
    split_ifs
    · exact .readRefused n (settled_at hs _ rfl rfl rfl rfl) ha hl hst rfl rfl
    · exact .connecting n (settled_at hs _ rfl rfl rfl rfl) ha hl hst rfl (.inl rfl)
  | done =>
    rw [connectContinued]
    split_ifs
    · exact .idle n [.readConnectedCb] (settled_at hs _ rfl rfl rfl rfl) ⟨ha,.read,fun _ => hl⟩
        rfl rfl rfl
    · exact sound_handleQuery (settled_at hs _ rfl rfl rfl rfl) ⟨ha,.loop,fun _ => hl⟩
        (fun h => absurd rfl h)
  | _ => rfl

theorem sound_onRead (hw : Working m n []) (hst : Busy m.state) (hk : m.stack = [])
    (hp : m.point = none) : Sound (onRead m) := by
  obtain ⟨x,hx,-⟩ := working_current hw
  rw [onRead, if_pos hw.isOpen.alive]
  have hread : ∀ p ∈ [Point.queryCont,.fetchCont,.freeCont,.nextCont],
      Sound (m.currentQuery.map fun _ => m.await p []) := by
    intro p hp
    rw [hx]
    exact .reading n (working_at hw _ _ _ _) hst rfl p hp rfl
  split
  · next h => exact absurd h hst.2.1
  · exact hread _ (by simp)
  · exact hread _ (by simp)
  · exact hread _ (by simp)
  · exact hread _ (by simp)
  · exact .waiting n [] hw hst hk hp

theorem sound_returned (hw : Working m n K) (hst : Busy m.state) (hk : Returns n K k) (f : Frame)
    (hf : f ∈ [Frame.resultCb,.rowCb n,.endCb]) : Sound (returned m (f::k)) := by
  obtain ⟨x,-,hx,-⟩ := working_current hw
  have ha := hw.isOpen.alive
  simp only [List.mem_cons, List.not_mem_nil, or_false] at hf
  rcases hf with rfl | rfl | rfl
  · rw [returned, if_pos ha]
    exact sound_handleRow hw hst hk
  · rw [returned, if_pos ha]
    show Sound ((m.lookup n).map _)
    rw [hx]
    exact .inside n K (working_at hw _ _ _ _) hst hk (.fetchStart n) (by simp) rfl
  · rw [returned, if_pos ha]
    exact sound_handleResultFree hw hst hk

theorem sound_readReturned (hw : Working m n []) (hst : Busy m.state) (f : Frame)
    (hf : f ∈ [Frame.readRowCb,.readEndCb]) : Sound (returned m [f]) := by
  obtain ⟨x,hx,-⟩ := working_current hw
  have ha := hw.isOpen.alive
  simp only [List.mem_cons, List.not_mem_nil, or_false] at hf
  rcases hf with rfl | rfl
  · rw [returned, if_pos ha]
    show Sound (m.currentQuery.map _)
    rw [hx]
    exact .reading n (working_at hw _ _ _ _) hst rfl .fetchCont (by simp) rfl
  · rw [returned, if_pos ha]
    exact sound_handleResultFree hw hst (.handler .readRowEnd (by simp))

end Steps

theorem tail_connectCb (K : List Frame) (hK : Tail K) (h : K ≠ []) :
    Frame.connectedCb ∈ K ∨ Frame.readConnectedCb ∈ K := by
  cases hK with
  | loop => exact absurd rfl h
  | connected => exact .inl (by simp)
  | read => exact .inr (by simp)

theorem returns_subset (q : ℕ) (K k : List Frame) (hk : Returns q K k) : K ⊆ k := by
  induction hk with
  | here => exact List.Subset.refl K
  | handler f hf => exact List.subset_cons_self f K
  | next k hk ih => exact fun x hx => List.mem_cons_of_mem _ (ih hx)

/-- The calls of the user that only leave a note: callbacks are set, queries
are enqueued or aborted, the end is asked for. -/
structure Noted (m m' : Machine) : Prop where
  state : m'.state = m.state
  current : m'.current_query = m.current_query
  linked : m'.linked = m.linked
  polled : m'.polled = m.polled
  alive : m'.alive = m.alive
  started : m'.started = m.started
  freed : m'.freed = m.freed
  point : m'.point = m.point
  stack : m'.stack = m.stack
  finish : m'.disconnect_on_finish = m.disconnect_on_finish ∨ ¬InConnectCb m
  queue : m.next ≤ m'.next ∧ m'.queries.map Query.id =
    m.queries.map Query.id++List.range' m.next (m'.next-m.next)

section Notes

variable {m m' : Machine} {n : ℕ} {K : List Frame} (hn : Noted m m')

include hn

theorem ledger_noted (hl : Ledger m n) : Ledger m' n := by
  obtain ⟨hle,hq⟩ := hn.queue
  have hln := hl.le
  refine ⟨hn.freed.trans hl.freed,?_,hl.le.trans hle⟩
  have happ := List.range'_append_1 (s := n) (m := m.next-n) (n := m'.next-m.next)
  rw [Nat.add_sub_of_le hln, show m.next-n+(m'.next-m.next) = m'.next-n by omega] at happ
  rw [hq, hl.queue, happ]

theorem settled_noted (hs : Settled m n) : Settled m' n :=
  ⟨ledger_noted hn hs.toLedger,hn.started ▸ hs.ordered,hn.started ▸ hs.past⟩

theorem open_noted (ho : Open m K) : Open m' K :=
  ⟨hn.alive.trans ho.alive,ho.tail,fun h => hn.linked.trans (ho.linked h)⟩

theorem kept_noted (hkept : Kept m K) (hK : Tail K) (hsub : K ⊆ m.stack) : Kept m' K := by
  intro hne
  rcases hn.finish with h | h
  · exact h.trans (hkept hne)
  · exact absurd ((tail_connectCb K hK hne).imp (@hsub _) (@hsub _)) h

theorem working_noted (hw : Working m n K) (hsub : K ⊆ m.stack) : Working m' n K :=
  ⟨open_noted hn hw.isOpen,kept_noted hn hw.kept hw.isOpen.tail hsub,
    ⟨ledger_noted hn hw.flight.toLedger,hw.flight.lt.trans_le hn.queue.1,
      hn.started ▸ hw.flight.started⟩,hn.current.trans hw.current⟩

theorem inv_noted (hi : Inv m) (hp : m.point = none) : Inv m' := by
  have hp' : m'.point = none := hn.point.trans hp
  cases hi with
  | unconnected n hs ha hpoll hst hk _ =>
    exact .unconnected n (settled_noted hn hs) (hn.alive.trans ha) (hn.polled.trans hpoll)
      (hn.state.trans hst) (hn.stack.trans hk) (.inl hp')
  | refused n hs ha hpoll hst hk _ =>
    exact .refused n (settled_noted hn hs) (hn.alive.trans ha) (hn.polled.trans hpoll)
      (hn.state.trans hst) (hn.stack.trans hk) hp'
  | connecting n hs ha hl hst hk _ =>
    exact .connecting n (settled_noted hn hs) (hn.alive.trans ha) (hn.linked.trans hl)
      (hn.state.trans hst) (hn.stack.trans hk) (.inl hp')
  | readRefused n hs ha hl hst hk _ =>
    exact .readRefused n (settled_noted hn hs) (hn.alive.trans ha) (hn.linked.trans hl)
      (hn.state.trans hst) (hn.stack.trans hk) hp'
  | dead n hs ha hpoll hk _ =>
    exact .dead n (settled_noted hn hs) (hn.alive.trans ha) (hn.polled.trans hpoll)
      (hn.stack.trans hk) hp'
  | idle n K hs ho hst hk _ =>
    exact .idle n K (settled_noted hn hs) (open_noted hn ho) (hn.state.trans hst)
      (hn.stack.trans hk) hp'
  | waiting n K hw hst hk _ =>
    exact .waiting n K (working_noted hn hw (hk ▸ List.Subset.refl _)) (hn.state.symm ▸ hst)
      (hn.stack.trans hk) hp'
  | callback n K k hw hst hk f hf hm _ =>
    refine .callback n K k (working_noted hn hw ?_) (hn.state.symm ▸ hst) hk f hf
      (hn.stack.trans hm) hp'
    rw [hm]
    exact fun x hx => List.mem_cons_of_mem f (returns_subset n K k hk hx)
  | readCallback n hw hst f hf hm _ =>
    exact .readCallback n (working_noted hn hw (List.nil_subset _)) (hn.state.symm ▸ hst) f hf
      (hn.stack.trans hm) hp'
  | starting _ _ _ _ hq | inside _ _ _ _ _ _ _ hq | reading _ _ _ _ _ _ hq =>
    cases hp.symm.trans hq

end Notes

section Inputs

variable {m : Machine} (hi : Inv m)

include hi

/-- In the code of the user, and in the event loop, a handler returns at once. -/
theorem user_ret (hp : m.point = none) (m' : Machine) : ret m.stack m' = .ok (m'.user m.stack) := by
  cases hi with
  | unconnected _ _ _ _ _ hk | refused _ _ _ _ _ hk | connecting _ _ _ _ _ hk
  | readRefused _ _ _ _ _ hk | dead _ _ _ _ hk =>
    rw [hk]
    rfl
  | idle n K hs ho hst hk _ => rw [hk, tail_user K ho.tail]
  | waiting n K hw hst hk _ => rw [hk, tail_user K hw.isOpen.tail]
  | callback n K k hw hst hk f hf hm _ =>
    simp only [List.mem_cons, List.not_mem_nil, or_false] at hf
    rw [hm]
    rcases hf with rfl | rfl | rfl <;> rfl
  | readCallback n hw hst f hf hm _ =>
    simp only [List.mem_cons, List.not_mem_nil, or_false] at hf
    rw [hm]
    rcases hf with rfl | rfl <;> rfl
  | starting _ _ _ _ hq | inside _ _ _ _ _ _ _ hq | reading _ _ _ _ _ _ hq =>
    cases hp.symm.trans hq

/-- A connection in the hands of the user is idle when it is `CONNECTED`. -/
theorem connected_idle (hp : m.point = none) (ha : m.alive = true) (hst : m.state = .connected) :
    ∃ n, Settled m n ∧ Open m m.stack := by
  cases hi with
  | idle n K hs ho _ hk _ => exact ⟨n,hs,hk ▸ ho⟩
  | unconnected _ _ _ _ hst' | refused _ _ _ _ hst' | connecting _ _ _ _ hst'
  | readRefused _ _ _ _ hst' => cases hst.symm.trans hst'
  | dead _ _ ha' => cases ha.symm.trans ha'
  | waiting _ _ _ hst' | callback _ _ _ _ hst' | readCallback _ _ hst' =>
    exact absurd hst hst'.2.2
  | starting _ _ _ _ hq | inside _ _ _ _ _ _ _ hq | reading _ _ _ _ _ _ hq =>
    cases hp.symm.trans hq

theorem sound_connectAsync (hp : m.point = none) (ha : m.alive = true) (cb : Bool)
    (hg : Frame.refusedCb ∉ m.stack) : Inv (handleConnect m cb) := by
  have hnote : Noted m { m with connect_cb := m.connect_cb || cb } := by
    refine ⟨rfl,rfl,rfl,rfl,rfl,rfl,rfl,rfl,rfl,.inl rfl,Nat.le_refl _,?_⟩
    simp
  by_cases hst : m.state = .closed
  · rw [handleConnect, if_pos hst]
    cases hi with
    | unconnected n hs _ hpoll _ hk _ =>
      exact .unconnected n (settled_at hs _ rfl rfl rfl rfl) ha hpoll hst hk (.inr rfl)
    | refused n hs _ hpoll _ hk _ => exact absurd (by simp [hk]) hg
    | idle _ _ _ _ hst' | connecting _ _ _ _ hst' | readRefused _ _ _ _ hst' =>
      cases hst.symm.trans hst'
    | dead _ _ ha' => cases ha.symm.trans ha'
    | waiting _ _ _ hst' | callback _ _ _ _ hst' | readCallback _ _ hst' =>
      exact absurd hst hst'.1
    | starting _ _ _ _ hq | inside _ _ _ _ _ _ _ hq | reading _ _ _ _ _ _ hq =>
      cases hp.symm.trans hq
  · rw [handleConnect, if_neg hst]
    exact inv_noted hnote hi hp

theorem sound_queryAsync (hp : m.point = none) (ha : m.alive = true) (s r w e : Bool)
    (hg : m.disconnect_on_finish = true → ¬InConnectCb m) : Sound (handleAddQuery m s r w e) := by
  have hnote : Noted m { m with
      queries := m.queries++[⟨m.next,s,false,r,w,e⟩], next := m.next+1 } := by
    refine ⟨rfl,rfl,rfl,rfl,rfl,rfl,rfl,rfl,rfl,.inl rfl,Nat.le_succ _,?_⟩
    simp
  rw [handleAddQuery]
  by_cases hst : m.state = .connected
  · obtain ⟨n,hs,ho⟩ := connected_idle hi hp ha hst
    refine sound_resume (settled_noted hnote hs) (open_noted hnote ho) ?_ hst
    intro hne
    by_contra hf
    exact hg (by simpa using hf) (tail_connectCb m.stack ho.tail hne)
  · rw [resume, if_neg hst, user_ret hi hp]
    have hinv := inv_noted hnote hi hp
    rw [Machine.user, ← hp]
    exact hinv

theorem sound_disconnectAsync (hp : m.point = none) (ha : m.alive = true) (cb : Bool)
    (hg : ¬InConnectCb m) : Sound (handleDisconnect m cb) := by
  rw [handleDisconnect]
  split_ifs with hst
  · refine inv_noted (m := m) ⟨rfl,rfl,rfl,rfl,rfl,rfl,rfl,rfl,rfl,.inr hg,Nat.le_refl _,?_⟩ hi hp
    simp
  · obtain ⟨n,hs,ho⟩ := connected_idle hi hp ha (not_not.mp hst)
    have hk : m.stack = [] := by
      by_contra hne
      exact hg (tail_connectCb m.stack ho.tail hne)
    obtain ⟨m',hr,hs',ha',hpoll,hk',hp'⟩ :=
      release_spec (m := { m with disconnect_cb := m.disconnect_cb || cb })
        (settled_at hs _ rfl rfl rfl rfl) (ho.linked (by simp [hk]))
    rw [hr]
    exact .dead _ hs' ha' hpoll (hk'.trans hk) (hp'.trans hp)

theorem sound_abortAsync (hp : m.point = none) (q : ℕ) : Inv (queryAbort m q) := by
  refine inv_noted (m := m) ⟨rfl,rfl,rfl,rfl,rfl,rfl,rfl,rfl,rfl,.inl rfl,Nat.le_refl _,?_⟩ hi hp
  rw [queryAbort, List.map_map, show m.next-m.next = 0 by omega, List.range'_zero, List.append_nil]
  apply List.map_congr_left
  intro x _
  by_cases hx : x.id = q
  · simp [hx]
  · simp [hx]

theorem sound_read (hp : m.point = none) (hk : m.stack = []) (hpoll : m.polled = true) :
    Sound (onRead m) := by
  cases hi with
  | connecting n hs ha hl hst _ _ =>
    rw [onRead, if_pos ha, hst]
    exact .connecting n (settled_at hs _ rfl rfl rfl rfl) ha hl hst rfl (.inr rfl)
  | idle n K hs ho hst hk' _ =>
    rw [onRead, if_pos ho.alive, hst]
    exact .idle n K hs ho hst hk' hp
  | waiting n K hw hst hk' _ =>
    rw [hk] at hk'
    subst hk'
    exact sound_onRead hw hst hk hp
  | unconnected _ _ _ hpoll' | dead _ _ _ hpoll' => cases hpoll.symm.trans hpoll'
  | refused _ _ _ _ _ hk' | readRefused _ _ _ _ _ hk' | callback _ _ _ _ _ _ _ _ hk'
  | readCallback _ _ _ _ _ hk' => cases hk.symm.trans hk'
  | starting _ _ _ _ hq | inside _ _ _ _ _ _ _ hq | reading _ _ _ _ _ _ hq =>
    cases hp.symm.trans hq

theorem sound_answer (p : Point) (hp : m.point = some p) (a : Answer)
    (hfree : m.point = some .freeCont → a = .done → m.multi = true)
    (hnext : m.point = some .nextCont → a ≠ .next .none) : Sound (answered m.stack m a p) := by
  cases inv_calls hi p hp with
  | connect n hs ha hpoll hst hk hq =>
    subst hq
    rw [hk]
    exact sound_connectStarted hs ha hpoll hst a
  | connectCont n hs ha hl hst hk hq =>
    subst hq
    rw [hk]
    exact sound_connectContinued hs ha hl hst a
  | starting n K hw hk hq =>
    subst hq
    rw [hk]
    exact sound_queryStarted hw a
  | inside n K hw hst hk hq =>
    simp only [List.mem_cons, List.not_mem_nil, or_false] at hq
    rcases hq with rfl | rfl | rfl | rfl
    · exact sound_resultUsed hw hst hk a
    · exact sound_rowStarted hw hk a
    · exact sound_freeStarted hw hk a
    · exact sound_nextStarted hw hk a
  | reading n hw hst hk hq =>
    rw [hk]
    simp only [List.mem_cons, List.not_mem_nil, or_false] at hq
    rcases hq with rfl | rfl | rfl | rfl
    · exact sound_queryContinued hw hst a
    · exact sound_rowContinued hw hst a
    · exact sound_freeContinued hw hst a (hfree hp)
    · exact sound_nextContinued hw hst a (hnext hp)

theorem sound_callbackReturns (hp : m.point = none)
    (hg : m.stack.head? = some .readConnectedCb → m.state = .connected) :
    Sound (returned m m.stack) := by
  cases hi with
  | unconnected n hs ha hpoll hst hk _ =>
    rw [hk]
    rfl
  | refused n hs ha hpoll hst hk _ =>
    rw [hk, returned, if_pos ha]
    exact sound_connFree hs hpoll
  | connecting n hs ha hl hst hk _ =>
    rw [hk]
    rfl
  | readRefused n hs ha hl hst hk _ =>
    rw [hk]
    exact .connecting n (settled_at hs _ rfl rfl rfl rfl) ha hl hst rfl (.inl rfl)
  | dead n hs ha hpoll hk _ =>
    rw [hk]
    rfl
  | idle n K hs ho hst hk _ =>
    rw [hk]
    cases ho.tail with
    | loop => rfl
    | connected =>
      rw [returned, if_pos ho.alive]
      exact sound_connectEnd hs ho.alive hst
    | read =>
      rw [returned, if_pos ho.alive]
      exact sound_handleQuery hs ⟨ho.alive,.loop,fun _ => ho.linked (by simp)⟩
        (fun h => absurd rfl h)
  | waiting n K hw hst hk _ =>
    rw [hk] at hg ⊢
    cases hw.isOpen.tail with
    | loop => rfl
    | connected =>
      rw [returned, if_pos hw.isOpen.alive]
      show Sound (connectEnd [] m)
      rw [connectEnd, resume, if_neg hst.2.2]
      exact .waiting n [] ⟨⟨hw.isOpen.alive,.loop,fun _ => rfl⟩,fun h => absurd rfl h,
        inFlight_at hw.flight _ rfl rfl rfl rfl,hw.current⟩ hst rfl rfl
    | read => exact absurd (hg rfl) hst.2.2
  | callback n K k hw hst hk f hf hm _ =>
    rw [hm]
    exact sound_returned hw hst hk f hf
  | readCallback n hw hst f hf hm _ =>
    rw [hm]
    exact sound_readReturned hw hst f hf
  | starting _ _ _ _ hq | inside _ _ _ _ _ _ _ hq | reading _ _ _ _ _ _ hq =>
    cases hp.symm.trans hq

theorem step_sound (a : Input) (hg : Orderly m a) : Sound (step m a) := by
  cases a with
  | connectAsync cb =>
    rw [step]
    split_ifs with h
    · exact sound_connectAsync hi h.1 h.2 cb hg
    · rfl
  | queryAsync s r w e =>
    rw [step]
    split_ifs with h
    · exact sound_queryAsync hi h.1 h.2 s r w e hg
    · rfl
  | disconnectAsync cb =>
    rw [step]
    split_ifs with h
    · exact sound_disconnectAsync hi h.1 h.2 cb hg
    · rfl
  | abortAsync q =>
    rw [step]
    split_ifs with h
    · exact sound_abortAsync hi h.1 q
    · rfl
  | read =>
    rw [step]
    split_ifs with h
    · exact sound_read hi h.1 h.2.1 h.2.2
    · rfl
  | answer a =>
    rw [step]
    split
    · next p hp => exact sound_answer hi p hp a hg.1 hg.2
    · rfl
  | callbackReturns =>
    rw [step]
    split_ifs with h
    · exact sound_callbackReturns hi h hg
    · rfl

theorem inv_serial : Serial m := by
  cases hi with
  | unconnected n hs | refused n hs | connecting n hs | readRefused n hs | dead n hs
  | idle n _ hs => exact settled_serial m n hs
  | starting n _ hw | waiting n _ hw | inside n _ hw | reading n hw | callback n _ _ hw
  | readCallback n hw => exact inFlight_serial m n hw.flight

end Inputs

/-- A step that is no misuse of memory, and leaves the queries in order. -/
def Serves : Machine → Input → Except Fault Machine → Prop :=
  fun _ _ r => (∀ f, r = .error f → f = .notEnabled) ∧ ∀ m, r = .ok m → Serial m

/-- Along every orderly run of a new connection the queries are served one
after the other. -/
theorem queries_serial (multi : Bool) (calls : List Input)
    (h : Along step (fun m a _ => Orderly m a) calls (connCreate multi)) :
    Along step Serves calls (connCreate multi) := by
  apply along_of_invariant (I := Inv) (G := fun m a _ => Orderly m a)
  · intro m a m' hi hg hs
    have hsound := step_sound hi a hg
    rw [hs] at hsound
    exact hsound
  · intro m a hi hg
    have hsound := step_sound hi a hg
    constructor
    · intro f hf
      rw [hf] at hsound
      exact hsound
    · intro m' hm'
      rw [hm'] at hsound
      exact inv_serial hsound
  · exact .unconnected 0 ⟨⟨rfl,rfl,Nat.le_refl _⟩,List.Pairwise.nil,by simp [connCreate]⟩ rfl rfl
      rfl rfl (.inl rfl)
  · exact h

/-- A query enqueued in the connect callback of an immediate connection. -/
theorem callback_query_serial : Along step Serves
    [.connectAsync true,.answer .done,.queryAsync true true true true,.answer .wouldBlock,
      .callbackReturns,.read,.answer .failed] (connCreate false) :=
  queries_serial false _ (by decide)

/-- A query enqueued in the connect callback of a deferred connection is passed
to the server twice when it has to wait. -/
theorem callback_query_twice :
    ∃ m, run step [.connectAsync true,.answer .wouldBlock,.read,.answer .done,
        .queryAsync true true true true,.answer .wouldBlock,.callbackReturns] (connCreate false) =
        .ok m ∧
      m.started = [0,0] ∧ ¬Serial m := by
  refine ⟨_,rfl,rfl,fun h => ?_⟩
  have hordered := h.ordered
  revert hordered
  decide

end Duda.MariadbQueue
