import Duda.MariadbMoves
import Duda.MariadbQuery

/-!
# What is left in the queue

When a query is freed, the handlers that called for it return, and one of them
is to look at the queue again. This module settles which steps free a query,
and what the event loop then finds: the next query on its way, an empty queue,
or, if none of the handlers looks at it, the rest of the queue.
-/

set_option autoImplicit false

namespace Duda.MariadbOnward
open Duda.Mariadb Duda.MariadbMoves Duda.MariadbQueue Duda.Runs
open Duda.MariadbQuery (bare ret_freed)

/-- The answers after which a query is freed while its handlers are still to
return. -/
def frees (m : Machine) : Input → Bool
  | .answer a =>
    match m.point,a with
    | some (.useResult _),.result false | some (.nextStart _),.next .none => true
    | some (.freeStart _),.done => !m.multi
    | _,_ => false
  | _ => false

section Queue

variable {k : List Frame} {m u t : Machine}

theorem looked_onward (h : Looked k u t) : t.point = none → t.queries = [] := by
  cases h with
  | started q hp hk ha =>
    intro hnone
    cases hp.symm.trans hnone
  | emptied hp hk hq => exact fun _ => hq

theorem stopped_onward (h : Stopped k u t) (hf : u.freed = m.freed) :
    t.freed = m.freed ∨ (t.point = none → t.queries = []) := by
  cases h with
  | user l k' hk hl ht | next q k' ha hst hk ht | readNext k' ha hst hk ht =>
    subst ht
    exact .inl hf
  | looked ha hst h => exact .inr (looked_onward h)

end Queue

section Freed

variable {m u t : Machine} {n : ℕ} {K k : List Frame}

/-- The query in flight is freed, and its handlers return: to the code of the
user, or to the loop over the queue, unless none of them looks at it. -/
theorem freed_onward (hw : Working m n K) (c : Option ℕ) (s : ConnState)
    (h : { m with state := s, current_query := c }.queryFree n = .ok u)
    (hr : ret k { u with state := .connected } = .ok t) :
    (t.point = none → t.stack = [] → t.queries = []) ∨
      bare k = true ∧ t.queries = m.queries.tail := by
  obtain ⟨q,qs,hm,-,-,hfree⟩ := inFlight_head { m with state := s, current_query := c } n
    (inFlight_at hw.flight _ rfl rfl rfl rfl)
  cases hfree.symm.trans h
  cases (ret_walked hr).2 with
  | user l k' hk hl ht =>
    subst ht
    by_cases hnil : k' = []
    · refine .inr ⟨?_,(congrArg List.tail hm).symm⟩
      rw [hk, hnil, List.append_nil, bare, List.all_eq_true]
      intro f hf
      obtain ⟨q,rfl⟩ := hl rfl f hf
      rfl
    · exact .inl fun _ h => absurd h hnil
  | next q k' ha hst hk ht | readNext k' ha hst hk ht =>
    subst ht
    exact .inl fun hp => by cases hp
  | looked ha hst h => exact .inl fun hp _ => looked_onward h hp

theorem bare_bottom (ho : Open m K) (hk : Returns n K k) (hb : bare k = true) : K = [] := by
  induction hk with
  | here =>
    cases ho.tail with
    | loop => rfl
    | connected => cases hb
    | read => cases hb
  | handler f hf =>
    simp only [List.mem_cons, List.not_mem_nil, or_false] at hf
    rcases hf with rfl | rfl | rfl | rfl <;> cases hb
  | next k hk ih => exact ih (by simpa [bare] using hb)

/-- None of the handlers looks at the queue. -/
theorem freed_bare (hw : Working m n K) (hk : Returns n K k) (hb : bare k = true) (c : Option ℕ)
    (s : ConnState) :
    ({ m with state := s, current_query := c }.queryFree n).bind
      (fun m => ret k { m with state := .connected }) =
      .ok ({ m with
        state := .connected, current_query := c, queries := m.queries.tail,
        freed := m.freed++[n] }.user []) := by
  have hK := bare_bottom hw.isOpen hk hb
  subst hK
  obtain ⟨q,qs,hm,-,-,hfree⟩ := inFlight_head { m with state := s, current_query := c } n
    (inFlight_at hw.flight _ rfl rfl rfl rfl)
  have hqs : m.queries.tail = qs := congrArg List.tail hm
  have ho := hw.isOpen
  have hret := ret_freed (m := { m with
    state := .connected, current_query := c, queries := qs, freed := m.freed++[n] })
    ⟨ho.alive,ho.tail,ho.linked⟩ rfl n hk
  rw [if_pos hb] at hret
  rw [hfree, hqs]
  exact hret

end Freed

/-- A query is freed and the loop over the queue has been run, or none of the
handlers looks at the queue. -/
def Proceeds (m : Machine) (a : Input) (t : Machine) : Prop :=
  t.freed = m.freed ∨ (t.point = none → t.stack = [] → t.queries = []) ∨
    frees m a = true ∧ bare m.stack = true ∧ t.queries = m.queries.tail

section Calls

variable {m : Machine} {n : ℕ}

theorem calls_inside (q : ℕ) (p : Point) (hc : Calls m p)
    (hp : p ∈ [Point.useResult q,.fetchStart q,.freeStart q,.nextStart q]) :
    ∃ K, Working m q K ∧ Busy m.state ∧ Returns q K m.stack := by
  simp only [List.mem_cons, List.not_mem_nil, or_false] at hp
  cases hc with
  | connect _ _ _ _ _ _ hp' | connectCont _ _ _ _ _ _ hp' | starting _ _ _ _ hp' =>
    subst hp'
    simp at hp
  | inside n K hw hst hk hp' =>
    have hn : n = q := by
      simp only [List.mem_cons, List.not_mem_nil, or_false] at hp'
      rcases hp' with rfl | rfl | rfl | rfl <;> simpa using hp
    subst hn
    exact ⟨K,hw,hst,hk⟩
  | reading n hw hst hk hp' =>
    simp only [List.mem_cons, List.not_mem_nil, or_false] at hp'
    rcases hp' with rfl | rfl | rfl | rfl <;> simp at hp

theorem calls_reading (p : Point) (hc : Calls m p)
    (hp : p ∈ [Point.queryCont,.fetchCont,.freeCont,.nextCont]) : m.stack = [] := by
  simp only [List.mem_cons, List.not_mem_nil, or_false] at hp
  cases hc with
  | connect _ _ _ _ _ _ hp' | connectCont _ _ _ _ _ _ hp' | starting _ _ _ _ hp' =>
    subst hp'
    simp at hp
  | inside n K hw hst hk hp' =>
    simp only [List.mem_cons, List.not_mem_nil, or_false] at hp'
    rcases hp' with rfl | rfl | rfl | rfl <;> simp at hp
  | reading n hw hst hk _ => exact hk

theorem inv_ledger (hi : Inv m) : ∃ n, Ledger m n := by
  cases hi with
  | unconnected n hs | refused n hs | connecting n hs | readRefused n hs | dead n hs
  | idle n _ hs => exact ⟨n,hs.toLedger⟩
  | starting n _ hw | waiting n _ hw | inside n _ hw | reading n hw | callback n _ _ hw
  | readCallback n hw => exact ⟨n,hw.flight.toLedger⟩

variable {x : Query}

theorem ledger_le (h : Ledger m n) (hx : x ∈ m.queries) : n ≤ x.id := by
  have hmem : x.id ∈ m.queries.map Query.id := List.mem_map_of_mem hx
  rw [h.queue, List.mem_range'_1] at hmem
  exact hmem.1

theorem inv_alive (hi : Inv m) (hx : x ∈ m.queries) : x.id ∉ m.freed := by
  obtain ⟨n,hl⟩ := inv_ledger hi
  have hle := ledger_le hl hx
  rw [hl.freed, List.mem_range]
  omega

theorem inv_lookup (hi : Inv m) (hx : x ∈ m.queries) : m.lookup x.id = .ok x := by
  obtain ⟨n,hl⟩ := inv_ledger hi
  have hnodup : (m.queries.map Query.id).Nodup := by
    rw [hl.queue]
    exact List.nodup_range'
  rw [Machine.lookup]
  split
  · next y hy =>
    have hid := List.find?_some hy
    exact congrArg _ (List.inj_on_of_nodup_map hnodup (List.mem_of_find?_eq_some hy) hx
      (of_decide_eq_true hid))
  · next hnone =>
    have hno := List.find?_eq_none.mp hnone x hx
    simp at hno

theorem settled_unstarted (hs : Settled m n) (hx : x ∈ m.queries) : x.id ∉ m.started := by
  intro hstart
  have hlt := hs.past x.id hstart
  have hle := ledger_le hs.toLedger hx
  omega

theorem inFlight_started (h : InFlight m n) (hx : x ∈ m.queries) (hstart : x.id ∈ m.started) :
    x.id = n := by
  obtain ⟨st,hst,-,hlt⟩ := h.started
  have hle := ledger_le h.toLedger hx
  rw [hst, List.mem_append, List.mem_singleton] at hstart
  rcases hstart with hstart | hstart
  · have := hlt x.id hstart
    omega
  · exact hstart

end Calls

section Steps

variable {m t : Machine}

theorem proceeds_of_looked {k : List Frame} {u : Machine} (a : Input) (h : Looked k u t) :
    Proceeds m a t :=
  .inr (.inl fun hp _ => looked_onward h hp)

theorem proceeds_of_stopped {k : List Frame} {u : Machine} (a : Input) (h : Stopped k u t)
    (hf : u.freed = m.freed) : Proceeds m a t :=
  (stopped_onward h hf).imp_right fun hlook => .inl fun hp _ => hlook hp

/-- The handlers of a freed connection return. -/
theorem proceeds_of_lost {k : List Frame} (a : Input) (h : ret k m.connFree = .ok t) :
    Proceeds m a t := by
  obtain ⟨l,hl,-⟩ := (ret_walked h).1.queue
  exact .inr (.inl fun _ _ => (List.nil_eq_append_iff.mp hl).2)

theorem handled_proceeds (hi : Inv m) {p : Point} {a : Answer} {e : Ending}
    (hp : m.point = some p) (h : Handled m.stack m p a e) (hr : e.run m.stack = .ok t) :
    Proceeds m (.answer a) t := by
  cases h with
  | connecting | unpolled | waits | still => exact proceeds_of_stopped _ (ret_walked hr).2 rfl
  | lost => exact proceeds_of_lost _ hr
  | established | again | failed | readFailed =>
    exact proceeds_of_looked _ (handleQuery_walked hr).2
  | connects | asks | tells =>
    cases hr
    exact .inl rfl
  | frees p a q s c hf u h =>
    have hcalls := calls_inside q p (inv_calls hi p hp)
    have hfrees : frees m (.answer a) = true ∧ ∃ K, Working m q K ∧ Busy m.state ∧
        Returns q K m.stack := by
      cases hf with
      | noResult | noMore => exact ⟨by simp [frees, hp],hcalls (by simp)⟩
      | freed q hsingle => exact ⟨by simp [frees, hp, hsingle],hcalls (by simp)⟩
    obtain ⟨hfrees,K,hw,-,-⟩ := hfrees
    exact .inr ((freed_onward hw c s h hr).imp_right fun hb => ⟨hfrees,hb⟩)

theorem reentered_proceeds {f : Frame} {k : List Frame} {e : Ending} (a : Input)
    (h : Reentered k m f e) (hr : e.run k = .ok t) : Proceeds m a t := by
  cases h with
  | unpolled | waits => exact proceeds_of_stopped a (ret_walked hr).2 rfl
  | lost => exact proceeds_of_lost a hr
  | connected | readConnected => exact proceeds_of_looked a (handleQuery_walked hr).2
  | asks =>
    cases hr
    exact .inl rfl

/-- After a step in which a query was freed, the next one is on its way, the
queue is empty, or none of the handlers has looked at it. -/
theorem step_proceeds (hi : Inv m) (a : Input) (h : step m a = .ok t) : Proceeds m a t := by
  cases step_moves a h with
  | connects | connecting | leaves | aborts | idle | reads => exact .inl rfl
  | waits s r w e t _ _ _ hadd => exact proceeds_of_stopped _ (ret_walked hadd).2 rfl
  | looks s r w e t _ _ _ hadd => exact proceeds_of_looked _ (handleQuery_walked hadd).2
  | releases => exact .inr (.inl fun _ _ => rfl)
  | answers p a e t hp he hr => exact handled_proceeds hi hp he hr
  | returns f k e t hp hk he hr => exact reentered_proceeds _ he hr

theorem frees_cases (a : Input) (h : frees m a = true) : ∃ q,
    m.point = some (.useResult q) ∧ a = .answer (.result false) ∨
    m.point = some (.nextStart q) ∧ a = .answer (.next .none) ∨
    m.point = some (.freeStart q) ∧ a = .answer .done ∧ m.multi = false := by
  cases a with
  | answer a =>
    simp only [frees] at h
    split at h
    · next q hp => exact ⟨q,.inl ⟨hp,rfl⟩⟩
    · next q hp => exact ⟨q,.inr (.inl ⟨hp,rfl⟩)⟩
    · next q hp => exact ⟨q,.inr (.inr ⟨hp,rfl,by simpa using h⟩)⟩
    · cases h
  | connectAsync _ | queryAsync _ _ _ _ | disconnectAsync _ | abortAsync _ | read
  | callbackReturns => cases h

theorem step_answer (p : Point) (hp : m.point = some p) (a : Answer) :
    step m (.answer a) = answered m.stack m a p := by
  rw [step, hp]

theorem step_bare (hi : Inv m) (a : Input) (h : step m a = .ok t) (hf : frees m a = true)
    (hb : bare m.stack = true) : ∃ n K, Working m n K ∧ t.point = none ∧ t.stack = [] ∧
      t.queries = m.queries.tail ∧ t.freed = m.freed++[n] := by
  have hfreed : ∀ q p, m.point = some p →
      p ∈ [Point.useResult q,.fetchStart q,.freeStart q,.nextStart q] → ∀ c s,
      ({ m with state := s, current_query := c }.queryFree q).bind
        (fun u => ret m.stack { u with state := .connected }) = .ok t →
      ∃ n K, Working m n K ∧ t.point = none ∧ t.stack = [] ∧ t.queries = m.queries.tail ∧
        t.freed = m.freed++[n] := by
    intro q p hp hq c s h
    obtain ⟨K,hw,-,hk⟩ := calls_inside q p (inv_calls hi p hp) hq
    cases (freed_bare hw hk hb c s).symm.trans h
    exact ⟨q,K,hw,rfl,rfl,rfl,rfl⟩
  obtain ⟨q,⟨hp,rfl⟩ | ⟨hp,rfl⟩ | ⟨hp,rfl,hsingle⟩⟩ := frees_cases a hf
  · rw [step_answer _ hp] at h
    exact hfreed q _ hp (by simp) m.current_query m.state h
  · rw [step_answer _ hp] at h
    exact hfreed q _ hp (by simp) none .nextResulted h
  · rw [step_answer _ hp, answered, freeStarted, if_neg (by simp [hsingle])] at h
    exact hfreed q _ hp (by simp) none .resultFreed h

end Steps

end Duda.MariadbOnward
