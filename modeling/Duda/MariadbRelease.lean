import Duda.MariadbConnect

/-!
# The end of a connection

`disconnect_async` releases a connection at once if its state is `CONNECTED`,
and otherwise when its queries have been handled. This module settles when, in
a run without connection errors, a connection is released with an empty queue,
every query has been passed to the server or skipped before, and no handler uses
the connection afterwards.
-/

set_option autoImplicit false

namespace Duda.MariadbRelease
open Duda.Mariadb Duda.MariadbQueue Duda.MariadbFrame Duda.MariadbMoves Duda.Runs

/-- A step that uses no released connection and no list of which it is not a
member; that releases the connection of the user, if at all, with an empty
queue; and that frees no query but those that were passed to the server, are
aborted or have no statement. -/
structure Finishes (m : Machine) (a : Input) (r : Except Fault Machine) : Prop where
  unused : ∀ f, r = .error f → f ≠ .useAfterFree ∧ f ≠ .wildList
  empty : ∀ cb, a = .disconnectAsync cb → m.point = none → m.alive = true →
    m.state = .connected → m.queries = []
  served : ∀ t, r = .ok t → ∀ i ∈ t.freed, i ∈ m.freed ∨ i ∈ t.started ∨ Skipped (noted m a) i

/-- No attempt to connect fails, and so no callback of a refused connection
runs. -/
def Unfailing (m : Machine) : Input → Prop
  | .answer a => m.point = some .connectStart ∨ m.point = some .connectCont → a ≠ .failed
  | .connectAsync _ | .callbackReturns => Frame.refusedCb ∉ m.stack
  | _ => True

instance (m : Machine) (a : Input) : Decidable (Unfailing m a) :=
  match a with
  | .answer _ => inferInstanceAs (Decidable (_ → _))
  | .connectAsync _ | .callbackReturns => inferInstanceAs (Decidable (_ ∉ _))
  | .queryAsync .. | .disconnectAsync _ | .abortAsync _ | .read =>
    inferInstanceAs (Decidable True)

/-- The query that an answer of the library ends without a look at the queue. -/
def ended (m : Machine) (a : Answer) : Option ℕ :=
  match m.point, a with
  | some (.useResult q), .result false => some q
  | some (.freeStart q), .done => if m.multi then none else some q
  | some (.nextStart q), .next .none => some q
  | _, _ => none

/-- Whether the handlers on the stack go on with the queue, now or when the
callback in which they run returns. -/
def resumes : List Frame → Bool
  | [] => false
  | .nextLoop _::k => resumes k
  | _::_ => true

/-- The end of the connection is not asked for in the connect callback, and no
query is enqueued there when it was asked for before; after a deferred
connection the callback leaves no query on the way; and a query that ends in the
event loop, after a deferred `mysql_free_result`, is the last one. -/
def Patient (m : Machine) : Input → Prop
  | .queryAsync .. => m.disconnect_on_finish = true → ¬InConnectCb m
  | .disconnectAsync _ => ¬InConnectCb m
  | .answer a => ∀ q ∈ ended m a, resumes m.stack = true ∨ ∀ x ∈ m.queries, x.id = q
  | .callbackReturns => m.stack.head? = some .readConnectedCb → m.state = .connected
  | .connectAsync _ | .abortAsync _ | .read => True

instance (m : Machine) (a : Input) : Decidable (Patient m a) :=
  match a with
  | .queryAsync .. => inferInstanceAs (Decidable (_ → _))
  | .disconnectAsync _ => inferInstanceAs (Decidable (¬_))
  | .answer a => inferInstanceAs (Decidable (∀ q ∈ ended m a, _))
  | .callbackReturns => inferInstanceAs (Decidable (_ → _))
  | .connectAsync _ | .abortAsync _ | .read => inferInstanceAs (Decidable True)

/-- In the event loop an established connection without a query on the way has
an empty queue. -/
def Idle (m : Machine) : Prop :=
  m.point = none → m.stack = [] → m.alive = true → m.state = .connected → m.queries = []

section Idles

variable {k : List Frame} {m t : Machine} {a : Answer} {p : Point} {e : Ending}

theorem resumes_loops (h : ∀ f ∈ k, ∃ q, f = Frame.nextLoop q) : resumes k = false := by
  induction k with
  | nil => rfl
  | cons f k ih =>
    obtain ⟨q,rfl⟩ := h f List.mem_cons_self
    exact ih (fun f hf => h f (List.mem_cons_of_mem _ hf))

theorem looked_idle (h : Looked k m t) : Idle t := by
  cases h with
  | started q hp hk ha =>
    intro hnone
    cases hp.symm.trans hnone
  | emptied hp hk hq => exact fun _ _ _ _ => hq

theorem stopped_idle (h : Stopped k m t)
    (hq : m.state = .connected → resumes k = true ∨ m.queries = []) : Idle t := by
  cases h with
  | user l k' hk hl ht =>
    subst ht
    intro _ hnil _ hst
    obtain rfl : k' = [] := hnil
    rcases hq hst with hr | hq
    · rw [hk, List.append_nil, resumes_loops (hl hst)] at hr
      cases hr
    · exact hq
  | next q k' ha hst hk ht | readNext k' ha hst hk ht =>
    subst ht
    intro hnone
    cases hnone
  | looked ha hst h => exact looked_idle h

theorem handled_idle (hp : m.point = some p)
    (hf : p = .connectStart ∨ p = .connectCont → a ≠ .failed)
    (hst : continues p = true → m.state ≠ .connected)
    (he : ∀ q ∈ ended m a, resumes m.stack = true ∨ ∀ x ∈ m.queries, x.id = q)
    (h : Handled m.stack m p a e) (hr : e.run m.stack = .ok t) : Idle t := by
  cases h with
  | lost => exact absurd rfl (hf (.inl rfl))
  | unpolled => exact absurd rfl (hf (.inr rfl))
  | connecting => exact stopped_idle (ret_walked hr).2 (fun h => by cases h)
  | waits p s hs =>
    refine stopped_idle (ret_walked hr).2 (fun h => ?_)
    obtain rfl : s = .connected := h
    cases p <;> cases hs
  | still p hc hn => exact stopped_idle (ret_walked hr).2 (fun h => absurd h (hst hc))
  | established | again | failed | readFailed => exact looked_idle (handleQuery_walked hr).2
  | frees p a q s c hfree u h =>
    obtain ⟨x,-,rfl⟩ := map_ok h
    refine stopped_idle (ret_walked hr).2 (fun _ => (he q ?_).imp_right (fun hall => ?_))
    · cases hfree with
      | noResult | noMore => simp [ended, hp]
      | freed q hsingle => simp [ended, hp, hsingle]
    · exact List.filter_eq_nil_iff.mpr (fun x hx => by simp [hall x hx])
  | asks =>
    cases hr
    intro hnone
    cases hnone
  | connects | tells =>
    cases hr
    intro _ hnil
    cases hnil

theorem reentered_idle {f : Frame} (hf : f = .readRefusedCb → m.state ≠ .connected)
    (h : Reentered k m f e) (hr : e.run k = .ok t) : Idle t := by
  cases h with
  | unpolled => exact stopped_idle (ret_walked hr).2 (fun h => absurd h (hf rfl))
  | lost => exact stopped_idle (ret_walked hr).2 (fun _ => .inr rfl)
  | waits ha hst => exact stopped_idle (ret_walked hr).2 (fun h => absurd h hst)
  | connected | readConnected => exact looked_idle (handleQuery_walked hr).2
  | asks =>
    cases hr
    intro hnone
    cases hnone

end Idles

section Inputs

variable {m : Machine} (hi : Inv m)

include hi

/-- The library continues an operation only of a connection that waits. -/
theorem continues_waiting (p : Point) (hp : m.point = some p) (hc : continues p = true) :
    m.state ≠ .connected := by
  cases inv_calls hi p hp with
  | connect _ _ _ _ hst | connectCont _ _ _ _ hst =>
    rw [hst]
    decide
  | starting n K hw hk hq =>
    subst hq
    cases hc
  | inside _ _ _ hst | reading _ _ hst => exact hst.2.2

theorem lost_started (a : Answer) : ∀ i ∈ lost m (.answer a), i ∈ m.started := by
  have hflight : ∀ n, InFlight m n → ∀ i ∈ [n], i ∈ m.started := by
    intro n hf i hi
    obtain ⟨st,hst,-⟩ := hf.started
    rw [hst]
    exact List.mem_append_right st hi
  intro i hmem
  cases hp : m.point with
  | none =>
    rw [lost, hp] at hmem
    cases hmem
  | some p =>
    rw [lost, hp] at hmem
    cases inv_calls hi p hp with
    | connect _ _ _ _ _ _ hq | connectCont _ _ _ _ _ _ hq =>
      subst hq
      cases hmem
    | starting n K hw hk hq =>
      subst hq
      exact hflight n hw.flight i hmem
    | inside n K hw hst hk hq =>
      simp only [List.mem_cons, List.not_mem_nil, or_false] at hq
      rcases hq with rfl | rfl | rfl | rfl
      · exact hflight n hw.flight i hmem
      · cases hmem
      · exact hflight n hw.flight i hmem
      · exact hflight n hw.flight i hmem
    | reading n hw hst hk hq =>
      simp only [List.mem_cons, List.not_mem_nil, or_false] at hq
      rcases hq with rfl | rfl | rfl | rfl
      · have hcur : i ∈ m.current_query.toList := hmem
        rw [hw.current] at hcur
        exact hflight n hw.flight i hcur
      · cases hmem
      · cases hmem
      · cases hmem

/-- After a refused connection the state is `CONNECTING`. -/
theorem readRefused_state (hr : Frame.readRefusedCb ∈ m.stack) : m.state ≠ .connected := by
  have htail : ∀ K, Tail K → m.stack ≠ K := by
    intro K hK hk
    rw [hk] at hr
    cases hK with
    | loop => cases hr
    | connected => simp at hr
    | read => simp at hr
  cases hi with
  | unconnected _ _ _ _ hst | refused _ _ _ _ hst | connecting _ _ _ _ hst
  | readRefused _ _ _ _ hst =>
    rw [hst]
    decide
  | dead n hs ha hpoll hk => exact absurd hk (htail [] .loop)
  | idle n K hs ho hst hk => exact absurd hk (htail K ho.tail)
  | starting n K hw hk => exact absurd hk (htail K hw.isOpen.tail)
  | waiting _ _ _ hst | inside _ _ _ hst | reading _ _ hst | callback _ _ _ _ hst
  | readCallback _ _ hst => exact hst.2.2

theorem disconnect_empty (hidle : Idle m) (hp : m.point = none) (ha : m.alive = true)
    (hst : m.state = .connected) (hcb : ¬InConnectCb m) : m.queries = [] := by
  obtain ⟨n,hs,ho⟩ := connected_idle hi hp ha hst
  have hk : m.stack = [] := by
    by_contra hne
    exact hcb (tail_connectCb m.stack ho.tail hne)
  exact hidle hp hk ha hst

theorem step_idle (hidle : Idle m) (a : Input) (hu : Unfailing m a) (hp : Patient m a) (t : Machine)
    (h : step m a = .ok t) : Idle t := by
  cases step_moves a h with
  | connects | reads =>
    intro hnone
    cases hnone
  | connecting | idle => exact hidle
  | waits s r w e t _ _ hst hadd => exact stopped_idle (ret_walked hadd).2 (fun h => absurd h hst)
  | looks s r w e t _ _ _ hadd => exact looked_idle (handleQuery_walked hadd).2
  | leaves cb _ _ hst => exact fun _ _ _ h => absurd h hst
  | releases =>
    intro _ _ hdead
    cases hdead
  | aborts =>
    intro hnone hk ha hst
    exact List.map_eq_nil_iff.mpr (hidle hnone hk ha hst)
  | answers p a e t hpt he hr =>
    refine handled_idle hpt ?_ (continues_waiting hi p hpt) hp he hr
    rintro (rfl | rfl)
    · exact hu (.inl hpt)
    · exact hu (.inr hpt)
  | returns f k e t hpt hk he hr =>
    refine reentered_idle (fun hf => readRefused_state hi ?_) he hr
    rw [hk, hf]
    exact List.mem_cons_self

omit hi in
/-- Either the guard of the queue holds, or `mariadb_on_read` follows a null
pointer. -/
theorem patient_orderly (a : Input) (hu : Unfailing m a) (hp : Patient m a) :
    Orderly m a ∨ step m a = .error .nullPointer := by
  cases a with
  | connectAsync cb => exact .inl hu
  | queryAsync s r w e => exact .inl hp
  | disconnectAsync cb => exact .inl hp
  | abortAsync q => exact .inl trivial
  | read => exact .inl trivial
  | callbackReturns => exact .inl hp
  | answer a =>
    by_cases hfree : m.point = some .freeCont ∧ a = .done ∧ m.multi = false
    · obtain ⟨hpt,rfl,hm⟩ := hfree
      rw [step, hpt]
      exact .inr (if_neg (by simp [hm]))
    by_cases hnext : m.point = some .nextCont ∧ a = .next .none
    · obtain ⟨hpt,rfl⟩ := hnext
      rw [step, hpt]
      exact .inr rfl
    · refine .inl ⟨?_,?_⟩
      · intro hpt ha
        by_contra hm
        exact hfree ⟨hpt,ha,by simpa using hm⟩
      · intro hpt ha
        exact hnext ⟨hpt,ha⟩

omit hi in
theorem served_after {u t : Machine} (ht : Tame [] u t) (hf : u.freed = m.freed)
    (hq : u.queries = m.queries) :
    ∀ i ∈ t.freed, i ∈ m.freed ∨ i ∈ t.started ∨ Skipped m i := by
  intro i hmem
  rcases ht.freed i hmem with h | h | ⟨q,hmem,hid⟩ | h
  · exact .inl (hf ▸ h)
  · exact .inr (.inl h)
  · exact .inr (.inr ⟨q,hq ▸ hmem,hid⟩)
  · cases h

omit hi in
theorem connect_served {k : List Frame} {p : Point} {a : Answer} {e : Ending} {t : Machine}
    (hp : p = .connectStart ∨ p = .connectCont) (hf : a ≠ .failed) (h : Handled k m p a e)
    (hr : e.run k = .ok t) : ∀ i ∈ t.freed, i ∈ m.freed ∨ i ∈ t.started ∨ Skipped m i := by
  cases h with
  | connecting | still => exact served_after (walked_tame (ret_walked hr).1) rfl rfl
  | established | again => exact served_after (walked_tame (handleQuery_walked hr).1) rfl rfl
  | lost | unpolled => exact absurd rfl hf
  | connects =>
    cases hr
    exact fun i hmem => .inl hmem
  | waits p s hs => rcases hp with rfl | rfl <;> cases hs
  | failed | readFailed => simp at hp
  | frees p a q s c h => cases h <;> simp at hp
  | asks p a s p' k' h => cases h <;> simp at hp
  | tells p a s ev f h => cases h <;> simp at hp

/-- What a step may take off the queue was passed to the server. -/
theorem step_lost (hidle : Idle m) (a : Input) (hu : Unfailing m a) (hp : Patient m a)
    (t : Machine) (h : step m a = .ok t) : ∀ i ∈ lost m a, i ∈ m.started := by
  cases a with
  | answer a => exact lost_started hi a
  | callbackReturns =>
    rw [lost, if_neg hu]
    simp
  | disconnectAsync cb =>
    rw [step] at h
    obtain ⟨hg,h⟩ := guard_ok h
    rw [lost]
    split
    · next hst =>
      rw [disconnect_empty hi hidle hg.1 hg.2 hst hp]
      simp
    · simp
  | connectAsync _ | queryAsync _ _ _ _ | abortAsync _ | read => simp [lost]

omit hi in
theorem noted_history (a : Input) :
    (noted m a).freed = m.freed ∧ (noted m a).started = m.started := by
  cases a with
  | connectAsync _ | queryAsync _ _ _ _ | disconnectAsync _ | abortAsync _ | read | answer _
  | callbackReturns => exact ⟨rfl,rfl⟩

/-- Every query that a step frees was passed to the server, or is skipped. -/
theorem step_served (hidle : Idle m) (a : Input) (hu : Unfailing m a) (hp : Patient m a)
    (t : Machine) (h : step m a = .ok t) :
    ∀ i ∈ t.freed, i ∈ m.freed ∨ i ∈ t.started ∨ Skipped (noted m a) i := by
  by_cases hconn : m.point = some .connectStart ∨ m.point = some .connectCont
  · obtain ⟨p,hpt,hpc⟩ : ∃ p, m.point = some p ∧ (p = .connectStart ∨ p = .connectCont) :=
      hconn.elim (fun h => ⟨_,h,.inl rfl⟩) (fun h => ⟨_,h,.inr rfl⟩)
    obtain ⟨x,rfl,hx⟩ := called_answer hpt a t h
    obtain ⟨e,he,hr⟩ := answered_handled p x hx
    exact connect_served hpc (hu hconn) he hr
  · have htame := step_tame a (fun h => hconn (.inl h)) (fun h => hconn (.inr h)) h
    obtain ⟨hfreed,hstarted⟩ := noted_history (m := m) a
    intro i hmem
    rcases htame.freed i hmem with hi' | hi' | hi' | hi'
    · exact .inl (hfreed ▸ hi')
    · exact .inr (.inl hi')
    · exact .inr (.inr hi')
    · refine .inr (.inl (htame.started ?_))
      rw [hstarted]
      exact step_lost hi hidle a hu hp t h i hi'

end Inputs

/-- What holds between two steps. -/
structure Ordered (m : Machine) : Prop where
  inv : Inv m
  ready : Ready m
  idle : Idle m

theorem step_ordered {m : Machine} (h : Ordered m) (a : Input) (hu : Unfailing m a)
    (hp : Patient m a) (t : Machine) (hs : step m a = .ok t) : Ordered t := by
  refine ⟨?_,step_ready h.ready a t hs,step_idle h.inv h.idle a hu hp t hs⟩
  rcases patient_orderly a hu hp with hg | hnull
  · have hsound := step_sound h.inv a hg
    rw [hs] at hsound
    exact hsound
  · cases hs.symm.trans hnull

theorem step_finishes {m : Machine} (h : Ordered m) (a : Input) (hu : Unfailing m a)
    (hp : Patient m a) : Finishes m a (step m a) := by
  refine ⟨?_,?_,step_served h.inv h.idle a hu hp⟩
  · intro f hf
    rcases patient_orderly a hu hp with hg | hnull
    · have hsound := step_sound h.inv a hg
      rw [hf] at hsound
      cases hsound
      decide
    · cases hf.symm.trans hnull
      decide
  · rintro cb rfl hpt ha hst
    exact disconnect_empty h.inv h.idle hpt ha hst hp

theorem start_ordered (multi : Bool) :
    Ordered (connCreate multi) ∧ Ordered (MariadbConnect.pooled multi) := by
  have hs : ∀ m : Machine, m.freed = [] → m.queries = [] → m.next = 0 → m.started = [] →
      Settled m 0 := by
    intro m hf hq hn hst
    refine ⟨⟨hf,?_,Nat.zero_le _⟩,hst ▸ List.Pairwise.nil,?_⟩
    · rw [hq, hn]
      rfl
    · rw [hst]
      simp
  refine ⟨⟨?_,.user rfl (.nested _ trivial),?_⟩,⟨?_,.user rfl (.nested _ trivial),?_⟩⟩
  · exact .unconnected 0 (hs _ rfl rfl rfl rfl) rfl rfl rfl rfl (.inl rfl)
  · intro _ _ _ h
    cases h
  · exact .idle 0 [] (hs _ rfl rfl rfl rfl) ⟨rfl,.loop,fun _ => rfl⟩ rfl rfl rfl
  · exact fun _ _ _ _ => rfl

/-- In every run without connection errors whose steps are patient, a connection
is released with an empty queue, after every query was passed to the server or
skipped, and is not used again. -/
theorem connection_finishes (multi : Bool) (m : Machine)
    (hm : m = connCreate multi ∨ m = MariadbConnect.pooled multi) (inputs : List Input)
    (h : Along step (fun m a _ => Unfailing m a ∧ Patient m a) inputs m) :
    Along step Finishes inputs m := by
  apply along_of_invariant (I := Ordered) (G := fun m a _ => Unfailing m a ∧ Patient m a)
  · intro s a t ho hg ht
    exact step_ordered ho a hg.1 hg.2 t ht
  · intro s a ho hg
    exact step_finishes ho a hg.1 hg.2
  · rcases hm with rfl | rfl
    · exact (start_ordered multi).1
    · exact (start_ordered multi).2
  · exact h

/-- A query is enqueued before the connection is established, and the end is
asked for while it is with the server. -/
theorem late_disconnect_finishes : Along step Finishes
    [.queryAsync true false false false,.connectAsync true,.answer .wouldBlock,.read,.answer .done,
      .callbackReturns,.answer .wouldBlock,.disconnectAsync true,.read,.answer .failed]
    (connCreate false) :=
  connection_finishes false _ (.inl rfl) _ (by decide)

/-- The end is asked for in the connect callback: the query that was enqueued
before is freed without having been passed to the server, and the handler uses
the freed connection when the callback returns. -/
theorem callback_disconnect_uses_freed :
    ∃ m, run step [.queryAsync true false false false,.connectAsync true,.answer .wouldBlock,.read,
        .answer .done,.disconnectAsync true] (connCreate false) = .ok m ∧
      m.alive = false ∧ m.started = [] ∧ m.freed = [0] ∧
      step m .callbackReturns = .error .useAfterFree :=
  ⟨_,rfl,rfl,rfl,rfl,rfl⟩

end Duda.MariadbRelease
