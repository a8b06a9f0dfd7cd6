import Duda.MariadbMoves

/-!
# The histories of a connection

The log of the callbacks and the list of the freed queries only grow. Of the
callbacks of a query, a step makes those that the answer to its call of the
library asks for, and no others: the loop over the queue, the release of the
connection and the handlers that return make none.
-/

set_option autoImplicit false

namespace Duda.MariadbHistory
open Duda.Mariadb Duda.MariadbMoves Duda.Runs

/-- The query to which a callback belongs. -/
def about : Event → Option ℕ
  | .result q | .row q | .last q => some q
  | .connect _ | .disconnect => none

/-- The histories have grown, the log by the callbacks `l` and then by none of a
query; an aborted query stays in the queue until it is freed. -/
structure Grows (l : List Event) (m t : Machine) : Prop where
  log : ∃ l', t.log = m.log++(l++l') ∧ ∀ ev ∈ l', about ev = none
  freed : m.freed <+: t.freed
  queue : ∀ x ∈ m.queries, x.abort = true → x ∈ t.queries ∨ x.id ∈ t.freed

section Relations

variable {m u t : Machine}

theorem queue_same (hqueries : t.queries = m.queries) :
    ∀ x ∈ m.queries, x.abort = true → x ∈ t.queries ∨ x.id ∈ t.freed :=
  fun _ hx _ => .inl (hqueries ▸ hx)

theorem grows_same (hlog : t.log = m.log) (hfreed : t.freed = m.freed)
    (hqueries : t.queries = m.queries) : Grows [] m t :=
  ⟨⟨[],by simp [hlog],by simp⟩,hfreed ▸ List.prefix_refl _,queue_same hqueries⟩

theorem grows_told (ev : Event) (hlog : t.log = m.log++[ev]) (hfreed : t.freed = m.freed)
    (hqueries : t.queries = m.queries) : Grows [ev] m t :=
  ⟨⟨[],by simp [hlog],by simp⟩,hfreed ▸ List.prefix_refl _,queue_same hqueries⟩

theorem grows_noted (ev : Event) (hev : about ev = none) (hlog : t.log = m.log++[ev])
    (hfreed : t.freed = m.freed) (hqueries : t.queries = m.queries) : Grows [] m t :=
  ⟨⟨[ev],hlog,by simpa using hev⟩,hfreed ▸ List.prefix_refl _,queue_same hqueries⟩

theorem grows_freed (is : List ℕ) (hlog : t.log = m.log) (hfreed : t.freed = m.freed++is)
    (hqueries : ∀ x ∈ m.queries, x ∈ t.queries ∨ x.id ∈ is) : Grows [] m t := by
  refine ⟨⟨[],by simp [hlog],by simp⟩,hfreed ▸ List.prefix_append _ _,fun x hx _ => ?_⟩
  rw [hfreed]
  exact (hqueries x hx).imp_right (List.mem_append_right _)

theorem grows_after (h' : Grows [] u t) (h : Grows [] m u) : Grows [] m t := by
  -- only the first part of a step makes callbacks of queries, so the lists add up
  obtain ⟨l₁,hl₁,hnone₁⟩ := h.log
  obtain ⟨l₂,hl₂,hnone₂⟩ := h'.log
  refine ⟨⟨l₁++l₂,by simp [hl₂, hl₁],?_⟩,h.freed.trans h'.freed,?_⟩
  · intro ev hev
    rcases List.mem_append.mp hev with hev | hev
    · exact hnone₁ ev hev
    · exact hnone₂ ev hev
  · intro x hx habort
    rcases h.queue x hx habort with hx | hx
    · exact h'.queue x hx habort
    · exact .inr (h'.freed.subset hx)

theorem walked_grows (h : Walked m t) : Grows [] m t := by
  obtain ⟨l,hlog,hl⟩ := h.log
  obtain ⟨qs,hqueries,hfreed,-⟩ := h.queue
  refine ⟨⟨l,hlog,fun ev hev => ?_⟩,hfreed ▸ List.prefix_append _ _,fun x hx _ => ?_⟩
  · rw [hl ev hev]
    rfl
  · rw [hqueries] at hx
    rw [hfreed]
    exact (List.mem_append.mp hx).symm.imp_right
      fun hx => List.mem_append_right _ (List.mem_map_of_mem hx)

theorem ret_grows {k : List Frame} (h : ret k m = .ok t) : Grows [] m t :=
  walked_grows (ret_walked h).1

theorem handleQuery_grows {k : List Frame} (h : handleQuery k (ret k) m = .ok t) : Grows [] m t :=
  walked_grows (handleQuery_walked h).1

theorem queryFree_grows (q : ℕ) (s s' : ConnState) (c : Option ℕ)
    (h : { m with state := s, current_query := c }.queryFree q = .ok u) :
    Grows [] m { u with state := s' } := by
  obtain ⟨x,-,rfl⟩ := map_ok h
  refine grows_freed [q] rfl rfl (fun y hy => ?_)
  by_cases hq : y.id = q
  · exact .inr (List.mem_singleton.mpr hq)
  · exact .inl (List.mem_filter.mpr ⟨hy,by simpa using hq⟩)

theorem connFree_grows (m : Machine) : Grows [] m m.connFree :=
  grows_freed (m.queries.map Query.id) rfl rfl (fun _ hx => .inr (List.mem_map_of_mem hx))

theorem queryFree_freed {q : ℕ} (h : m.queryFree q = .ok u) : q ∈ u.freed := by
  obtain ⟨x,-,rfl⟩ := map_ok h
  exact List.mem_append_right _ (List.mem_singleton.mpr rfl)

theorem mem_freed (q : ℕ) (k : List Frame)
    (h : (m.queryFree q).bind (fun u => ret k { u with state := .connected }) = .ok t) :
    q ∈ t.freed := by
  obtain ⟨u,hu,hr⟩ := bind_ok h
  have hq := queryFree_freed hu
  exact (ret_grows hr).freed.subset hq

end Relations

/-- The callback `ev` of the query `q`, if it has it. -/
def told (m : Machine) (q : ℕ) (ev : Event) (has : Query → Bool) : List Event :=
  match m.lookup q with
  | .ok x => if has x then [ev] else []
  | .error _ => []

def rowTellings (m : Machine) (q : ℕ) : Answer → List Event
  | .row => told m q (.row q) Query.row_cb
  | .noRow false => told m q (.last q) Query.end_cb
  | _ => []

def tellings (m : Machine) : Input → List Event
  | .answer a =>
    match m.point with
    | some (.useResult q) =>
      if a = .result true then told m q (.result q) fun x => !x.abort && x.result_cb else []
    | some (.fetchStart q) => rowTellings m q a
    | some .fetchCont => m.current_query.elim [] fun q => rowTellings m q a
    | _ => []
  | _ => []

/-- The callback of a query with which a handler ends. -/
def telling : Ending → List Event
  | .tells _ (.connect _) _ | .tells _ .disconnect _ => []
  | .tells _ ev _ => [ev]
  | .returns _ | .looks _ | .asks _ _ _ => []

section Steps

variable {m t : Machine}

theorem currentQuery_told (m : Machine) (x : Query) (h : m.currentQuery = .ok x) :
    m.current_query = some x.id ∧ m.lookup x.id = .ok x := by
  simp only [Machine.currentQuery] at h
  split at h
  · next q hq =>
    have hid : x.id = q := by
      simp only [Machine.lookup] at h
      split at h
      · next y hy =>
        cases h
        have hid := List.find?_some hy
        exact of_decide_eq_true hid
      · cases h
    rw [hid]
    exact ⟨hq,h⟩
  · cases h

theorem tellings_blocked : tellings m (.answer .wouldBlock) = [] := by
  rw [tellings]
  split
  · rfl
  · rfl
  · cases m.current_query <;> rfl
  · rfl

/-- The callbacks that an answer asks for are those with which its handler ends. -/
theorem handled_tellings {k : List Frame} {p : Point} {a : Answer} {e : Ending}
    (hp : m.point = some p) (h : Handled k m p a e) : tellings m (.answer a) = telling e := by
  cases h with
  | connecting | waits | still | again => exact tellings_blocked
  | lost | unpolled | failed | readFailed => simp [tellings, hp, telling]
  | connects p a ok s f h => cases h <;> simp [tellings, hp, telling]
  | established p hc l o => rcases hc with rfl | rfl <;> simp [tellings, hp, telling]
  | frees p a q s c hf u h => cases hf <;> simp [tellings, hp, telling]
  | asks p a s p' k' h =>
    cases h with
    | aborted q i x hx ha => simp [tellings, hp, telling, told, hx, ha]
    | rows q i x hx ha hr => simp [tellings, hp, telling, told, hx, hr]
    | row q x hx hr => simp [tellings, hp, telling, rowTellings, told, hx, hr]
    | last q i x hx failed he =>
      cases failed with
      | false => simp [tellings, hp, telling, rowTellings, told, hx, he]
      | true => simp [tellings, hp, telling, rowTellings]
    | readRow x hx hr =>
      obtain ⟨hq,hlook⟩ := currentQuery_told m x hx
      simp [tellings, hp, telling, hq, rowTellings, told, hlook, hr]
    | readLast i x hx failed he =>
      obtain ⟨hq,hlook⟩ := currentQuery_told m x hx
      cases failed with
      | false => simp [tellings, hp, telling, hq, rowTellings, told, hlook, he]
      | true => simp [tellings, hp, telling, hq, rowTellings]
    | queried | readQueried | freed | readFreed | more | error | readMore | readError =>
      simp [tellings, hp, telling]
  | tells p a s ev f h =>
    cases h with
    | result q x hx ha hr => simp [tellings, hp, telling, told, hx, ha, hr]
    | row q x hx hr => simp [tellings, hp, telling, rowTellings, told, hx, hr]
    | last q x hx he => simp [tellings, hp, telling, rowTellings, told, hx, he]
    | readRow x hx hr =>
      obtain ⟨hq,hlook⟩ := currentQuery_told m x hx
      simp [tellings, hp, telling, hq, rowTellings, told, hlook, hr]
    | readLast x hx he =>
      obtain ⟨hq,hlook⟩ := currentQuery_told m x hx
      simp [tellings, hp, telling, hq, rowTellings, told, hlook, he]

theorem handled_grows {k : List Frame} {p : Point} {a : Answer} {e : Ending}
    (h : Handled k m p a e) (hr : e.run k = .ok t) : Grows (telling e) m t := by
  cases h with
  | connecting | unpolled | waits | still =>
    exact grows_after (ret_grows hr) (grows_same rfl rfl rfl)
  | established | again => exact grows_after (handleQuery_grows hr) (grows_same rfl rfl rfl)
  | lost => exact grows_after (ret_grows hr) (connFree_grows m)
  | failed q u h =>
    exact grows_after (handleQuery_grows hr) (queryFree_grows q m.state u.state m.current_query h)
  | readFailed x hx u h =>
    exact grows_after (handleQuery_grows hr)
      (queryFree_grows x.id m.state .connected m.current_query h)
  | frees p a q s c hf u h =>
    exact grows_after (ret_grows hr) (queryFree_grows q s .connected c h)
  | connects p a ok s f h =>
    cases hr
    exact grows_noted (.connect ok) rfl rfl rfl rfl
  | asks p a s p' k' h =>
    cases hr
    exact grows_same rfl rfl rfl
  | tells p a s ev f h =>
    cases hr
    cases h <;> exact grows_told _ rfl rfl rfl

theorem reentered_grows {k : List Frame} {f : Frame} {e : Ending} (h : Reentered k m f e)
    (hr : e.run k = .ok t) : Grows [] m t := by
  cases h with
  | unpolled | waits => exact grows_after (ret_grows hr) (grows_same rfl rfl rfl)
  | connected | readConnected => exact grows_after (handleQuery_grows hr) (grows_same rfl rfl rfl)
  | lost => exact grows_after (ret_grows hr) (connFree_grows m)
  | asks ha f p k' h =>
    cases hr
    exact grows_same rfl rfl rfl

/-- What a step adds to the histories. -/
theorem step_grows (a : Input) (t : Machine) (h : step m a = .ok t) : Grows (tellings m a) m t := by
  have hadd : ∀ s r w e, Grows [] m (enqueued m s r w e) := fun s r w e =>
    grows_freed [] rfl (List.append_nil _).symm (fun x hx => .inl (List.mem_append_left _ hx))
  cases step_moves a h with
  | connects | connecting | leaves | idle | reads => exact grows_same rfl rfl rfl
  | waits s r w e t hp ha hst h => exact grows_after (ret_grows h) (hadd s r w e)
  | looks s r w e t hp ha hst h => exact grows_after (handleQuery_grows h) (hadd s r w e)
  | releases cb l hp ha hst hl =>
    refine ⟨⟨l,rfl,fun ev hev => ?_⟩,List.prefix_append _ _,fun x hx _ => ?_⟩
    · rw [hl ev hev]
      rfl
    · exact .inr (List.mem_append_right _ (List.mem_map_of_mem hx))
  | aborts q hp ha =>
    refine ⟨⟨[],by simp [queryAbort, tellings],by simp⟩,List.prefix_refl _,fun x hx habort => ?_⟩
    apply Or.inl
    refine List.mem_map.mpr ⟨x,hx,?_⟩
    rw [← habort, ite_self]
  | answers p a e t hp he hr =>
    rw [handled_tellings hp he]
    exact handled_grows he hr
  | returns f k e t hp hk he hr => exact reentered_grows he hr

end Steps

end Duda.MariadbHistory
