import Duda.Scheduler

/-!
# Where control continues

The place that a transfer of control reaches is fixed by the state before it.
It is the one saved in the context that the transfer names, unless the caller
transfers control to itself.
-/

set_option autoImplicit false

namespace Duda.ControlPlace
open Duda.Scheduler Duda.Runs

variable {κ : Type}

def savedPlace : Context κ → Option κ
  | .unset => none
  | .entry _ => none
  | .saved _ k => some k

def partyPlace (s : Sched κ) : Party → Option κ
  | .main => savedPlace s.main
  | .dthread o => (s.heap o).bind (fun d => savedPlace d.context)

/-- A resume of an empty slot returns at once, and so does a resume of the
slot that `running_id` names. A first resume starts the function. -/
def resumePlace (s : Sched κ) (id : ℤ) (k : κ) : Option κ :=
  match s.dt id.toNat with
  | none => some k
  | some o =>
    if runningDt s = some o then some k
    else
      match s.heap o with
      | none => none
      | some d => if d.status = .suspend then savedPlace d.context else none

def returnPlace (s : Sched κ) : Option κ :=
  match s.cur with
  | .main => none
  | .dthread o =>
    match s.heap o with
    | none => none
    | some d => d.uc_link.bind (partyPlace s)

theorem setcontext_inv (s t : Sched κ) (p : Party) (n : Option κ)
    (h : setcontext s p = .ok (t,n)) : (∃ who, t = { s with cur := who }) ∧ n = partyPlace s p := by
  cases p with
  | main =>
    cases hm : s.main <;> simp only [setcontext, hm] at h <;> cases h <;>
      exact ⟨⟨_,rfl⟩,by simp [partyPlace, savedPlace, hm]⟩
  | dthread o =>
    cases hd : s.heap o with
    | none => simp [setcontext, hd] at h
    | some d =>
      cases hm : d.context <;> simp only [setcontext, hd, hm] at h <;> cases h <;>
        exact ⟨⟨_,rfl⟩,by simp [partyPlace, savedPlace, hd, hm]⟩

theorem setcontext_place (s t : Sched κ) (p : Party) (n : Option κ)
    (h : setcontext s p = .ok (t,n)) : n = partyPlace s p :=
  (setcontext_inv s t p n h).2

theorem modifyDt_inv (s t : Sched κ) (o : ℕ) (f : Dthread κ → Dthread κ)
    (h : modifyDt s o f = .ok t) :
    ∃ d, s.heap o = some d ∧ t = { s with heap := Function.update s.heap o (some (f d)) } := by
  cases hd : s.heap o with
  | none => simp [modifyDt, hd] at h
  | some d =>
    simp only [modifyDt, hd, Except.ok.injEq] at h
    exact ⟨d,rfl,h.symm⟩

/-- An update of one dthread is seen by a party that it leaves alone, or when
it keeps the context. -/
theorem partyPlace_modify (s t : Sched κ) (o : ℕ) (f : Dthread κ → Dthread κ) (q : Party)
    (h : modifyDt s o f = .ok t) (hq : q ≠ .dthread o ∨ ∀ d, (f d).context = d.context) :
    partyPlace t q = partyPlace s q := by
  obtain ⟨d,hd,rfl⟩ := modifyDt_inv s t o f h
  cases q with
  | main => rfl
  | dthread x =>
    by_cases hx : x = o
    · subst hx
      have hf : ∀ d, (f d).context = d.context := hq.resolve_left (fun hn => hn rfl)
      simp [partyPlace, hd, hf]
    · simp [partyPlace, hx]

theorem partyPlace_entry (s t : Sched κ) (o : ℕ) (f : Dthread κ → Dthread κ)
    (hf : ∀ d, (f d).context = .entry o) (h : modifyDt s o f = .ok t) :
    partyPlace t (.dthread o) = none := by
  obtain ⟨d,hd,rfl⟩ := modifyDt_inv s t o f h
  simp [partyPlace, hf, savedPlace]

theorem swapcontext_self (s t : Sched κ) (o : ℕ) (k : κ) (n : Option κ)
    (h : swapcontext s (.dthread o) k (.dthread o) = .ok (t,n)) : n = some k := by
  obtain ⟨u,hu,h⟩ := bind_ok h
  obtain ⟨d,hd,rfl⟩ := modifyDt_inv s u o _ hu
  rw [setcontext_place _ t _ n h]
  simp [partyPlace, savedPlace]

theorem swapcontext_other (s t : Sched κ) (p q : Party) (k : κ) (n : Option κ) (hne : q ≠ p)
    (h : swapcontext s p k q = .ok (t,n)) : n = partyPlace s q := by
  cases p with
  | main =>
    rw [setcontext_place { s with main := .saved s.cur k } t q n h]
    cases q with
    | main => exact absurd rfl hne
    | dthread o => rfl
  | dthread o =>
    obtain ⟨u,hu,h⟩ := bind_ok h
    rw [setcontext_place u t q n h]
    exact partyPlace_modify s u o _ q hu (.inl hne)

/-- A switch between dthreads goes on at the target's place, or in a switch to
itself at the place that was just saved. -/
theorem swapcontext_dthread (s t : Sched κ) (r o : ℕ) (k : κ) (n : Option κ)
    (h : swapcontext s (.dthread r) k (.dthread o) = .ok (t,n)) :
    n = if r = o then some k else partyPlace s (.dthread o) := by
  by_cases ho : r = o
  · subst ho
    rw [if_pos rfl]
    exact swapcontext_self s t r k n h
  · rw [if_neg ho]
    exact swapcontext_other s t _ _ k n (by simp [Ne.symm ho]) h

theorem resumeReady_place (s t : Sched κ) (id : ℤ) (o : ℕ) (k : κ) (n : Option κ)
    (h : resumeReady s id o k = .ok (t,n)) :
    n = if runningDt s = some o then some k else none := by
  cases hr : runningDt s with
  | none =>
    simp only [resumeReady, hr] at h
    obtain ⟨u,_,h⟩ := bind_ok h
    obtain ⟨v,hv,h⟩ := bind_ok h
    rw [swapcontext_other v t .main _ k n (by simp) h]
    simpa using partyPlace_entry _ v o _ (fun d => rfl) hv
  | some r =>
    simp only [resumeReady, hr] at h
    obtain ⟨u,_,h⟩ := bind_ok h
    obtain ⟨v,_,h⟩ := bind_ok h
    obtain ⟨x,hx,h⟩ := bind_ok h
    rw [swapcontext_dthread x t r o k n h, partyPlace_entry _ x o _ (fun d => rfl) hx]
    simp only [Option.some.injEq]

theorem resumeSuspended_place (s t : Sched κ) (id : ℤ) (o : ℕ) (k : κ) (n : Option κ)
    (h : resumeSuspended s id o k = .ok (t,n)) :
    n = if runningDt s = some o then some k else partyPlace s (.dthread o) := by
  obtain ⟨u,hu,h⟩ := bind_ok h
  have hp := partyPlace_modify _ u o _ (.dthread o) hu (.inr (fun d => rfl))
  cases hr : runningDt s with
  | none =>
    simp only [hr] at h
    rw [swapcontext_other u t .main _ k n (by simp) h, hp]
    rfl
  | some r =>
    simp only [hr] at h
    obtain ⟨v,hv,h⟩ := bind_ok h
    rw [swapcontext_dthread v t r o k n h]
    simp only [Option.some.injEq]
    by_cases ho : r = o
    · rw [if_pos ho, if_pos ho]
    · rw [if_neg ho, if_neg ho, partyPlace_modify u v r _ _ hv (.inl (by simp [Ne.symm ho])), hp]
      rfl

theorem resume_place (s t : Sched κ) (id : ℤ) (k : κ) (n : Option κ)
    (h : dthreadResume s id k = .ok (t,n)) : n = resumePlace s id k := by
  simp only [dthreadResume] at h
  split_ifs at h with hid
  cases ho : s.dt id.toNat with
  | none =>
    simp only [ho] at h
    cases h
    simp [resumePlace, ho]
  | some o =>
    cases hd : s.heap o with
    | none => simp [ho, hd] at h
    | some d =>
      cases hs : d.status with
      | ready =>
        simp only [ho, hd, hs] at h
        simpa [resumePlace, ho, hd, hs] using resumeReady_place s t id o k n h
      | suspend =>
        simp only [ho, hd, hs] at h
        simpa [resumePlace, ho, hd, hs, partyPlace] using resumeSuspended_place s t id o k n h
      | dead => simp [ho, hd, hs] at h
      | running => simp [ho, hd, hs] at h

theorem yield_place (s t : Sched κ) (k : κ) (n : Option κ)
    (h : dthreadYield s k = .ok (t,n)) : n = savedPlace s.main := by
  simp only [dthreadYield] at h
  split_ifs at h with hr
  cases ho : s.dt s.running_id.toNat with
  | none => simp [ho] at h
  | some o =>
    simp only [ho] at h
    obtain ⟨u,hu,h⟩ := bind_ok h
    rw [swapcontext_other u t _ _ k n (by simp) h,
      partyPlace_modify _ u o _ .main hu (.inr (fun d => rfl))]
    rfl

theorem return_place (s t : Sched κ) (n : Option κ) (h : entryReturn s = .ok (t,n)) :
    n = returnPlace s := by
  cases hc : s.cur with
  | main => simp [entryReturn, hc] at h
  | dthread o =>
    cases hd : s.heap o with
    | none => simp [entryReturn, hc, hd] at h
    | some d =>
      cases hl : d.uc_link with
      | none => simp [entryReturn, hc, hd, hl] at h
      | some p =>
        simp only [entryReturn, hc, hd, hl] at h
        rw [setcontext_place _ t p n h]
        cases p with
        | main => simp [returnPlace, hc, hd, hl, partyPlace]
        | dthread x =>
          by_cases hx : x = o
          · subst hx
            simp [returnPlace, hc, hd, hl, partyPlace]
          · simp [returnPlace, hc, hd, hl, partyPlace, hx]

/-- Whatever a return finds at its link, it leaves the parent's slot current
and changes one record. -/
theorem return_shape (s t : Sched κ) (o : ℕ) (d : Dthread κ) (n : Option κ)
    (hc : s.cur = .dthread o) (hd : s.heap o = some d) (h : entryReturn s = .ok (t,n)) :
    t.running_id = d.parent_id ∧ t.next = s.next ∧ t.dt = s.dt ∧
      t.heap = Function.update s.heap o (some { d with status := .dead }) := by
  simp only [entryReturn, hc, hd] at h
  cases hl : d.uc_link with
  | none => simp [hl] at h
  | some link =>
    simp only [hl] at h
    obtain ⟨who,rfl⟩ := (setcontext_inv _ _ _ _ h).1
    exact ⟨rfl,rfl,rfl,rfl⟩

end Duda.ControlPlace
