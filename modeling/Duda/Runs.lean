import Mathlib.Tactic

/-!
# Runs of a partial step function

A step yields the next state or stops with a fault. A run is a finite list of
inputs. `Along` states a property of every step that a run really takes: a
fault ends the run, and nothing is claimed about inputs after it. The guard of
a step and the property wanted of it are both such step properties, so the
exactness rule compares them pointwise under an invariant.
-/

set_option autoImplicit false

namespace Duda.Runs

variable {σ α ε : Type*}

def run (step : σ → α → Except ε σ) : List α → σ → Except ε σ
  | [], s => .ok s
  | a::as, s =>
    match step s a with
    | .ok t => run step as t
    | .error e => .error e

/-- Every step of the run satisfies `Q`, which sees the state before the step,
the input and the outcome. -/
def Along (step : σ → α → Except ε σ) (Q : σ → α → Except ε σ → Prop) :
    List α → σ → Prop
  | [], _ => True
  | a::as, s => Q s a (step s a) ∧ ∀ t, step s a = .ok t → Along step Q as t

/-- The state property `P`, as a property of the step that reaches the state. -/
def After (P : σ → Prop) : σ → α → Except ε σ → Prop :=
  fun _ _ r => ∀ t, r = .ok t → P t

/-- The condition `g` on the state before a step, required of the steps that
succeed. -/
def Taken (g : σ → α → Prop) : σ → α → Except ε σ → Prop :=
  fun s a r => ∀ t, r = .ok t → g s a

/-- The outcome is a state with the property `P`. -/
def Yields (r : Except ε σ) (P : σ → Prop) : Prop :=
  match r with
  | .ok t => P t
  | .error _ => False

instance (r : Except ε σ) (P : σ → Prop) [DecidablePred P] : Decidable (Yields r P) :=
  match r with
  | .ok t => inferInstanceAs (Decidable (P t))
  | .error _ => isFalse id

instance (g : σ → α → Prop) [∀ s a, Decidable (g s a)] (s : σ) (a : α) (r : Except ε σ) :
    Decidable (Taken g s a r) :=
  match r with
  | .ok _ => decidable_of_iff (g s a) ⟨fun h _ _ => h,fun h => h _ rfl⟩
  | .error _ => isTrue fun _ h => nomatch h

theorem bind_ok {β γ : Type*} {r : Except ε β} {f : β → Except ε γ} {c : γ}
    (h : r.bind f = .ok c) : ∃ b, r = .ok b ∧ f b = .ok c := by
  cases r with
  | error e => cases h
  | ok b => exact ⟨b,rfl,h⟩

theorem bind_error {β γ : Type*} {r : Except ε β} {f : β → Except ε γ} {e : ε}
    (h : r.bind f = .error e) : r = .error e ∨ ∃ b, r = .ok b ∧ f b = .error e := by
  cases r with
  | error x => exact .inl (by cases h; rfl)
  | ok b => exact .inr ⟨b,rfl,h⟩

theorem map_ok {β γ : Type*} {r : Except ε β} {f : β → γ} {c : γ}
    (h : r.map f = .ok c) : ∃ b, r = .ok b ∧ f b = c := by
  cases r with
  | error e => cases h
  | ok b => exact ⟨b,rfl,Except.ok.inj h⟩

theorem map_error {β γ : Type*} {r : Except ε β} {f : β → γ} {e : ε}
    (h : r.map f = .error e) : r = .error e := by
  cases r with
  | error x => exact congrArg Except.error (Except.error.inj h)
  | ok b => cases h

theorem guard_ok {β : Type*} {p : Prop} [Decidable p] {r : Except ε β} {e : ε} {b : β}
    (h : (if p then r else .error e) = .ok b) : p ∧ r = .ok b := by
  split at h
  · next hp => exact ⟨hp,h⟩
  · cases h

theorem map_ok_iff {β γ : Type*} {r : Except ε β} {f : β → γ} :
    (∃ c, r.map f = .ok c) ↔ ∃ b, r = .ok b := by
  cases r with
  | error e => simp [Except.map]
  | ok b => simp [Except.map]

variable {step : σ → α → Except ε σ}

theorem along_cons_iff (Q : σ → α → Except ε σ → Prop) (a : α) (as : List α) (s : σ) :
    Along step Q (a::as) s ↔
      match step s a with
      | .ok t => Q s a (.ok t) ∧ Along step Q as t
      | .error e => Q s a (.error e) := by
  rw [Along]
  cases step s a with
  | ok t => simp
  | error e => simp

instance decidableAlong (Q : σ → α → Except ε σ → Prop) [∀ s a r, Decidable (Q s a r)] :
    (as : List α) → (s : σ) → Decidable (Along step Q as s)
  | [], _ => isTrue trivial
  | a::as, s =>
    @decidable_of_iff' _ _ (along_cons_iff Q a as s)
      (match step s a with
        | .ok t => @instDecidableAnd _ _ _ (decidableAlong Q as t)
        | .error _ => inferInstance)

theorem run_append (as bs : List α) (s : σ) :
    run step (as++bs) s =
      match run step as s with
      | .ok t => run step bs t
      | .error e => .error e := by
  induction as generalizing s with
  | nil => rfl
  | cons a as ih =>
    simp only [List.cons_append, run]
    cases step s a with
    | error e => rfl
    | ok t => exact ih t

theorem run_append_ok {as : List α} {s t : σ} (h : run step as s = .ok t) (bs : List α) :
    run step (as++bs) s = run step bs t := by
  rw [run_append, h]

theorem run_cons_ok {a : α} {s t : σ} (h : step s a = .ok t) (as : List α) :
    run step (a::as) s = run step as t := by
  rw [run, h]

theorem along_append (Q : σ → α → Except ε σ → Prop) (as bs : List α) (s : σ) :
    Along step Q (as++bs) s ↔
      Along step Q as s ∧ ∀ t, run step as s = .ok t → Along step Q bs t := by
  induction as generalizing s with
  | nil => simp [Along, run]
  | cons a as ih =>
    simp only [List.cons_append, Along, run]
    cases hs : step s a with
    | error e => simp
    | ok u => simp [ih, and_assoc]

theorem along_and (Q R : σ → α → Except ε σ → Prop) (as : List α) (s : σ) :
    Along step (fun s a r => Q s a r ∧ R s a r) as s ↔ Along step Q as s ∧ Along step R as s := by
  induction as generalizing s with
  | nil => simp [Along]
  | cons a as ih =>
    simp only [Along, ih]
    constructor
    · intro h
      exact ⟨⟨h.1.1,fun t ht => (h.2 t ht).1⟩,h.1.2,fun t ht => (h.2 t ht).2⟩
    · intro h
      exact ⟨⟨h.1.1,h.2.1⟩,fun t ht => ⟨h.1.2 t ht,h.2.2 t ht⟩⟩

theorem run_cons_inv {a : α} {as : List α} {s u : σ} (h : run step (a::as) s = .ok u) :
    ∃ t, step s a = .ok t ∧ run step as t = .ok u := by
  simp only [run] at h
  split at h
  · next t ht => exact ⟨t,ht,h⟩
  · cases h

/-- The invariant rule: along a guarded run an invariant that every guarded
step keeps yields the step property it implies. -/
theorem along_of_invariant {I : σ → Prop} {G Q : σ → α → Except ε σ → Prop}
    (keep : ∀ s a t, I s → G s a (.ok t) → step s a = .ok t → I t)
    (here : ∀ s a, I s → G s a (step s a) → Q s a (step s a))
    (as : List α) (s : σ) (hi : I s) (hg : Along step G as s) : Along step Q as s := by
  induction as generalizing s with
  | nil => trivial
  | cons a as ih =>
    refine ⟨here s a hi hg.1, fun t ht => ?_⟩
    exact ih t (keep s a t hi (ht ▸ hg.1) ht) (hg.2 t ht)

/-- The invariant rule without a guard. -/
theorem along_of_kept {I : σ → Prop} {Q : σ → α → Except ε σ → Prop}
    (keep : ∀ s a t, I s → step s a = .ok t → I t)
    (here : ∀ s a, I s → Q s a (step s a))
    (as : List α) (s : σ) (hi : I s) : Along step Q as s := by
  induction as generalizing s with
  | nil => trivial
  | cons a as ih => exact ⟨here s a hi,fun t ht => ih t (keep s a t hi ht)⟩

/-- The exactness rule: where the invariant makes guard and property agree
step by step, a run has the property exactly when its steps meet the guard. -/
theorem along_iff {I : σ → Prop} {G Q : σ → α → Except ε σ → Prop}
    (keep : ∀ s a t, I s → G s a (.ok t) → step s a = .ok t → I t)
    (here : ∀ s a, I s → (Q s a (step s a) ↔ G s a (step s a)))
    (as : List α) (s : σ) (hi : I s) : Along step Q as s ↔ Along step G as s := by
  induction as generalizing s with
  | nil => exact Iff.rfl
  | cons a as ih =>
    constructor
    · intro h
      have hg := (here s a hi).mp h.1
      exact ⟨hg, fun t ht => (ih t (keep s a t hi (ht ▸ hg) ht)).mp (h.2 t ht)⟩
    · intro h
      refine ⟨(here s a hi).mpr h.1, fun t ht => ?_⟩
      exact (ih t (keep s a t hi (ht ▸ h.1) ht)).mpr (h.2 t ht)

/-- The run rule: the state that a guarded run reaches has the invariant. -/
theorem run_invariant {I : σ → Prop} {G : σ → α → Except ε σ → Prop}
    (keep : ∀ s a t, I s → G s a (.ok t) → step s a = .ok t → I t)
    (as : List α) (s t : σ) (hi : I s) (hg : Along step G as s)
    (h : run step as s = .ok t) : I t := by
  induction as generalizing s with
  | nil => exact (Except.ok.inj h) ▸ hi
  | cons a as ih =>
    obtain ⟨u,hu,hr⟩ := run_cons_inv h
    exact ih u (keep s a u hi (hu ▸ hg.1) hu) (hg.2 u hu) hr

theorem run_kept {I : σ → Prop} (keep : ∀ s a t, I s → step s a = .ok t → I t)
    (as : List α) (s t : σ) (hi : I s) (h : run step as s = .ok t) : I t := by
  induction as generalizing s with
  | nil => exact (Except.ok.inj h) ▸ hi
  | cons a as ih =>
    obtain ⟨u,hu,hr⟩ := run_cons_inv h
    exact ih u (keep s a u hi hu) hr

/-- The history rule: an invariant that also speaks of the inputs so far. -/
theorem run_history {I : List α → σ → Prop}
    (keep : ∀ h s a t, I h s → step s a = .ok t → I (h++[a]) t)
    (as h : List α) (s t : σ) (hi : I h s) (hr : run step as s = .ok t) : I (h++as) t := by
  induction as generalizing h s with
  | nil =>
    rw [List.append_nil]
    exact (Except.ok.inj hr) ▸ hi
  | cons a as ih =>
    obtain ⟨u,hu,hrun⟩ := run_cons_inv hr
    have hrest := ih (h++[a]) u (keep h s a u hi hu) hrun
    rwa [List.append_assoc, List.singleton_append] at hrest

/-- A run that stops has reached a state at which a step stops. -/
theorem run_error_inv {as : List α} {s : σ} {e : ε} (h : run step as s = .error e) :
    ∃ bs a cs t, as = bs++a::cs ∧ run step bs s = .ok t ∧ step t a = .error e := by
  induction as generalizing s with
  | nil => cases h
  | cons a as ih =>
    simp only [run] at h
    split at h
    · next t ht =>
      obtain ⟨bs,b,cs,u,rfl,hrun,hstop⟩ := ih h
      exact ⟨a::bs,b,cs,u,rfl,by rw [run_cons_ok ht, hrun],hstop⟩
    · next ht =>
      cases h
      exact ⟨[],a,as,s,rfl,rfl,ht⟩

end Duda.Runs
