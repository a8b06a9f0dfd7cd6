import Mathlib.Tactic

/-!
# Parsers that are fed piece by piece

One step looks at the input that is there. It waits for more, takes some symbols
and goes on in a new state, or stops for good. Where more input never changes
what a step does, it makes no difference how the input is cut. A parser may
rely on no more than a limited amount of input being there.
-/

set_option autoImplicit false

namespace Duda.IncrementalParser

variable {σ α β ε : Type*}

inductive Outcome (σ β ε : Type*) where
  | wait
  | take (n : ℕ) (s : σ) (out : List β)
  | stop (e : ε)

/-- The parser ended with `e`, or it waits in a state for what follows some
symbols. -/
inductive Rest (σ α ε : Type*) where
  | stopped (e : ε)
  | waiting (s : σ) (xs : List α)

variable (step : σ → List α → Outcome σ β ε) (limit : ℕ)

/-- More input, within the limit, does not change a step. -/
structure Steady : Prop where
  inside : ∀ s xs n t out, step s xs = .take n t out → 0 < n ∧ n ≤ xs.length
  take : ∀ s xs ys n t out, (xs++ys).length < limit → step s xs = .take n t out →
    step s (xs++ys) = .take n t out
  stop : ∀ s xs ys e, (xs++ys).length < limit → step s xs = .stop e →
    step s (xs++ys) = .stop e

/-- All steps that the input allows, and what they put out. -/
def exhaust (s : σ) (xs : List α) : List β × Rest σ α ε :=
  match step s xs with
  | .wait => ([],.waiting s xs)
  | .stop e => ([],.stopped e)
  | .take n t out =>
    if 0 < n ∧ n ≤ xs.length then
      (out++(exhaust t (xs.drop n)).1,(exhaust t (xs.drop n)).2)
    else (out,.waiting t xs)
termination_by xs.length
decreasing_by all_goals rw [List.length_drop]; omega

/-- One more piece of the input. -/
def feed (r : List β × Rest σ α ε) (xs : List α) : List β × Rest σ α ε :=
  match r.2 with
  | .stopped e => (r.1,.stopped e)
  | .waiting s ys => (r.1++(exhaust step s (ys++xs)).1,(exhaust step s (ys++xs)).2)

theorem feed_waiting (out : List β) (s : σ) (ys xs : List α) :
    feed step (out,.waiting s ys) xs =
      (out++(exhaust step s (ys++xs)).1,(exhaust step s (ys++xs)).2) := rfl

theorem exhaust_wait {s : σ} {xs : List α} (h : step s xs = .wait) :
    exhaust step s xs = ([],.waiting s xs) := by
  rw [exhaust, h]

theorem exhaust_stop {s : σ} {xs : List α} {e : ε} (h : step s xs = .stop e) :
    exhaust step s xs = ([],.stopped e) := by
  rw [exhaust, h]

variable {step limit}

theorem exhaust_take (hs : Steady step limit) {s t : σ} {xs : List α} {n : ℕ} {out : List β}
    (h : step s xs = .take n t out) :
    exhaust step s xs =
      (out++(exhaust step t (xs.drop n)).1,(exhaust step t (xs.drop n)).2) := by
  rw [exhaust, h]
  exact if_pos (hs.inside s xs n t out h)

/-- The append law: the input may be cut anywhere. -/
theorem exhaust_append (hs : Steady step limit) (s : σ) (xs ys : List α)
    (hl : (xs++ys).length < limit) :
    exhaust step s (xs++ys) = feed step (exhaust step s xs) ys := by
  induction s, xs using exhaust.induct step with
  | case1 s xs h =>
    rw [exhaust_wait step h]
    rfl
  | case2 s xs e h =>
    rw [exhaust_stop step h, exhaust_stop step (hs.stop s xs ys e hl h)]
    rfl
  | case3 s xs n t out h hin ih =>
    have hrest : (xs.drop n++ys).length < limit := by
      rw [List.length_append, List.length_drop]
      rw [List.length_append] at hl
      omega
    rw [exhaust_take hs h, exhaust_take hs (hs.take s xs ys n t out hl h),
      List.drop_append_of_le_length hin.2, ih hrest]
    simp only [feed]
    cases (exhaust step t (xs.drop n)).2 with
    | stopped e => rfl
    | waiting u zs => simp only [List.append_assoc]
  | case4 s xs n t out h hout =>
    exact absurd (hs.inside s xs n t out h) hout

end Duda.IncrementalParser
