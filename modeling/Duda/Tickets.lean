import Mathlib.Data.List.Basic
import Mathlib.Tactic

/-!
# A counter under a mutex

Each thread enters the critical section once, takes the value of the counter as
its ticket, increments the counter and leaves. Under every interleaving that
the mutex permits, the ticket of a thread is its place in the order of entry.
-/

set_option autoImplicit false

namespace Duda.Tickets

variable {τ : Type*}

inductive Phase where
  | outside
  | entered
  | taken (n : ℕ)
  | counted (n : ℕ)
  | left (n : ℕ)
  deriving DecidableEq, Repr

structure State (τ : Type*) where
  count : ℕ
  holder : Option τ
  phase : τ → Phase

inductive Action (τ : Type*) where
  | lock (i : τ)
  | take (i : τ)
  | count (i : τ)
  | unlock (i : τ)
  deriving DecidableEq, Repr

/-- The thread moves to the phase `p`. -/
def State.move [DecidableEq τ] (s : State τ) (i : τ) (p : Phase) : State τ :=
  { s with phase := Function.update s.phase i p }

def step [DecidableEq τ] (s : State τ) : Action τ → Option (State τ)
  | .lock i =>
    match s.phase i, s.holder with
    | .outside, none => some { s.move i .entered with holder := some i }
    | _, _ => none
  | .take i =>
    match s.phase i with
    | .entered => some (s.move i (.taken s.count))
    | _ => none
  | .count i =>
    match s.phase i with
    | .taken n => some { s.move i (.counted n) with count := s.count+1 }
    | _ => none
  | .unlock i =>
    match s.phase i with
    | .counted n => some { s.move i (.left n) with holder := none }
    | _ => none

def initial : State τ := ⟨0,none,fun _ => .outside⟩

def ticket : Phase → Option ℕ
  | .outside => none
  | .entered => none
  | .taken n => some n
  | .counted n => some n
  | .left n => some n

def actor : Action τ → τ
  | .lock i => i
  | .take i => i
  | .count i => i
  | .unlock i => i

/-- The thread that an action brings into the critical section. -/
def entry : Action τ → Option τ
  | .lock i => some i
  | _ => none

/-- What the phase of the thread in the critical section says about the counter. -/
def Pending (order : List τ) (count : ℕ) (i : τ) : Phase → Prop
  | .entered => order.length = count+1 ∧ order[count]? = some i
  | .taken n => n = count ∧ order.length = count+1
  | .counted _ => count = order.length
  | _ => False

/-- The threads have entered in this order, and the tickets follow it. -/
structure Ordered (order : List τ) (s : State τ) : Prop where
  nodup : order.Nodup
  mem : ∀ i, i ∈ order ↔ s.phase i ≠ .outside
  place : ∀ i n, ticket (s.phase i) = some n → order[n]? = some i
  out : ∀ i, s.holder ≠ some i → s.phase i = .outside ∨ ∃ n, s.phase i = .left n
  free : s.holder = none → s.count = order.length
  held : ∀ i, s.holder = some i → Pending order s.count i (s.phase i)

theorem initial_ordered : Ordered [] (initial : State τ) where
  nodup := List.nodup_nil
  mem i := by simp [initial]
  place i n h := by cases h
  out i _ := .inl rfl
  free _ := rfl
  held i h := by cases h

section Rules

variable {order : List τ} {s t : State τ}

/-- The ticket is the place in the order of entry, also when more threads enter. -/
theorem ticket_place [DecidableEq τ] (h : Ordered order s) {i : τ} {n : ℕ}
    (hn : ticket (s.phase i) = some n) (more : List τ) : (order++more).idxOf i = n := by
  have hplace := h.place i n hn
  rw [List.idxOf_append_of_mem (List.mem_of_getElem? hplace)]
  obtain ⟨hlt,rfl⟩ := List.getElem?_eq_some_iff.mp hplace
  exact h.nodup.idxOf_getElem n hlt

theorem ticket_unique (h : Ordered order s) {i j : τ} {n : ℕ}
    (hi : ticket (s.phase i) = some n) (hj : ticket (s.phase j) = some n) : i = j :=
  Option.some.inj ((h.place i n hi).symm.trans (h.place j n hj))

theorem holder_of (h : Ordered order s) {i : τ} (hout : s.phase i ≠ .outside)
    (hleft : ∀ n, s.phase i ≠ .left n) : s.holder = some i := by
  by_contra hh
  rcases h.out i hh with hp | ⟨n,hp⟩
  · exact hout hp
  · exact hleft n hp

variable [DecidableEq τ]

/-- All that an action can do. -/
theorem step_cases {a : Action τ} (hs : step s a = some t) :
    (∃ i, a = .lock i ∧ s.phase i = .outside ∧ s.holder = none ∧
      t = { s.move i .entered with holder := some i }) ∨
    (∃ i, a = .take i ∧ s.phase i = .entered ∧ t = s.move i (.taken s.count)) ∨
    (∃ i n, a = .count i ∧ s.phase i = .taken n ∧
      t = { s.move i (.counted n) with count := s.count+1 }) ∨
    ∃ i n, a = .unlock i ∧ s.phase i = .counted n ∧
      t = { s.move i (.left n) with holder := none } := by
  cases a with
  | lock i =>
    simp only [step] at hs
    split at hs
    · next hp hh =>
      cases hs
      exact .inl ⟨i,rfl,hp,hh,rfl⟩
    · cases hs
  | take i =>
    simp only [step] at hs
    split at hs
    · next hp =>
      cases hs
      exact .inr (.inl ⟨i,rfl,hp,rfl⟩)
    · cases hs
  | count i =>
    simp only [step] at hs
    split at hs
    · next n hp =>
      cases hs
      exact .inr (.inr (.inl ⟨i,n,rfl,hp,rfl⟩))
    · cases hs
  | unlock i =>
    simp only [step] at hs
    split at hs
    · next n hp =>
      cases hs
      exact .inr (.inr (.inr ⟨i,n,rfl,hp,rfl⟩))
    · cases hs

theorem lock_ordered (h : Ordered order s) {i : τ} (hp : s.phase i = .outside)
    (hh : s.holder = none) :
    Ordered (order++[i]) { s.move i .entered with holder := some i } := by
  have hi : i ∉ order := by simp [h.mem, hp]
  have hcount := h.free hh
  constructor
  · exact h.nodup.append (List.nodup_singleton i) (by simpa using hi)
  · intro j
    rcases eq_or_ne j i with rfl | hne
    · simp [State.move]
    · simp [State.move, hne, h.mem]
  · intro j n hn
    rcases eq_or_ne j i with rfl | hne
    · simp [State.move, ticket] at hn
    · simp only [State.move, Function.update_of_ne hne] at hn
      have hplace := h.place j n hn
      rwa [List.getElem?_append_left (List.getElem?_eq_some_iff.mp hplace).1]
  · intro j hj
    have hne : j ≠ i := fun e => hj (by rw [e])
    simpa [State.move, hne] using h.out j (by simp [hh])
  · intro hnone
    cases hnone
  · intro j hj
    cases hj
    simp [State.move, Pending, hcount]

theorem move_place (h : Ordered order s) {i : τ} {n : ℕ} {p : Phase} (hn : order[n]? = some i)
    (hp : ticket p = some n) :
    (∀ j, j ∈ order ↔ (s.move i p).phase j ≠ .outside) ∧
      ∀ j m, ticket ((s.move i p).phase j) = some m → order[m]? = some j := by
  have hout : p ≠ .outside := by
    rintro rfl
    cases hp
  constructor
  · intro j
    rcases eq_or_ne j i with rfl | hne
    · simp [State.move, hout, List.mem_of_getElem? hn]
    · simp [State.move, hne, h.mem]
  · intro j m hm
    rcases eq_or_ne j i with rfl | hne
    · simp only [State.move, Function.update_self, hp, Option.some.injEq] at hm
      rw [← hm, hn]
    · simp only [State.move, Function.update_of_ne hne] at hm
      exact h.place j m hm

theorem move_ordered (h : Ordered order s) {i : τ} (hh : s.holder = some i) {n : ℕ} {p : Phase}
    (count : ℕ) (hn : order[n]? = some i) (hp : ticket p = some n)
    (hpend : Pending order count i p) : Ordered order { s.move i p with count := count } := by
  obtain ⟨hmem,hplace⟩ := move_place h hn hp
  refine ⟨h.nodup,hmem,hplace,?_,?_,?_⟩
  · intro j hj
    have hne : j ≠ i := fun e => hj (by rw [e]; exact hh)
    simpa [State.move, hne] using h.out j hj
  · intro hnone
    simp [State.move, hh] at hnone
  · intro j hj
    have hj' : j = i := Option.some.inj (hj.symm.trans hh)
    simpa [State.move, hj'] using hpend

theorem take_ordered (h : Ordered order s) {i : τ} (hp : s.phase i = .entered) :
    Ordered order (s.move i (.taken s.count)) := by
  have hh := holder_of h (i := i) (by simp [hp]) (by simp [hp])
  have hpend := h.held i hh
  rw [hp] at hpend
  exact move_ordered h hh s.count hpend.2 rfl ⟨rfl,hpend.1⟩

theorem count_ordered (h : Ordered order s) {i : τ} {n : ℕ} (hp : s.phase i = .taken n) :
    Ordered order { s.move i (.counted n) with count := s.count+1 } := by
  have hh := holder_of h (i := i) (by simp [hp]) (by simp [hp])
  have hpend := h.held i hh
  rw [hp] at hpend
  exact move_ordered h hh (s.count+1) (h.place i n (by rw [hp]; rfl)) rfl hpend.2.symm

theorem unlock_ordered (h : Ordered order s) {i : τ} {n : ℕ} (hp : s.phase i = .counted n) :
    Ordered order { s.move i (.left n) with holder := none } := by
  have hh := holder_of h (i := i) (by simp [hp]) (by simp [hp])
  have hpend := h.held i hh
  rw [hp] at hpend
  obtain ⟨hmem,hplace⟩ := move_place (p := .left n) h (h.place i n (by rw [hp]; rfl)) rfl
  refine ⟨h.nodup,hmem,hplace,?_,fun _ => hpend,?_⟩
  · intro j _
    rcases eq_or_ne j i with rfl | hne
    · exact .inr ⟨n,by simp [State.move]⟩
    · simpa [State.move, hne] using h.out j (by simp [hh, Ne.symm hne])
  · intro j hj
    cases hj

/-- The step rule: an action keeps the order, with the thread that enters at its end. -/
theorem step_ordered (h : Ordered order s) {a : Action τ} (hs : step s a = some t) :
    Ordered (order++(entry a).toList) t := by
  obtain ⟨i,rfl,hp,hh,rfl⟩ | ⟨i,rfl,hp,rfl⟩ | ⟨i,n,rfl,hp,rfl⟩ | ⟨i,n,rfl,hp,rfl⟩ := step_cases hs
  · exact lock_ordered h hp hh
  · simpa [entry] using take_ordered h hp
  · simpa [entry] using count_ordered h hp
  · simpa [entry] using unlock_ordered h hp

/-- A ticket is kept. -/
theorem step_ticket {a : Action τ} (hs : step s a = some t) {i : τ} {n : ℕ}
    (hn : ticket (s.phase i) = some n) : ticket (t.phase i) = some n := by
  obtain ⟨j,rfl,hp,_,rfl⟩ | ⟨j,rfl,hp,rfl⟩ | ⟨j,m,rfl,hp,rfl⟩ | ⟨j,m,rfl,hp,rfl⟩ := step_cases hs
  all_goals
    rcases eq_or_ne i j with rfl | hne
    · rw [hp] at hn
      simp_all [State.move, ticket]
    · simpa [State.move, hne] using hn

end Rules

end Duda.Tickets
