import Duda.Runs
import Mathlib.Data.List.Nodup

/-!
# The registry of event handlers

A worker keeps its handlers in one list. A handler is added at the end, looked
up from the front and deleted one at a time. The purpose is a map from
descriptors to the handler added last, which is the abstract side here.
-/

set_option autoImplicit false

namespace Duda.EventRegistry
open Duda.Runs

/-- The arguments of `duda_event_add`; callbacks and data are addresses. -/
structure Registration where
  sockfd : ℤ
  init_mode : ℤ
  behavior : ℤ
  cb_on_read : ℕ
  cb_on_write : ℕ
  cb_on_error : ℕ
  cb_on_close : ℕ
  cb_on_timeout : ℕ
  data : ℕ
  deriving DecidableEq, Repr

/-- `struct duda_event_handler`, with the node it is allocated as. -/
structure Handler where
  node : ℕ
  reg : Registration
  deriving DecidableEq, Repr

/-- `duda_events_list` of a worker, and the next node. -/
structure Registry where
  events : List Handler
  next : ℕ

inductive Fault where
  | exitFailure
  deriving DecidableEq, Repr

/-- `DUDA_EVENT_READ`. -/
def eventRead : ℤ := 1

/-- `duda_event_add`; `allocated` tells whether there is memory for the node. -/
def eventAdd (r : Registry) (reg : Registration) (allocated : Bool) :
    Except Fault (Registry × ℤ) :=
  if allocated then
    if reg.init_mode < eventRead then .error .exitFailure
    else .ok (⟨r.events++[⟨r.next,reg⟩],r.next+1⟩,0)
  else .ok (r,-1)

/-- `duda_event_lookup`. -/
def eventLookup (events : List Handler) (sockfd : ℤ) : Option Handler :=
  match events with
  | [] => none
  | eh::rest => if eh.reg.sockfd = sockfd then some eh else eventLookup rest sockfd

/-- The loop of `duda_event_delete`: the list without the first handler of the
descriptor, if there is one. -/
def deleteLoop (sockfd : ℤ) : List Handler → List Handler × ℤ
  | [] => ([],-1)
  | eh::rest =>
    if eh.reg.sockfd = sockfd then (rest,0)
    else (eh::(deleteLoop sockfd rest).1,(deleteLoop sockfd rest).2)

/-- `duda_event_delete`. -/
def eventDelete (r : Registry) (sockfd : ℤ) : Registry × ℤ :=
  ({ r with events := (deleteLoop sockfd r.events).1 },(deleteLoop sockfd r.events).2)

inductive Call where
  | add (reg : Registration) (allocated : Bool)
  | delete (sockfd : ℤ)
  deriving DecidableEq, Repr

/-- The registry beside the map it stands for. -/
structure World where
  registry : Registry
  latest : ℤ → Option Handler

def step (w : World) : Call → Except Fault World
  | .add reg allocated =>
    (eventAdd w.registry reg allocated).map fun (r,_) =>
      ⟨r,if allocated then Function.update w.latest reg.sockfd (some ⟨w.registry.next,reg⟩)
        else w.latest⟩
  | .delete sockfd =>
    .ok ⟨(eventDelete w.registry sockfd).1,Function.update w.latest sockfd none⟩

def initial : World := ⟨⟨[],0⟩,fun _ => none⟩

/-- Looking up a descriptor gives the handler added last for it. -/
def IsMap (w : World) : Prop := ∀ fd, eventLookup w.registry.events fd = w.latest fd

/-- A handler is added only for a descriptor that has none. -/
def FreshAdd (w : World) : Call → Prop
  | .add reg allocated => allocated = true → eventLookup w.registry.events reg.sockfd = none
  | .delete _ => True

/-- At most one handler for a descriptor, and the nodes are older than the
next one. -/
structure Single (w : World) : Prop where
  distinct : (w.registry.events.map fun eh => eh.reg.sockfd).Nodup
  older : ∀ eh ∈ w.registry.events, eh.node < w.registry.next
  isMap : IsMap w

theorem lookup_none_iff (events : List Handler) (fd : ℤ) :
    eventLookup events fd = none ↔ fd ∉ events.map fun eh => eh.reg.sockfd := by
  induction events with
  | nil => simp [eventLookup]
  | cons eh rest ih =>
    rw [eventLookup, List.map_cons, List.mem_cons]
    by_cases h : eh.reg.sockfd = fd
    · simp [h]
    · rw [if_neg h, ih]
      simp [Ne.symm h]

theorem lookup_mem (events : List Handler) (fd : ℤ) (eh : Handler)
    (h : eventLookup events fd = some eh) : eh ∈ events := by
  induction events with
  | nil => cases h
  | cons a rest ih =>
    rw [eventLookup] at h
    split_ifs at h
    · rw [Option.some.inj h]
      exact List.mem_cons_self ..
    · exact List.mem_cons_of_mem _ (ih h)

theorem lookup_add (events : List Handler) (eh : Handler) (fd : ℤ) :
    eventLookup (events++[eh]) fd =
      (eventLookup events fd).or (if eh.reg.sockfd = fd then some eh else none) := by
  induction events with
  | nil => simp [eventLookup]
  | cons a rest ih =>
    rw [List.cons_append, eventLookup, eventLookup]
    by_cases h : a.reg.sockfd = fd
    · simp [h]
    · rw [if_neg h, if_neg h, ih]

theorem deleteLoop_sublist (fd : ℤ) (events : List Handler) :
    (deleteLoop fd events).1.Sublist events := by
  induction events with
  | nil => exact List.Sublist.refl _
  | cons eh rest ih =>
    rw [deleteLoop]
    split_ifs
    · exact List.sublist_cons_self _ _
    · exact ih.cons_cons eh

/-- Where descriptors are distinct, a delete leaves no handler behind. -/
theorem lookup_delete (events : List Handler) (fd : ℤ)
    (hd : (events.map fun eh => eh.reg.sockfd).Nodup) (fd' : ℤ) :
    eventLookup (deleteLoop fd events).1 fd' =
      if fd' = fd then none else eventLookup events fd' := by
  induction events with
  | nil => simp [deleteLoop, eventLookup]
  | cons eh rest ih =>
    rw [List.map_cons, List.nodup_cons] at hd
    rw [deleteLoop, eventLookup]
    by_cases he : eh.reg.sockfd = fd
    · rw [if_pos he]
      by_cases hf : fd' = fd
      · rw [if_pos hf, lookup_none_iff, hf, ← he]
        exact hd.1
      · rw [if_neg hf, if_neg (fun h => hf (h.symm.trans he))]
    · rw [if_neg he, eventLookup, ih hd.2]
      by_cases hf : fd' = fd
      · rw [if_pos hf, if_pos hf, if_neg (fun h => he (h.trans hf))]
      · rw [if_neg hf, if_neg hf]

theorem step_cases (w t : World) (c : Call) (h : step w c = .ok t) :
    (∃ reg, c = .add reg false ∧ t = w) ∨
    (∃ reg, c = .add reg true ∧
      t = ⟨⟨w.registry.events++[⟨w.registry.next,reg⟩],w.registry.next+1⟩,
        Function.update w.latest reg.sockfd (some ⟨w.registry.next,reg⟩)⟩) ∨
    ∃ fd, c = .delete fd ∧
      t = ⟨⟨(deleteLoop fd w.registry.events).1,w.registry.next⟩,
        Function.update w.latest fd none⟩ := by
  cases c with
  | add reg allocated =>
    obtain ⟨p,hp,rfl⟩ := map_ok h
    rw [eventAdd] at hp
    cases allocated with
    | false =>
      cases hp
      exact .inl ⟨reg,rfl,rfl⟩
    | true =>
      rw [if_pos rfl] at hp
      split_ifs at hp
      cases hp
      exact .inr (.inl ⟨reg,rfl,rfl⟩)
  | delete fd =>
    cases h
    exact .inr (.inr ⟨fd,rfl,rfl⟩)

theorem step_single (w : World) (c : Call) (t : World) (hw : Single w) (hf : FreshAdd w c)
    (h : step w c = .ok t) : Single t := by
  rcases step_cases w t c h with ⟨reg,rfl,rfl⟩ | ⟨reg,rfl,rfl⟩ | ⟨fd,rfl,rfl⟩
  · exact hw
  · have hfree := hf rfl
    refine ⟨?_,?_,?_⟩
    · rw [List.map_append, List.map_singleton, ← List.concat_eq_append]
      exact hw.distinct.concat ((lookup_none_iff _ _).mp hfree)
    · intro eh heh
      rcases List.mem_append.mp heh with heh | heh
      · exact Nat.lt_succ_of_lt (hw.older eh heh)
      · rw [List.mem_singleton.mp heh]
        exact Nat.lt_succ_self _
    · intro fd
      show eventLookup (w.registry.events++[_]) fd = Function.update w.latest reg.sockfd _ fd
      rw [lookup_add]
      by_cases hfd : reg.sockfd = fd
      · rw [← hfd, hfree, Function.update_self]
        simp
      · rw [Function.update_of_ne (Ne.symm hfd), ← hw.isMap fd]
        simp [hfd]
  · refine ⟨?_,?_,?_⟩
    · exact hw.distinct.sublist ((deleteLoop_sublist fd _).map _)
    · exact fun eh heh => hw.older eh ((deleteLoop_sublist fd _).subset heh)
    · intro fd'
      show eventLookup (deleteLoop fd w.registry.events).1 fd' =
        Function.update w.latest fd none fd'
      rw [lookup_delete _ _ hw.distinct]
      by_cases hfd : fd' = fd
      · rw [if_pos hfd, hfd, Function.update_self]
      · rw [if_neg hfd, Function.update_of_ne hfd]
        exact hw.isMap fd'

/-- A second handler for a descriptor is not the one that is found. -/
theorem second_add_hidden (w : World) (reg : Registration) (t : World) (hw : Single w)
    (h : step w (.add reg true) = .ok t) (ht : IsMap t) :
    eventLookup w.registry.events reg.sockfd = none := by
  rcases step_cases w t _ h with ⟨r,hr,rfl⟩ | ⟨r,hr,rfl⟩ | ⟨fd,hr,rfl⟩
  · cases hr
  · cases hr
    have hlast : eventLookup (w.registry.events++[⟨w.registry.next,reg⟩]) reg.sockfd =
        Function.update w.latest reg.sockfd (some ⟨w.registry.next,reg⟩) reg.sockfd :=
      ht reg.sockfd
    rw [Function.update_self, lookup_add] at hlast
    cases hfound : eventLookup w.registry.events reg.sockfd with
    | none => rfl
    | some eh =>
      rw [hfound] at hlast
      have hnode := hw.older eh (lookup_mem _ _ _ hfound)
      rw [Option.some.inj hlast] at hnode
      exact absurd hnode (lt_irrefl _)
  · cases hr

/-- The registry is the map of the handlers added last, after every call of a
run, exactly when no call adds a handler for a descriptor that has one. -/
theorem registry_map_iff (calls : List Call) :
    Along step (After IsMap) calls initial ↔ Along step (Taken FreshAdd) calls initial := by
  apply along_iff (I := Single)
  · intro w c t hw hg ht
    exact step_single w c t hw (hg t rfl) ht
  · intro w c hw
    constructor
    · intro h t ht
      cases c with
      | add reg allocated =>
        intro ha
        rw [ha] at ht
        exact second_add_hidden w reg t hw ht (h t (ha ▸ ht))
      | delete fd => trivial
    · intro h t ht
      exact (step_single w c t hw (h t ht) ht).isMap
  · exact ⟨List.nodup_nil,fun eh h => (by cases h),fun _ => rfl⟩

/-- A repeated registration, as a repeated handshake makes it: the older
handler is found, and the newer one outlives the delete. -/
theorem registered_twice :
    let reg : Registration := ⟨7,1,1,10,11,12,13,14,20⟩
    let again : Registration := ⟨7,1,1,10,11,12,13,14,21⟩
    ∃ w, run step [.add reg true,.add again true] initial = .ok w ∧
      eventLookup w.registry.events 7 = some ⟨0,reg⟩ ∧ w.latest 7 = some ⟨1,again⟩ ∧
      ∃ w', step w (.delete 7) = .ok w' ∧
        eventLookup w'.registry.events 7 = some ⟨1,again⟩ ∧ w'.latest 7 = none :=
  ⟨_,rfl,rfl,rfl,_,rfl,rfl,rfl⟩

end Duda.EventRegistry
