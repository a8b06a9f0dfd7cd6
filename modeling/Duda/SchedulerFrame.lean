import Duda.ControlPlace
import Duda.SchedulerInvariant

/-!
# What the scheduler leaves alone

Apart from the dthread that it creates or ends, no operation of the scheduler
touches the channel list of a dthread in its slot, and none brings a finished
dthread back. The channel lists in turn mean nothing to the scheduler.
-/

set_option autoImplicit false

namespace Duda.SchedulerFrame
open Duda.ControlPlace Duda.Scheduler Duda.SchedulerInvariant Duda.SlotCount

variable {κ : Type}

def Finished (s : Sched κ) (o : ℕ) : Prop := ∀ d, s.heap o = some d → d.status = .dead

/-- The same channels, and the same answer to whether the function returned. -/
def Alike (d e : Dthread κ) : Prop :=
  d.chan_list = e.chan_list ∧ (d.status = .dead ↔ e.status = .dead)

structure Carries (s t : Sched κ) : Prop where
  forth : ∀ i o d, At s i o d → ∃ e, At t i o e ∧ Alike d e
  back : ∀ i o e, At t i o e → ∃ d, At s i o d ∧ Alike d e
  finished : ∀ o, Finished s o → Finished t o
  next : s.next = t.next

variable (s : Sched κ) (f : ℕ → List ℕ → List ℕ) (o : ℕ)

theorem carries_refl : Carries s s :=
  ⟨fun _ _ d h => ⟨d,h,rfl,Iff.rfl⟩,fun _ _ d h => ⟨d,h,rfl,Iff.rfl⟩,fun _ h => h,rfl⟩

theorem carries_trans (t u : Sched κ) (h : Carries s t) (h' : Carries t u) : Carries s u := by
  refine ⟨?_,?_,fun o ho => h'.finished o (h.finished o ho),h.next.trans h'.next⟩
  · intro i o d hd
    obtain ⟨e,he,hde⟩ := h.forth i o d hd
    obtain ⟨f,hf,hef⟩ := h'.forth i o e he
    exact ⟨f,hf,hde.1.trans hef.1,hde.2.trans hef.2⟩
  · intro i o f hf
    obtain ⟨e,he,hef⟩ := h'.back i o f hf
    obtain ⟨d,hd,hde⟩ := h.back i o e he
    exact ⟨d,hd,hde.1.trans hef.1,hde.2.trans hef.2⟩

theorem put_carries (d e : Dthread κ) (hd : s.heap o = some d) (h : Alike d e) :
    Carries s (put s o e) := by
  refine ⟨?_,?_,?_,rfl⟩
  · intro i x f hf
    by_cases hx : x = o
    · subst hx
      obtain rfl : d = f := Option.some.inj (hd.symm.trans hf.2)
      exact ⟨e,(at_put s x e i x e).mpr ⟨hf.1,.inl ⟨rfl,rfl⟩⟩,h⟩
    · exact ⟨f,(at_put s o e i x f).mpr ⟨hf.1,.inr ⟨hx,hf.2⟩⟩,rfl,Iff.rfl⟩
  · intro i x f hf
    obtain ⟨hslot,⟨rfl,rfl⟩ | ⟨hx,hf⟩⟩ := (at_put s o e i x f).mp hf
    · exact ⟨d,⟨hslot,hd⟩,h⟩
    · exact ⟨f,⟨hslot,hf⟩,rfl,Iff.rfl⟩
  · intro x hx f hf
    by_cases hxo : x = o
    · subst hxo
      simp only [put, Function.update_self, Option.some.injEq] at hf
      rw [← hf]
      exact h.2.mp (hx d hd)
    · simp only [put, Function.update_of_ne hxo] at hf
      exact hx f hf

theorem enter_carries (p : Party) (id : ℤ) : Carries s (enter s p id) :=
  ⟨fun _ _ d h => ⟨d,h,rfl,Iff.rfl⟩,fun _ _ d h => ⟨d,h,rfl,Iff.rfl⟩,fun _ h => h,rfl⟩

theorem park_carries (k : κ) (hi : Inv s) : Carries s (park s k) := by
  cases hc : s.cur with
  | main =>
    simp only [park, hc]
    exact ⟨fun _ _ d h => ⟨d,h,rfl,Iff.rfl⟩,fun _ _ d h => ⟨d,h,rfl,Iff.rfl⟩,fun _ h => h,rfl⟩
  | dthread o =>
    obtain ⟨i,d,_,hat,he⟩ := current_at s o hi hc
    simp only [park, hc, hat.2]
    apply put_carries s o d _ hat.2
    exact ⟨rfl,iff_of_false (executing_alive d he).1 (by simp)⟩

theorem resume_carries (id : ℤ) (k : κ) (t : Sched κ) (r : Option κ) (hi : Inv s)
    (h : dthreadResume s id k = .ok (t,r)) : Carries s t := by
  have hpark := park_carries s k hi
  cases resume_cases s id k t r hi h with
  | stay => exact carries_refl s
  | start i o d hat hs hc =>
    apply carries_trans _ _ _ hpark
    apply carries_trans _ _ _ _ (enter_carries _ _ _)
    apply put_carries _ o d _ (at_park s k i o d hat hc).2
    exact ⟨rfl,iff_of_false (by simp [hs]) (by simp [started])⟩
  | wake i o d hat hs hc =>
    apply carries_trans _ _ _ hpark
    apply carries_trans _ _ _ _ (enter_carries _ _ _)
    apply put_carries _ o d _ (at_park s k i o d hat hc).2
    exact ⟨rfl,iff_of_false (by simp [hs]) (by simp)⟩
  | self i o d hat hs hc => exact carries_trans _ _ _ hpark (enter_carries _ _ _)

theorem yield_carries (k : κ) (t : Sched κ) (r : Option κ) (hi : Inv s)
    (h : dthreadYield s k = .ok (t,r)) : Carries s t := by
  rcases yield_spec s k hi with ⟨_,he⟩ | ⟨k',he⟩
  · rw [he] at h
    cases h
  · rw [he] at h
    cases h
    exact carries_trans _ _ _ (park_carries s k hi) (enter_carries _ _ _)

theorem return_at (t : Sched κ) (o : ℕ) (d : Dthread κ) (n : Option κ) (hc : s.cur = .dthread o)
    (hd : s.heap o = some d) (h : entryReturn s = .ok (t,n)) (i x : ℕ) (e : Dthread κ) :
    At t i x e ↔ s.dt i = some x ∧
      ((x = o ∧ e = { d with status := .dead }) ∨ (x ≠ o ∧ s.heap x = some e)) := by
  obtain ⟨_,_,hdt,hheap⟩ := return_shape s t o d n hc hd h
  rw [← at_put s o { d with status := .dead } i x e, At, At, hdt, hheap]
  rfl

theorem return_finished (t : Sched κ) (o : ℕ) (d : Dthread κ) (n : Option κ)
    (hc : s.cur = .dthread o) (hd : s.heap o = some d) (h : entryReturn s = .ok (t,n)) (x : ℕ) :
    Finished t x ↔ x = o ∨ Finished s x := by
  obtain ⟨_,_,_,hheap⟩ := return_shape s t o d n hc hd h
  simp only [Finished, hheap]
  by_cases hx : x = o
  · subst hx
    simp [← eq_comm]
  · simp [hx]

/-- The scheduler with other channel lists. -/
def relist (s : Sched κ) (f : ℕ → List ℕ → List ℕ) : Sched κ :=
  { s with heap := fun o => (s.heap o).map (fun d => { d with chan_list := f o d.chan_list }) }

theorem relist_heap (e : Dthread κ) :
    (relist s f).heap o = some e ↔
      ∃ d, s.heap o = some d ∧ { d with chan_list := f o d.chan_list } = e := by
  simp only [relist, Option.map_eq_some_iff]

theorem relist_at (i o : ℕ) (e : Dthread κ) :
    At (relist s f) i o e ↔ ∃ d, At s i o d ∧ { d with chan_list := f o d.chan_list } = e := by
  simp only [At, relist_heap]
  constructor
  · rintro ⟨hslot,d,hd,he⟩
    exact ⟨d,⟨hslot,hd⟩,he⟩
  · rintro ⟨d,⟨hslot,hd⟩,he⟩
    exact ⟨hslot,d,hd,he⟩

theorem relist_live (i : ℕ) : isLive (relist s f) i = isLive s i := by
  simp only [isLive, relist]
  cases s.dt i with
  | none => rfl
  | some o =>
    cases hd : s.heap o with
    | none => simp only [hd, Option.map_none]
    | some d => simp only [hd, Option.map_some]

theorem relist_linked (d : Dthread κ) (l : List ℕ) (h : Linked s o d) :
    Linked (relist s f) o { d with chan_list := l } := by
  rcases h with h | ⟨p,hl,hne,hid,hnext,hready⟩
  · exact .inl h
  · refine .inr ⟨p,hl,hne,hid,hnext,?_⟩
    intro e he
    obtain ⟨d',hd',rfl⟩ := (relist_heap s f p e).mp he
    exact hready d' hd'

theorem relist_base (hb : Base s) : Base (relist s f) := by
  refine ⟨hb.cap_pos,?_,?_,hb.inj,?_,?_,?_⟩
  · intro i o ho
    obtain ⟨hlt,d,hd⟩ := hb.slots i o ho
    exact ⟨hlt,_,(relist_heap s f o _).mpr ⟨d,hd,rfl⟩⟩
  · intro o e he
    obtain ⟨d,hd,_⟩ := (relist_heap s f o e).mp he
    exact hb.fresh o d hd
  · intro i o e he hs
    obtain ⟨d,hd,rfl⟩ := (relist_at s f i o e).mp he
    exact hb.ready i o d hd hs
  · intro i o e he hs
    obtain ⟨d,hd,rfl⟩ := (relist_at s f i o e).mp he
    exact relist_linked s f o d _ (hb.link i o d hd hs)
  · have hlive : isLive (relist s f) = isLive s := by
      funext i
      exact relist_live s f i
    rw [hlive]
    exact hb.count

theorem relist_inv (hi : Inv s) : Inv (relist s f) := by
  refine ⟨relist_base s f hi.base,?_,?_,hi.mainSaved⟩
  · cases hi.current with
    | main hc hr => exact .main hc hr
    | dthread i o d hc hr hat he =>
      exact .dthread i o _ hc hr ((relist_at s f i o _).mpr ⟨d,hat,rfl⟩) he
  · intro i o e he hc
    obtain ⟨d,hd,rfl⟩ := (relist_at s f i o e).mp he
    exact hi.parked i o d hd hc

theorem relist_finished : Finished (relist s f) o ↔ Finished s o := by
  constructor
  · intro h d hd
    have he := (relist_heap s f o { d with chan_list := f o d.chan_list }).mpr ⟨d,hd,rfl⟩
    exact h { d with chan_list := f o d.chan_list } he
  · intro h e he
    obtain ⟨d,hd,rfl⟩ := (relist_heap s f o e).mp he
    exact h d hd

end Duda.SchedulerFrame
