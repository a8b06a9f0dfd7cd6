import Duda.ChannelStep
import Duda.SchedulerFrame

/-!
# The receiving end of a channel

A channel names its receiver in a field, and the receiver lists the channel.
Both are set together, and a function that returns resets the field of every
channel on its list. The links are described on the field values alone, with
the dthread last set as receiver as a history variable, so that every call
changes them at one channel or not at all.
-/

set_option autoImplicit false

namespace Duda.ChannelLinks
open Duda.Channel Duda.ChannelFifo Duda.ChannelStep Duda.ControlPlace Duda.Runs
open Duda.SchedulerFrame Duda.SchedulerInvariant
open Duda.Scheduler hiding step

def recvOf (w : World) (c : ℕ) : Option ℤ := (w.chans c).map Chan.receiver

/-- The links of the unfinished dthreads, and for each channel the dthread
that was last set as its receiver. -/
structure Links (s : Sched Frame) (recv : ℕ → Option ℤ) (target : ℕ → Option ℕ) (next : ℕ) :
    Prop where
  sched : SchedulerInvariant.Inv s
  member : ∀ i o d c, At s i o d → d.status ≠ .dead → (c ∈ d.chan_list ↔ recv c = some (i:ℤ))
  nodup : ∀ i o d, At s i o d → d.status ≠ .dead → d.chan_list.Nodup
  named : ∀ c r, recv c = some r → r ≠ -1 →
    ∃ i o d, r = (i:ℕ) ∧ At s i o d ∧ d.status ≠ .dead ∧ target c = some o
  broken : ∀ c o, recv c = some (-1) → target c = some o → Finished s o
  known : ∀ c o, target c = some o → o < s.next
  fresh : ∀ c, next ≤ c → recv c = none ∧ target c = none

section Operations

variable {s t : Sched Frame} {recv : ℕ → Option ℤ} {target : ℕ → Option ℕ} {next : ℕ}

theorem slot_ne {i j o x : ℕ} {d e : Dthread Frame} (hi : At s i o d) (hj : At s j x e)
    (hx : x ≠ o) : j ≠ i := by
  intro hji
  subst hji
  exact hx (Option.some.inj (hj.1.symm.trans hi.1))

theorem links_carry (h : Links s recv target next) (hc : Carries s t)
    (hi : SchedulerInvariant.Inv t) : Links t recv target next := by
  refine ⟨hi,?_,?_,?_,?_,?_,h.fresh⟩
  · intro i o e c he halive
    obtain ⟨d,hd,hde⟩ := hc.back i o e he
    rw [← hde.1]
    exact h.member i o d c hd (fun hdead => halive (hde.2.mp hdead))
  · intro i o e he halive
    obtain ⟨d,hd,hde⟩ := hc.back i o e he
    rw [← hde.1]
    exact h.nodup i o d hd (fun hdead => halive (hde.2.mp hdead))
  · intro c r hr hne
    obtain ⟨i,o,d,hri,hd,halive,ho⟩ := h.named c r hr hne
    obtain ⟨e,he,hde⟩ := hc.forth i o d hd
    exact ⟨i,o,e,hri,he,fun hdead => halive (hde.2.mpr hdead),ho⟩
  · intro c o hr ho
    exact hc.finished o (h.broken c o hr ho)
  · intro c o ho
    rw [← hc.next]
    exact h.known c o ho

theorem links_create (h : Links s recv target next) (id : ℕ) (hc : Created s t id) :
    Links t recv target next := by
  have hb := h.sched.base
  have hfree : ∀ o d, At s id o d → d.status ≠ .dead → False := by
    intro o d hd halive
    have hlive := isLive_at s id o d hd
    rw [hc.free] at hlive
    simp [halive] at hlive
  refine ⟨created_inv s t id h.sched hc,?_,?_,?_,?_,?_,h.fresh⟩
  · intro i o e c he halive
    rcases (created_at s t id hb hc i o e).mp he with ⟨rfl,rfl,rfl⟩ | ⟨_,hd⟩
    · apply iff_of_false
      · simp [newDthread]
      · intro hr
        obtain ⟨j,o,d,hj,hd,hd',_⟩ := h.named c _ hr (by omega)
        obtain rfl : i = j := by omega
        exact hfree o d hd hd'
    · exact h.member i o e c hd halive
  · intro i o e he halive
    rcases (created_at s t id hb hc i o e).mp he with ⟨rfl,rfl,rfl⟩ | ⟨_,hd⟩
    · exact List.nodup_nil
    · exact h.nodup i o e hd halive
  · intro c r hr hne
    obtain ⟨i,o,d,hri,hd,halive,ho⟩ := h.named c r hr hne
    refine ⟨i,o,d,hri,(created_at s t id hb hc i o d).mpr (.inr ⟨?_,hd⟩),halive,ho⟩
    intro hi
    subst hi
    exact hfree o d hd halive
  · intro c o hr ho d hd
    have hlt := h.known c o ho
    rw [hc.heap o, if_neg (by omega)] at hd
    split_ifs at hd with hslot
    exact h.broken c o hr ho d hd
  · intro c o ho
    have := h.known c o ho
    rw [hc.next]
    omega

/-- The function of `o` returns: the channels on its list have no receiver any
more. -/
theorem links_return (h : Links s recv target next) (i o : ℕ) (d : Dthread Frame)
    (n : Option Frame) (hc : s.cur = .dthread o) (hat : At s i o d) (he : Executing d)
    (hr : entryReturn s = .ok (t,n)) (hi : SchedulerInvariant.Inv t) :
    Links t (fun c => if c ∈ d.chan_list then some (-1) else recv c) target next := by
  have halive := (executing_alive d he).1
  have hmem := fun c => h.member i o d c hat halive
  have hnext := (return_shape s t o d n hc hat.2 hr).2.1
  have hlive : ∀ j x e, At t j x e → e.status ≠ .dead → x ≠ o ∧ At s j x e := by
    intro j x e hj hej
    obtain ⟨hslot,⟨_,rfl⟩ | ⟨hx,hheap⟩⟩ := (return_at s t o d n hc hat.2 hr j x e).mp hj
    · exact absurd rfl hej
    · exact ⟨hx,hslot,hheap⟩
  refine ⟨hi,?_,?_,?_,?_,?_,?_⟩
  · intro j x e c hj hej
    obtain ⟨hx,hjs⟩ := hlive j x e hj hej
    have hji := slot_ne hat hjs hx
    rw [h.member j x e c hjs hej]
    by_cases hcl : c ∈ d.chan_list
    · rw [if_pos hcl, (hmem c).mp hcl]
      simp only [Option.some.injEq]
      omega
    · rw [if_neg hcl]
  · intro j x e hj hej
    exact h.nodup j x e (hlive j x e hj hej).2 hej
  · intro c r hrc hne
    split_ifs at hrc with hcl
    · exact absurd (Option.some.inj hrc).symm hne
    · obtain ⟨j,x,e,hrj,hj,hej,ho⟩ := h.named c r hrc hne
      refine ⟨j,x,e,hrj,(return_at s t o d n hc hat.2 hr j x e).mpr ⟨hj.1,.inr ⟨?_,hj.2⟩⟩,hej,ho⟩
      intro hx
      subst hx
      obtain rfl := h.sched.base.inj j i x hj.1 hat.1
      exact hcl ((hmem c).mpr (hrc.trans (by rw [hrj])))
  · intro c x hrc ho
    rw [return_finished s t o d n hc hat.2 hr x]
    split_ifs at hrc with hcl
    · left
      obtain ⟨j,y,e,hij,hj,_,hy⟩ := h.named c i ((hmem c).mp hcl) (by omega)
      obtain rfl : i = j := by omega
      rw [hat.1.symm.trans hj.1 |> Option.some.inj]
      exact Option.some.inj (ho.symm.trans hy)
    · exact .inr (h.broken c x hrc ho)
  · intro c x ho
    rw [hnext]
    exact h.known c x ho
  · intro c hcn
    obtain ⟨hrn,htn⟩ := h.fresh c hcn
    refine ⟨?_,htn⟩
    have hcl : c ∉ d.chan_list := by
      intro hcl
      rw [(hmem c).mp hcl] at hrn
      cases hrn
    rw [if_neg hcl, hrn]

theorem update_some_cases {β : Type} (f : ℕ → Option β) (c y : ℕ) (b r : β)
    (h : Function.update f c (some b) y = some r) : (y = c ∧ b = r) ∨ (y ≠ c ∧ f y = some r) := by
  by_cases hy : y = c
  · rw [hy, Function.update_self] at h
    exact .inl ⟨hy,Option.some.inj h⟩
  · rw [Function.update_of_ne hy] at h
    exact .inr ⟨hy,h⟩

theorem links_receiver (h : Links s recv target next) (c i o : ℕ) (d : Dthread Frame)
    (hat : At s i o d) (halive : d.status ≠ .dead) (hr : recv c = some (-1)) :
    Links (relist s (fun x l => if x = o then l++[c] else l))
      (Function.update recv c (some (i:ℤ))) (Function.update target c (some o)) next := by
  have hnot : ∀ j x e, At s j x e → e.status ≠ .dead → c ∉ e.chan_list := by
    intro j x e hj hej hc
    rw [h.member j x e c hj hej, hr, Option.some.injEq] at hc
    omega
  refine ⟨relist_inv s _ h.sched,?_,?_,?_,?_,?_,?_⟩
  · intro j x e y hj hej
    obtain ⟨e,hjs,rfl⟩ := (relist_at s _ j x e).mp hj
    have hmem := h.member j x e y hjs hej
    by_cases hx : x = o
    · subst hx
      obtain rfl := h.sched.base.inj j i x hjs.1 hat.1
      by_cases hy : y = c
      · simp [hy]
      · simp [hy, hmem]
    · have hji := slot_ne hat hjs hx
      by_cases hy : y = c
      · subst hy
        have := hnot j x e hjs hej
        simp only [hx, if_false, this, Function.update_self, Option.some.injEq, false_iff]
        omega
      · simp [hx, hy, hmem]
  · intro j x e hj hej
    obtain ⟨e,hjs,rfl⟩ := (relist_at s _ j x e).mp hj
    have hnd := h.nodup j x e hjs hej
    by_cases hx : x = o
    · simp only [hx, if_true]
      rw [← List.concat_eq_append]
      exact hnd.concat (hnot j x e hjs hej)
    · simpa [hx] using hnd
  · intro y r hy hne
    rcases update_some_cases recv c y _ r hy with ⟨rfl,hir⟩ | ⟨hyc,hy⟩
    · rw [Function.update_self]
      exact ⟨i,o,_,hir.symm,(relist_at s _ i o _).mpr ⟨d,hat,rfl⟩,halive,rfl⟩
    · obtain ⟨j,x,e,hrj,hj,hej,hx⟩ := h.named y r hy hne
      rw [Function.update_of_ne hyc]
      exact ⟨j,x,_,hrj,(relist_at s _ j x _).mpr ⟨e,hj,rfl⟩,hej,hx⟩
  · intro y x hy hx
    rw [relist_finished]
    rcases update_some_cases recv c y _ _ hy with ⟨-,hir⟩ | ⟨hyc,hy⟩
    · omega
    · rw [Function.update_of_ne hyc] at hx
      exact h.broken y x hy hx
  · intro y x hx
    rcases update_some_cases target c y _ _ hx with ⟨-,rfl⟩ | ⟨-,hx⟩
    · exact h.sched.base.fresh o d hat.2
    · exact h.known y x hx
  · intro y hy
    have hyc : y ≠ c := by
      intro hyc
      have := (h.fresh y hy).1
      rw [hyc, hr] at this
      cases this
    rw [Function.update_of_ne hyc, Function.update_of_ne hyc]
    exact h.fresh y hy

theorem update_none_some {β : Type} (f : ℕ → Option β) (c y : ℕ) (b : β)
    (h : Function.update f c none y = some b) : y ≠ c ∧ f y = some b := by
  by_cases hy : y = c
  · rw [hy, Function.update_self] at h
    cases h
  · rw [Function.update_of_ne hy] at h
    exact ⟨hy,h⟩

theorem fresh_drop (h : Links s recv target next) (c y : ℕ) (hy : next ≤ y) :
    Function.update recv c none y = none ∧ target y = none := by
  obtain ⟨hr,ht⟩ := h.fresh y hy
  refine ⟨?_,ht⟩
  by_cases hyc : y = c
  · rw [hyc, Function.update_self]
  · rw [Function.update_of_ne hyc, hr]

theorem links_drop (h : Links s recv target next) (c : ℕ) (hr : recv c = some (-1)) :
    Links s (Function.update recv c none) target next := by
  refine ⟨h.sched,?_,h.nodup,?_,?_,h.known,fresh_drop h c⟩
  · intro i o d y hat halive
    rw [h.member i o d y hat halive]
    by_cases hy : y = c
    · subst hy
      simp only [hr, Option.some.injEq, Function.update_self, reduceCtorEq]
    · rw [Function.update_of_ne hy]
  · intro y r hy hne
    exact h.named y r (update_none_some recv c y r hy).2 hne
  · intro y o hy ho
    exact h.broken y o (update_none_some recv c y _ hy).2 ho

theorem links_unlink (h : Links s recv target next) (c i o : ℕ) (d : Dthread Frame)
    (hat : At s i o d) (hr : recv c = some (i:ℤ)) :
    Links (relist s (fun x l => if x = o then l.erase c else l)) (Function.update recv c none)
      target next := by
  refine ⟨relist_inv s _ h.sched,?_,?_,?_,?_,h.known,fresh_drop h c⟩
  · intro j x e y he halive
    obtain ⟨f,hf,rfl⟩ := (relist_at s _ j x e).mp he
    have hmem := h.member j x f y hf halive
    by_cases hx : x = o
    · simp only [if_pos hx, (h.nodup j x f hf halive).mem_erase_iff, hmem]
      by_cases hy : y = c
      · simp [hy]
      · simp [hy]
    · have hji := slot_ne hat hf hx
      simp only [if_neg hx, hmem]
      by_cases hy : y = c
      · subst hy
        simp only [hr, Option.some.injEq, Function.update_self, reduceCtorEq, iff_false]
        omega
      · rw [Function.update_of_ne hy]
  · intro j x e he halive
    obtain ⟨f,hf,rfl⟩ := (relist_at s _ j x e).mp he
    have hnd := h.nodup j x f hf halive
    by_cases hx : x = o
    · simpa [hx] using hnd.erase c
    · simpa [hx] using hnd
  · intro y r hy hne
    obtain ⟨j,x,f,hrj,hf,halive,hx⟩ := h.named y r (update_none_some recv c y r hy).2 hne
    exact ⟨j,x,_,hrj,(relist_at s _ j x _).mpr ⟨f,hf,rfl⟩,halive,hx⟩
  · intro y x hy hx
    rw [relist_finished]
    exact h.broken y x (update_none_some recv c y _ hy).2 hx

theorem links_new (h : Links s recv target next) :
    Links s (Function.update recv next (some (-1))) target (next+1) := by
  obtain ⟨hrnext,htnext⟩ := h.fresh next le_rfl
  refine ⟨h.sched,?_,h.nodup,?_,?_,h.known,?_⟩
  · intro i o d y hat halive
    rw [h.member i o d y hat halive]
    by_cases hy : y = next
    · subst hy
      simp only [hrnext, reduceCtorEq, Function.update_self, Option.some.injEq]
    · rw [Function.update_of_ne hy]
  · intro y r hy hne
    by_cases hyc : y = next
    · rw [hyc, Function.update_self] at hy
      exact absurd (Option.some.inj hy).symm hne
    · rw [Function.update_of_ne hyc] at hy
      exact h.named y r hy hne
  · intro y o hy ho
    by_cases hyc : y = next
    · rw [hyc, htnext] at ho
      cases ho
    · rw [Function.update_of_ne hyc] at hy
      exact h.broken y o hy ho
  · intro y hy
    rw [Function.update_of_ne (by omega)]
    exact h.fresh y (by omega)

end Operations

end Duda.ChannelLinks
