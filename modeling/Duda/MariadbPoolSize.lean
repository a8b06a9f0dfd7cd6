import Duda.MariadbPoolConfig

/-!
# The least size of a connection pool

A pool is configured with a least and a greatest size. The greatest size bounds
its growth. The shrink loop does not read the least size, it compares with the
default of two connections.
-/

set_option autoImplicit false

namespace Duda.MariadbPoolSize
open Duda.Runs Duda.MariadbPool
open Duda.MariadbPoolConfig (ConnConfig newConfig poolDefaultMaxSize)

/-- A connection that comes back does not take the size of the pool below
`min_size`. -/
def KeepsMin (min_size : ℤ) (w : Worker) (o : Op) (r : Except Fault Worker) : Prop :=
  ∀ isAsync c t, o = .reclaim isAsync c → r = .ok t →
    min_size ≤ w.pool.size → min_size ≤ t.pool.size

/-- The shrink loop stops at two connections. -/
theorem shrinkLoop_floor (cs : List ℕ) (p q : Pool) (released : List ℕ)
    (h : shrinkLoop cs p = .ok (released,q)) : q.size = p.size ∨ poolDefaultMinSize ≤ q.size := by
  induction cs generalizing p released with
  | nil =>
    simp only [shrinkLoop] at h
    split at h
    · cases h
    · cases h
      exact .inl rfl
  | cons c cs ih =>
    simp only [shrinkLoop] at h
    split at h
    · next hs =>
      obtain ⟨⟨rest,q'⟩,hr,he⟩ := map_ok h
      cases he
      right
      rcases ih (dropped p) rest hr with hsize | hsize
      · have hdrop : (dropped p).size = p.size-1 := rfl
        have hmin := hs.2
        omega
      · exact hsize
    · cases h
      exact .inl rfl

theorem shrinkLoop_stays (cs : List ℕ) (p : Pool) (h : ¬Surplus p) :
    shrinkLoop cs p = .ok ([],{ p with free_conns := cs }) := by
  cases cs with
  | nil => exact if_neg h
  | cons c cs => exact if_neg h

theorem reclaim_floor (w t : Worker) (isAsync : Bool) (c : ℕ)
    (h : opStep w (.reclaim isAsync c) = .ok t) :
    t.pool.size = w.pool.size ∨ poolDefaultMinSize ≤ t.pool.size := by
  obtain ⟨_,hr⟩ := guard_ok h
  have hboth : (if isAsync then poolReclaimConn w.pool c else dthreadPoolReclaimConn w.pool c) =
      reclaim w.pool c := by
    cases isAsync <;> rfl
  rw [hboth] at hr
  obtain ⟨⟨released,q⟩,hq,rfl⟩ := map_ok hr
  exact shrinkLoop_floor _ { w.pool with free_size := w.pool.free_size+1 } q released hq

theorem reclaim_keeps_default (w : Worker) (o : Op) (min_size : ℤ)
    (h : min_size ≤ poolDefaultMinSize) : KeepsMin min_size w o (opStep w o) := by
  rintro isAsync c t rfl ht hmin
  rcases reclaim_floor w t isAsync c ht with hsize | hsize
  · rw [hsize]
    exact hmin
  · exact h.trans hsize

/-- A pool whose least size is out of reach never has that size. -/
theorem keeps_unreached (min_size max_size : ℤ) (h0 : 0 < min_size) (h : max_size < min_size)
    (ops : List Op) : Along opStep (KeepsMin min_size) ops (initial max_size) := by
  refine along_of_kept (I := fun w => Inv w ∧ w.pool.max_size = max_size) ?_ ?_ ops _
    ⟨initial_inv max_size,rfl⟩
  · intro w o t hi ht
    have hn := opStep_kept w o t hi.1 ht
    exact ⟨hn.inv,hn.limit.trans hi.2⟩
  · intro w o hi isAsync c t _ _ hmin
    have hbound := hi.1.bounded
    rw [hi.2] at hbound
    omega

section Drained

variable (max_size : ℤ)

/-- The `n` connections of the pool are lent but for the first `k`. -/
structure Lent (n k : ℕ) (w : Worker) : Prop where
  inv : Inv w
  pool : w.pool = ⟨max_size,n,k,List.range k⟩
  next : w.next = n
  borrowed : ∀ c, k ≤ c → c < n → c ∈ w.borrowed

theorem lend_one (n : ℕ) (w : Worker) (hn : (n:ℤ) < max_size) (h : Lent max_size n 0 w) :
    ∃ t, opStep w (.get true true .done) = .ok t ∧ Lent max_size (n+1) 0 t := by
  have hfree : w.pool.free_conns = [] := by rw [h.pool]; rfl
  have hlt : w.pool.size < w.pool.max_size := by rw [h.pool]; exact hn
  have hget : opStep w (.get true true .done) = .ok ((grown w).lent w.next) :=
    getConn_new w true .done h.inv hfree hlt
  refine ⟨_,hget,(opStep_kept w (.get true true .done) _ h.inv hget).inv,?_,?_,?_⟩
  · simp only [Worker.lent, grown, h.pool]
    push_cast
    rfl
  · simp only [Worker.lent, grown, h.next]
  · intro c h0 hc
    simp only [Worker.lent, grown, h.next, Finset.mem_insert]
    by_cases hlast : c = n
    · exact .inl hlast
    · exact .inr (h.borrowed c h0 (by omega))

theorem lend_all (n : ℕ) (hn : (n:ℤ) ≤ max_size) :
    ∃ t, run opStep (List.replicate n (.get true true .done)) (initial max_size) = .ok t ∧
      Lent max_size n 0 t := by
  induction n with
  | zero =>
    refine ⟨_,rfl,initial_inv max_size,rfl,rfl,?_⟩
    intro c _ hc
    omega
  | succ n ih =>
    obtain ⟨w,hw,hl⟩ := ih (by omega)
    obtain ⟨t,ht,hl'⟩ := lend_one max_size n w (by omega) hl
    refine ⟨t,?_,hl'⟩
    rw [List.replicate_succ', run_append_ok hw, run_cons_ok ht]
    rfl

theorem return_one (n k : ℕ) (w : Worker) (hk : 2*(k+1) ≤ n) (h : Lent max_size n k w) :
    ∃ t, opStep w (.reclaim true k) = .ok t ∧ Lent max_size n (k+1) t := by
  have hb := h.borrowed k le_rfl (by omega)
  have hs : ¬Surplus { w.pool with free_size := w.pool.free_size+1 } := by
    rw [h.pool, Surplus]
    simp only
    omega
  have hstep : opStep w (.reclaim true k) = .ok (shrunkTo w k { w.pool with
      free_size := w.pool.free_size+1, free_conns := w.pool.free_conns++[k] } []) := by
    simp only [opStep, if_pos hb, poolReclaimConn, reclaim, shrinkLoop_stays _ _ hs, returnConn,
      Except.map, shrunkTo, if_true]
  refine ⟨_,hstep,(opStep_kept w _ _ h.inv hstep).inv,?_,h.next,?_⟩
  · simp only [shrunkTo, h.pool, List.range_succ]
    push_cast
    rfl
  · intro c h0 hc
    exact Finset.mem_erase.mpr ⟨by omega,h.borrowed c (by omega) hc⟩

theorem return_half (n k : ℕ) (w : Worker) (hk : 2*k ≤ n) (h : Lent max_size n 0 w) :
    ∃ t, run opStep ((List.range k).map (.reclaim true)) w = .ok t ∧ Lent max_size n k t := by
  induction k with
  | zero => exact ⟨w,rfl,h⟩
  | succ k ih =>
    obtain ⟨u,hu,hl⟩ := ih (by omega)
    obtain ⟨t,ht,hl'⟩ := return_one max_size n k u hk hl
    refine ⟨t,?_,hl'⟩
    rw [List.range_succ, List.map_append, run_append_ok hu, List.map_singleton, run_cons_ok ht]
    rfl

/-- When half of the connections are idle, the next return makes the pool release some. -/
theorem return_shrinks (n : ℕ) (w : Worker) (hn : 2 < n) (h : Lent max_size n (n/2) w) :
    ∃ t, opStep w (.reclaim true (n/2)) = .ok t ∧ t.pool.size < n := by
  have hb := h.borrowed (n/2) le_rfl (by omega)
  obtain ⟨released,q,hr,hq⟩ := opStep_reclaim w true (n/2) h.inv hb
  refine ⟨_,hr,?_⟩
  have hsize := hq.size
  have hfree := hq.free_size
  have hstop := hq.stopped
  simp only [h.pool] at hsize hfree
  simp only [Surplus, poolDefaultMinSize, shrunkTo] at hstop ⊢
  omega

/-- As many connections as the least size are lent, and one more than half of
them come back. -/
def drain (n : ℕ) : List Op :=
  List.replicate n (.get true true .done)++(List.range (n/2)).map (.reclaim true)++
    [.reclaim true (n/2)]

theorem drain_shrinks (n : ℕ) (hn : 2 < n) (hm : (n:ℤ) ≤ max_size) :
    ¬Along opStep (KeepsMin n) (drain n) (initial max_size) := by
  intro h
  obtain ⟨w,hw,hl⟩ := lend_all max_size n hm
  obtain ⟨u,hu,hlu⟩ := return_half max_size n (n/2) w (by omega) hl
  obtain ⟨t,ht,hsize⟩ := return_shrinks max_size n u hn hlu
  rw [drain, along_append] at h
  have hlast := h.2 u (by rw [run_append_ok hw, hu])
  have hkeep := hlast.1 true (n/2) t rfl ht (by rw [hlu.pool])
  omega

end Drained

/-- The pools whose size never falls below their least size by a return, in any
sequence of operations, are those configured with at most the default of two,
and those that cannot reach their least size at all. -/
theorem min_size_kept_iff {κ α : Type} (pool_key : κ) (min_size max_size : ℤ)
    (conn_config : ConnConfig α) :
    let config := newConfig pool_key min_size max_size conn_config
    (∀ ops, Along opStep (KeepsMin config.min_size) ops (initial config.max_size)) ↔
      config.min_size ≤ poolDefaultMinSize ∨ config.max_size < config.min_size := by
  intro config
  constructor
  · intro h
    by_contra hc
    simp only [not_or, not_le, not_lt, poolDefaultMinSize] at hc
    obtain ⟨n,hn⟩ := Int.eq_ofNat_of_zero_le (by omega : 0 ≤ config.min_size)
    rw [hn] at h hc
    exact drain_shrinks config.max_size n (by omega) hc.2 (h (drain n))
  · rintro (h | h) ops
    · exact along_of_kept (I := fun _ => True) (fun _ _ _ _ _ => trivial)
        (fun w o _ => reclaim_keeps_default w o _ h) ops _ trivial
    · by_cases hd : config.min_size ≤ poolDefaultMinSize
      · exact along_of_kept (I := fun _ => True) (fun _ _ _ _ _ => trivial)
          (fun w o _ => reclaim_keeps_default w o _ hd) ops _ trivial
      · simp only [poolDefaultMinSize] at hd
        exact keeps_unreached _ _ (by omega) h ops

/-- Least size three, greatest eight: three connections are lent, two come back,
and two are left. -/
theorem min_size_undercut :
    (run opStep [.get true true .done,.get true true .done,.get true true .done,.reclaim true 0]
        (initial 8)).map (fun w => w.pool.size) = .ok 3 ∧
      (run opStep [.get true true .done,.get true true .done,.get true true .done,.reclaim true 0,
        .reclaim true 1] (initial 8)).map (fun w => w.pool.size) = .ok 2 := by
  decide

end Duda.MariadbPoolSize
