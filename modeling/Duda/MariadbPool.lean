import Duda.Runs
import Mathlib.Data.Finset.Card

/-!
# The pool of MariaDB connections

A pool counts its connections and keeps the idle ones in a list. A connection
is created when none is idle, goes to the caller, and comes back at the end of
the list; while more than half of the connections are idle, the first ones are
released.
-/

set_option autoImplicit false

namespace Duda.MariadbPool
open Duda.Runs

/-- `mariadb_pool_t`, with `max_size` from its configuration. -/
structure Pool where
  max_size : ℤ
  size : ℤ
  free_size : ℤ
  free_conns : List ℕ
  deriving DecidableEq, Repr

/-- `MARIADB_POOL_DEFAULT_MIN_SIZE`. -/
def poolDefaultMinSize : ℤ := 2

inductive Fault where
  | notEnabled
  | emptyList
  | useAfterFree
  deriving DecidableEq, Repr

/-- `mariadb_pool_t` as `mariadb_pool_get_conn` creates it. -/
def poolCreate (max_size : ℤ) : Pool := ⟨max_size,0,0,[]⟩

section Pools

variable (p : Pool)

/-- `__mariadb_pool_spawn_conn` for `MARIADB_POOL_DEFAULT_SIZE`, which is one
connection; `created` is what `mariadb_conn_create` returns. -/
def spawnConn (created : Option ℕ) : Pool × Bool :=
  let p := match created with
    | some c =>
      { p with free_conns := p.free_conns++[c], size := p.size+1, free_size := p.free_size+1 }
    | none => p
  (p,p.free_size ≠ 0)

/-- The first idle connection is taken off the list. -/
def takeConn : Except Fault (ℕ × Pool) :=
  match p.free_conns with
  | [] => .error .emptyList
  | c::cs => .ok (c,{ p with free_conns := cs, free_size := p.free_size-1 })

/-- The condition of the shrink loop. -/
def Surplus : Prop := p.size < p.free_size*2 ∧ poolDefaultMinSize < p.size

instance : Decidable (Surplus p) := inferInstanceAs (Decidable (_ ∧ _))

/-- What `__mariadb_pool_release_conn` does to the counters. -/
def dropped : Pool := { p with size := p.size-1, free_size := p.free_size-1 }

end Pools

/-- The shrink loop, over what is left in the list; every turn is one
`__mariadb_pool_release_conn`. The connections that it releases are returned. -/
def shrinkLoop : List ℕ → Pool → Except Fault (List ℕ × Pool)
  | [], p => if Surplus p then .error .emptyList else .ok ([],{ p with free_conns := [] })
  | c::cs, p =>
    if Surplus p then (shrinkLoop cs (dropped p)).map (fun r => (c::r.1,r.2))
    else .ok ([],{ p with free_conns := c::cs })

/-- The part of the two reclaim functions that works on the pool. -/
def reclaim (p : Pool) (c : ℕ) : Except Fault (List ℕ × Pool) :=
  shrinkLoop (p.free_conns++[c]) { p with free_size := p.free_size+1 }

/-- `mariadb_pool_reclaim_conn`; the shrink loop releases with
`mariadb_async_handle_release`. -/
def poolReclaimConn (p : Pool) (c : ℕ) : Except Fault (List ℕ × Pool) := reclaim p c

/-- `mariadb_dthread_pool_reclaim_conn`; the shrink loop releases with
`mariadb_dthread_disconnect`. -/
def dthreadPoolReclaimConn (p : Pool) (c : ℕ) : Except Fault (List ℕ × Pool) := reclaim p c

/-- What connecting a new connection comes to: at once, or later. -/
inductive Connect where
  | done
  | blocks
  | fails
  deriving DecidableEq, Repr

/-- The pool with the connections created so far, those in the hands of the
callers, those that still connect, and those that are not freed. -/
structure Worker where
  pool : Pool
  next : ℕ
  borrowed : Finset ℕ
  connecting : Finset ℕ
  live : Finset ℕ
  deriving DecidableEq

def initial (max_size : ℤ) : Worker := ⟨poolCreate max_size,0,∅,∅,∅⟩

/-- The connection `c` is freed; the pool does not learn of it. -/
def Worker.freed (w : Worker) (c : ℕ) : Worker :=
  { w with borrowed := w.borrowed.erase c, connecting := w.connecting.erase c,
           live := w.live.erase c }

/-- The connection `c` is not freed, and nobody can return it any more. -/
def Worker.stranded (w : Worker) (c : ℕ) : Worker :=
  { w with borrowed := w.borrowed.erase c, connecting := w.connecting.erase c }

def Worker.lent (w : Worker) (c : ℕ) : Worker := { w with borrowed := insert c w.borrowed }

/-- The end of `mariadb_pool_get_conn` for a new connection, which is freed when
connecting it fails at once. The asynchronous call then goes on with it: it
stores the request and the callback in it, and passes it to the callback. -/
def connectConn (w : Worker) (isAsync : Bool) (c : ℕ) : Connect → Except Fault Worker
  | .done => .ok (w.lent c)
  | .blocks => .ok { w.lent c with connecting := insert c w.connecting }
  | .fails => if isAsync then .error .useAfterFree else .ok (w.freed c)

/-- `mariadb_pool_get_conn`. The connection beyond `max_size` does not belong to
the pool, and an idle one is connected already; `created` is the success of
`mariadb_conn_create`. -/
def getConn (w : Worker) (isAsync created : Bool) (connect : Connect) : Except Fault Worker :=
  if w.pool.free_conns = [] then
    if w.pool.size < w.pool.max_size then
      let (p,ok) := spawnConn w.pool (if created then some w.next else none)
      let w := if created then { w with next := w.next+1, live := insert w.next w.live } else w
      if ok then (takeConn p).bind (fun (c,p) => connectConn { w with pool := p } isAsync c connect)
      else .ok { w with pool := p }
    else .ok { w with next := if created then w.next+1 else w.next }
  else (takeConn w.pool).bind (fun (c,p) =>
    if c ∈ w.live then .ok ({ w with pool := p }.lent c) else .error .useAfterFree)

def returnConn (w : Worker) (c : ℕ) (r : Except Fault (List ℕ × Pool)) : Except Fault Worker :=
  r.map (fun (released,p) =>
    { w with pool := p, borrowed := w.borrowed.erase c, connecting := w.connecting.erase c,
             live := w.live \ released.toFinset })

inductive Op where
  | get (isAsync created : Bool) (connect : Connect)
  | reclaim (isAsync : Bool) (c : ℕ)
  | connected (c : ℕ)
  | connectFails (isAsync : Bool) (c : ℕ)
  deriving DecidableEq, Repr

/-- A borrowed connection is returned at most once. A deferred connection that
fails is freed by `mariadb_dthread_connect`, and left in `CONN_STATE_CONNECTING`
by `mariadb_on_read`: `mariadb_async_handle_disconnect` then only marks it, so
that it is never returned. -/
def opStep (w : Worker) : Op → Except Fault Worker
  | .get isAsync created connect => getConn w isAsync created connect
  | .reclaim isAsync c =>
    if c ∈ w.borrowed then
      returnConn w c (if isAsync then poolReclaimConn w.pool c else dthreadPoolReclaimConn w.pool c)
    else .error .notEnabled
  | .connected c =>
    if c ∈ w.connecting then .ok { w with connecting := w.connecting.erase c }
    else .error .notEnabled
  | .connectFails isAsync c =>
    if c ∈ w.connecting then
      if isAsync then .ok (w.stranded c) else .ok (w.freed c)
    else .error .notEnabled

/-- The pool after the shrink loop: the connections released were the first of
the list, they are off both counters, and at least one connection is left. -/
structure Shrunk (cs : List ℕ) (p : Pool) (released : List ℕ) (q : Pool) : Prop where
  split : cs = released++q.free_conns
  size : q.size = p.size-released.length
  free_size : q.free_size = p.free_size-released.length
  max_size : q.max_size = p.max_size
  stopped : ¬Surplus q
  left : cs ≠ [] → q.free_conns ≠ []

/-- As long as more than half of at least three connections are idle, two are. -/
theorem surplus_two (p : Pool) (n : ℕ) (hs : Surplus p) (hc : p.free_size = n) : 2 ≤ n := by
  obtain ⟨hfree,hmin⟩ := hs
  rw [poolDefaultMinSize] at hmin
  omega

theorem shrinkLoop_shrunk (cs : List ℕ) (p : Pool) (hc : p.free_size = cs.length) :
    ∃ released q, shrinkLoop cs p = .ok (released,q) ∧ Shrunk cs p released q := by
  induction cs generalizing p with
  | nil =>
    have hs : ¬Surplus p := fun hs => absurd (surplus_two p 0 hs hc) (by omega)
    exact ⟨[],{ p with free_conns := [] },if_neg hs,⟨rfl,by simp,by simp,rfl,hs,fun h => h⟩⟩
  | cons c cs ih =>
    by_cases hs : Surplus p
    · have htwo := surplus_two p _ hs hc
      have hcs : cs ≠ [] := by
        rintro rfl
        exact absurd htwo (by simp)
      have hlen : (dropped p).free_size = cs.length := by
        have : (dropped p).free_size = p.free_size-1 := rfl
        rw [this, hc, List.length_cons]
        push_cast
        omega
      obtain ⟨released,q,hr,h⟩ := ih (dropped p) hlen
      refine ⟨c::released,q,by simp [shrinkLoop, hs, hr, Except.map],?_⟩
      have hsize : (dropped p).size = p.size-1 := rfl
      have hfree : (dropped p).free_size = p.free_size-1 := rfl
      refine ⟨by rw [h.split, List.cons_append],?_,?_,h.max_size,h.stopped,fun _ => h.left hcs⟩
      · rw [h.size, hsize, List.length_cons]
        push_cast
        omega
      · rw [h.free_size, hfree, List.length_cons]
        push_cast
        omega
    · exact ⟨[],{ p with free_conns := c::cs },if_neg hs,
        ⟨rfl,by simp,by simp,rfl,hs,fun h => h⟩⟩

/-- The connection that is returned is the last of the list, and stays. -/
theorem shrunk_keeps (cs : List ℕ) (c : ℕ) (p q : Pool) (released : List ℕ)
    (h : Shrunk (cs++[c]) p released q) : c ∈ q.free_conns := by
  have hne : q.free_conns ≠ [] := h.left (by simp)
  have hlast : (cs++[c]).getLast? = q.free_conns.getLast? := by
    rw [h.split, List.getLast?_append_of_ne_nil _ hne]
  rw [List.getLast?_append_of_ne_nil _ (by simp), List.getLast?_singleton] at hlast
  exact List.mem_of_getLast? hlast.symm

/-- What holds between the counters, the list and the connections, whether or
not connections get lost. -/
structure Inv (w : Worker) : Prop where
  counted : w.pool.free_size = w.pool.free_conns.length
  distinct : w.pool.free_conns.Nodup
  apart : ∀ c ∈ w.pool.free_conns, c ∉ w.borrowed
  idle_live : ∀ c ∈ w.pool.free_conns, c ∈ w.live
  lent_live : ∀ c ∈ w.borrowed, c ∈ w.live
  pending : ∀ c ∈ w.connecting, c ∈ w.borrowed
  old : ∀ c ∈ w.live, c < w.next
  share : w.pool.free_size+w.borrowed.card ≤ w.pool.size
  bounded : w.pool.size ≤ max 0 w.pool.max_size

theorem initial_inv (max_size : ℤ) : Inv (initial max_size) := by
  constructor <;> simp [initial, poolCreate]

section Steps

variable (w : Worker) (c : ℕ)

theorem inv_connecting (s : Finset ℕ) (h : Inv w) (hs : ∀ d ∈ s, d ∈ w.borrowed) :
    Inv { w with connecting := s } :=
  ⟨h.counted,h.distinct,h.apart,h.idle_live,h.lent_live,hs,h.old,h.share,h.bounded⟩

theorem inv_lent (h : Inv w) (hl : c ∈ w.live) (hf : c ∉ w.pool.free_conns)
    (hs : w.pool.free_size+w.borrowed.card+1 ≤ w.pool.size) : Inv (w.lent c) where
  counted := h.counted
  distinct := h.distinct
  apart := by
    intro d hd hmem
    rcases Finset.mem_insert.mp hmem with rfl | hmem
    · exact hf hd
    · exact h.apart d hd hmem
  idle_live := h.idle_live
  lent_live := by
    intro d hd
    rcases Finset.mem_insert.mp hd with rfl | hd
    · exact hl
    · exact h.lent_live d hd
  pending := fun d hd => Finset.mem_insert_of_mem (h.pending d hd)
  old := h.old
  share := by
    have hcard := Finset.card_insert_le c w.borrowed
    have hpool : (w.lent c).pool = w.pool := rfl
    have hlent : (w.lent c).borrowed = insert c w.borrowed := rfl
    rw [hpool, hlent]
    omega
  bounded := h.bounded

theorem inv_stranded (h : Inv w) : Inv (w.stranded c) where
  counted := h.counted
  distinct := h.distinct
  apart := fun d hd hmem => h.apart d hd (Finset.mem_of_mem_erase hmem)
  idle_live := h.idle_live
  lent_live := fun d hd => h.lent_live d (Finset.mem_of_mem_erase hd)
  pending := by
    intro d hd
    obtain ⟨hne,hd⟩ := Finset.mem_erase.mp hd
    exact Finset.mem_erase.mpr ⟨hne,h.pending d hd⟩
  old := h.old
  share := by
    have hcard := Finset.card_erase_le (s := w.borrowed) (a := c)
    have hshare := h.share
    have hpool : (w.stranded c).pool = w.pool := rfl
    have hlent : (w.stranded c).borrowed = w.borrowed.erase c := rfl
    rw [hpool, hlent]
    omega
  bounded := h.bounded

theorem inv_freed (h : Inv w) (hf : c ∉ w.pool.free_conns) : Inv (w.freed c) :=
  have hs : Inv (w.stranded c) := inv_stranded w c h
  { hs with
    idle_live := by
      intro d hd
      refine Finset.mem_erase.mpr ⟨?_,h.idle_live d hd⟩
      rintro rfl
      exact hf hd
    lent_live := fun d hd =>
      Finset.mem_erase.mpr ⟨(Finset.mem_erase.mp hd).1,hs.lent_live d hd⟩
    old := fun d hd => h.old d (Finset.mem_of_mem_erase hd) }

def grown : Worker :=
  { w with pool := { w.pool with size := w.pool.size+1 }, next := w.next+1,
           live := insert w.next w.live }

theorem next_fresh (h : Inv w) : w.next ∉ w.live := fun hl => lt_irrefl _ (h.old _ hl)

theorem inv_grown (h : Inv w) (hlt : w.pool.size < w.pool.max_size) : Inv (grown w) where
  counted := h.counted
  distinct := h.distinct
  apart := h.apart
  idle_live := fun d hd => Finset.mem_insert_of_mem (h.idle_live d hd)
  lent_live := fun d hd => Finset.mem_insert_of_mem (h.lent_live d hd)
  pending := h.pending
  old := by
    intro d hd
    rcases Finset.mem_insert.mp hd with rfl | hd
    · exact Nat.lt_succ_self _
    · exact Nat.lt_succ_of_lt (h.old d hd)
  share := by
    have hshare := h.share
    simp only [grown]
    omega
  bounded := by
    simp only [grown]
    omega

def popped (cs : List ℕ) : Worker :=
  { w with pool := { w.pool with free_conns := cs, free_size := w.pool.free_size-1 } }

theorem inv_popped (cs : List ℕ) (h : Inv w) (hf : w.pool.free_conns = c::cs) :
    Inv (popped w cs) where
  counted := by
    have hc := h.counted
    rw [hf, List.length_cons] at hc
    simp only [popped]
    push_cast at hc
    omega
  distinct := (List.nodup_cons.mp (hf ▸ h.distinct)).2
  apart := fun d hd => h.apart d (hf ▸ List.mem_cons_of_mem c hd)
  idle_live := fun d hd => h.idle_live d (hf ▸ List.mem_cons_of_mem c hd)
  lent_live := h.lent_live
  pending := h.pending
  old := h.old
  share := by
    have hshare := h.share
    simp only [popped]
    omega
  bounded := h.bounded

/-- The pool after the shrink loop, with the connections that it closed. -/
def shrunkTo (q : Pool) (released : List ℕ) : Worker :=
  { w with pool := q, borrowed := w.borrowed.erase c, connecting := w.connecting.erase c,
           live := w.live \ released.toFinset }

theorem reclaim_nodup (h : Inv w) (hb : c ∈ w.borrowed) : (w.pool.free_conns++[c]).Nodup := by
  rw [List.nodup_append]
  refine ⟨h.distinct,List.nodup_singleton c,fun a ha b hb' => ?_⟩
  rintro rfl
  rw [List.mem_singleton] at hb'
  exact h.apart a ha (hb' ▸ hb)

theorem inv_shrunk (q : Pool) (released : List ℕ) (h : Inv w) (hb : c ∈ w.borrowed)
    (hq : Shrunk (w.pool.free_conns++[c]) { w.pool with free_size := w.pool.free_size+1 }
      released q) : Inv (shrunkTo w c q released) := by
  have hnodup := reclaim_nodup w c h hb
  have hsplit := hq.split
  have hlen := congrArg List.length hsplit
  rw [hsplit, List.nodup_append] at hnodup
  have hin : ∀ d ∈ q.free_conns, d ∈ w.pool.free_conns ∨ d = c := by
    intro d hd
    have hmem : d ∈ w.pool.free_conns++[c] := hsplit ▸ List.mem_append_right _ hd
    rwa [List.mem_append, List.mem_singleton] at hmem
  have hout : ∀ d ∈ released, d ∈ w.pool.free_conns ∨ d = c := by
    intro d hd
    have hmem : d ∈ w.pool.free_conns++[c] := hsplit ▸ List.mem_append_left _ hd
    rwa [List.mem_append, List.mem_singleton] at hmem
  have hkeeps := shrunk_keeps _ c _ q released hq
  have hcounted := h.counted
  have hshare := h.share
  have hfree := hq.free_size
  have hsize := hq.size
  have hmax := hq.max_size
  have hbound := h.bounded
  have hcard := Finset.card_erase_add_one hb
  simp only [List.length_append, List.length_singleton] at hlen
  simp only at hfree hsize hmax
  constructor
  · simp only [shrunkTo]
    omega
  · exact hnodup.2.1
  · intro d hd hmem
    obtain ⟨hne,hmem⟩ := Finset.mem_erase.mp hmem
    rcases hin d hd with hd | hd
    · exact h.apart d hd hmem
    · exact hne hd
  · intro d hd
    refine Finset.mem_sdiff.mpr ⟨?_,fun hr => hnodup.2.2 d (List.mem_toFinset.mp hr) d hd rfl⟩
    rcases hin d hd with hd | rfl
    · exact h.idle_live d hd
    · exact h.lent_live d hb
  · intro d hd
    obtain ⟨hne,hd⟩ := Finset.mem_erase.mp hd
    refine Finset.mem_sdiff.mpr ⟨h.lent_live d hd,fun hr => ?_⟩
    rcases hout d (List.mem_toFinset.mp hr) with hr | hr
    · exact h.apart d hr hd
    · exact hne hr
  · intro d hd
    obtain ⟨hne,hd⟩ := Finset.mem_erase.mp hd
    exact Finset.mem_erase.mpr ⟨hne,h.pending d hd⟩
  · exact fun d hd => h.old d (Finset.mem_sdiff.mp hd).1
  · simp only [shrunkTo]
    omega
  · simp only [shrunkTo]
    omega

end Steps

section Operations

variable (w : Worker)

/-- The request does not create a connection for an asynchronous caller that is
refused at once. -/
def Unrefused : Op → Prop
  | .get isAsync created connect =>
    isAsync = true → created = true → w.pool.free_conns = [] → w.pool.size < w.pool.max_size →
      connect ≠ .fails
  | .reclaim _ _ | .connected _ | .connectFails _ _ => True

instance (o : Op) : Decidable (Unrefused w o) :=
  match o with
  | .get _ _ _ => inferInstanceAs (Decidable (_ → _ → _ → _ → _))
  | .reclaim _ _ | .connected _ | .connectFails _ _ => inferInstanceAs (Decidable True)

variable (isAsync : Bool)

variable (o : Op) (created : Bool) (connect : Connect) (c : ℕ)

theorem getConn_idle (cs : List ℕ) (h : Inv w) (hf : w.pool.free_conns = c::cs) :
    getConn w isAsync created connect = .ok ((popped w cs).lent c) := by
  have hl : c ∈ w.live := h.idle_live c (by simp [hf])
  simp [getConn, takeConn, hf, Except.bind, hl, popped]

theorem getConn_new (h : Inv w) (hf : w.pool.free_conns = [])
    (hlt : w.pool.size < w.pool.max_size) :
    getConn w isAsync true connect = connectConn (grown w) isAsync w.next connect := by
  have hc : w.pool.free_size = 0 := by simpa [hf] using h.counted
  simp [getConn, spawnConn, takeConn, hf, hlt, hc, Except.bind, grown]

theorem getConn_null (h : Inv w) (hf : w.pool.free_conns = [])
    (hlt : w.pool.size < w.pool.max_size) : getConn w isAsync false connect = .ok w := by
  have hc : w.pool.free_size = 0 := by simpa [hf] using h.counted
  simp [getConn, spawnConn, hf, hlt, hc]

theorem getConn_beyond (hf : w.pool.free_conns = []) (hge : ¬w.pool.size < w.pool.max_size) :
    getConn w isAsync created connect =
      .ok { w with next := if created then w.next+1 else w.next } := by
  simp [getConn, hf, hge]

theorem inv_next (h : Inv w) : Inv { w with next := if created then w.next+1 else w.next } := by
  refine ⟨h.counted,h.distinct,h.apart,h.idle_live,h.lent_live,h.pending,?_,h.share,h.bounded⟩
  intro d hd
  have := h.old d hd
  cases created with
  | true => exact Nat.lt_succ_of_lt this
  | false => exact this

theorem inv_popped_lent (cs : List ℕ) (h : Inv w) (hf : w.pool.free_conns = c::cs) :
    Inv ((popped w cs).lent c) := by
  have hnodup : (c::cs).Nodup := hf ▸ h.distinct
  refine inv_lent _ c (inv_popped w c cs h hf) (h.idle_live c (by simp [hf]))
    (List.nodup_cons.mp hnodup).1 ?_
  have hshare := h.share
  simp only [popped]
  omega

theorem inv_grown_lent (h : Inv w) (hlt : w.pool.size < w.pool.max_size) :
    Inv ((grown w).lent w.next) := by
  refine inv_lent _ w.next (inv_grown w h hlt) (Finset.mem_insert_self _ _)
    (fun hf => next_fresh w h (h.idle_live _ hf)) ?_
  have hshare := h.share
  simp only [grown]
  omega

/-- The state after an operation on `w`. -/
structure Next (t : Worker) : Prop where
  inv : Inv t
  limit : t.pool.max_size = w.pool.max_size

theorem connectConn_next (h : Inv w) (hlt : w.pool.size < w.pool.max_size)
    (hu : isAsync = true → connect ≠ .fails) :
    ∃ t, connectConn (grown w) isAsync w.next connect = .ok t ∧ Next w t := by
  cases connect with
  | done => exact ⟨_,rfl,inv_grown_lent w h hlt,rfl⟩
  | blocks =>
    refine ⟨_,rfl,inv_connecting _ _ (inv_grown_lent w h hlt) (fun d hd => ?_),rfl⟩
    rcases Finset.mem_insert.mp hd with rfl | hd
    · exact Finset.mem_insert_self _ _
    · exact Finset.mem_insert_of_mem (h.pending d hd)
  | fails =>
    have hsync : ¬isAsync = true := fun hasync => hu hasync rfl
    exact ⟨_,if_neg hsync,inv_freed _ w.next (inv_grown w h hlt)
      (fun hf => next_fresh w h (h.idle_live _ hf)),rfl⟩

theorem getConn_next (h : Inv w) (hu : Unrefused w (.get isAsync created connect)) :
    ∃ t, getConn w isAsync created connect = .ok t ∧ Next w t := by
  cases hf : w.pool.free_conns with
  | cons c cs =>
    exact ⟨_,getConn_idle w isAsync created connect c cs h hf,inv_popped_lent w c cs h hf,rfl⟩
  | nil =>
    by_cases hlt : w.pool.size < w.pool.max_size
    · cases created with
      | true =>
        rw [getConn_new w isAsync connect h hf hlt]
        exact connectConn_next w isAsync connect h hlt (fun hasync => hu hasync rfl hf hlt)
      | false => exact ⟨_,getConn_null w isAsync connect h hf hlt,h,rfl⟩
    · exact ⟨_,getConn_beyond w isAsync created connect hf hlt,inv_next w created h,rfl⟩

/-- The connection that an asynchronous caller gets refused at once is used
after it is freed. -/
theorem opStep_refused (h : Inv w) (hn : ¬Unrefused w o) : opStep w o = .error .useAfterFree := by
  cases o with
  | get isAsync created connect =>
    simp only [Unrefused, not_forall, not_not] at hn
    obtain ⟨rfl,rfl,hf,hlt,rfl⟩ := hn
    exact getConn_new w true .fails h hf hlt
  | reclaim isAsync c => exact absurd trivial hn
  | connected c => exact absurd trivial hn
  | connectFails isAsync c => exact absurd trivial hn

/-- A borrowed connection comes back: the shrink loop ends, and the connection
is among the idle ones then. -/
theorem opStep_reclaim (h : Inv w) (hb : c ∈ w.borrowed) :
    ∃ released q, opStep w (.reclaim isAsync c) = .ok (shrunkTo w c q released) ∧
      Shrunk (w.pool.free_conns++[c]) { w.pool with free_size := w.pool.free_size+1 }
        released q := by
  have hlen : ({ w.pool with free_size := w.pool.free_size+1 } : Pool).free_size =
      (w.pool.free_conns++[c]).length := by
    simp [h.counted]
  obtain ⟨released,q,hr,hq⟩ := shrinkLoop_shrunk _ _ hlen
  refine ⟨released,q,?_,hq⟩
  simp [opStep, hb, poolReclaimConn, dthreadPoolReclaimConn, reclaim, hr, returnConn, Except.map,
    shrunkTo]

theorem inv_settled (h : Inv w) : Inv { w with connecting := w.connecting.erase c } :=
  inv_connecting w _ h (fun d hd => h.pending d (Finset.mem_of_mem_erase hd))

/-- An operation that is not possible is refused; every other one succeeds. -/
theorem opStep_next (h : Inv w) (hu : Unrefused w o) :
    opStep w o = .error .notEnabled ∨ ∃ t, opStep w o = .ok t ∧ Next w t := by
  cases o with
  | get isAsync created connect => exact .inr (getConn_next w isAsync created connect h hu)
  | reclaim isAsync c =>
    by_cases hb : c ∈ w.borrowed
    · obtain ⟨released,q,hr,hq⟩ := opStep_reclaim w isAsync c h hb
      exact .inr ⟨_,hr,inv_shrunk w c q released h hb hq,hq.max_size⟩
    · exact .inl (if_neg hb)
  | connected c =>
    by_cases hc : c ∈ w.connecting
    · exact .inr ⟨_,if_pos hc,inv_settled w c h,rfl⟩
    · exact .inl (if_neg hc)
  | connectFails isAsync c =>
    by_cases hc : c ∈ w.connecting
    · cases isAsync with
      | true => exact .inr ⟨_,if_pos hc,inv_stranded w c h,rfl⟩
      | false =>
        have hf : c ∉ w.pool.free_conns := fun hf => h.apart c hf (h.pending c hc)
        exact .inr ⟨_,if_pos hc,inv_freed w c h hf,rfl⟩
    · exact .inl (if_neg hc)

theorem opStep_unrefused (t : Worker) (h : Inv w) (ho : opStep w o = .ok t) : Unrefused w o := by
  by_contra hn
  cases (opStep_refused w o h hn).symm.trans ho

theorem opStep_kept (t : Worker) (h : Inv w) (ho : opStep w o = .ok t) : Next w t := by
  rcases opStep_next w o h (opStep_unrefused w o t h ho) with he | ⟨u,hu,hn⟩
  · cases he.symm.trans ho
  · cases hu.symm.trans ho
    exact hn

end Operations

/-- The counters agree with the list, no connection is in the list twice, and
the pool does not grow beyond its limit. -/
structure Balanced (p : Pool) : Prop where
  counted : p.free_size = p.free_conns.length
  distinct : p.free_conns.Nodup
  nonneg : 0 ≤ p.free_size
  le : p.free_size ≤ p.size
  bounded : p.size ≤ p.max_size

/-- The pool once the connection `c` was returned: the shrink loop has stopped,
and `c` was not released. -/
structure Settled (c : ℕ) (w : Worker) : Prop where
  stopped : w.pool.free_size*2 ≤ w.pool.size ∨ w.pool.size ≤ poolDefaultMinSize
  kept : c ∈ w.pool.free_conns
  live : c ∈ w.live

/-- What is expected of an operation: an error is only that of a call that is
not possible. In particular the list was not empty where a connection was taken
from it, and no memory was used after it was freed. -/
structure Regular (w : Worker) (o : Op) (r : Except Fault Worker) : Prop where
  fault : ∀ e, r = .error e → e = .notEnabled
  balanced : ∀ t, r = .ok t → Balanced t.pool
  settled : ∀ isAsync c t, o = .reclaim isAsync c → r = .ok t → Settled c t

theorem inv_balanced (w : Worker) (h : Inv w) (hm : 0 ≤ w.pool.max_size) : Balanced w.pool := by
  have hc := h.counted
  have hs := h.share
  have hb := h.bounded
  rw [max_eq_right hm] at hb
  exact ⟨hc,h.distinct,by omega,by omega,hb⟩

theorem shrunk_settled (w : Worker) (c : ℕ) (q : Pool) (released : List ℕ) (h : Inv w)
    (hb : c ∈ w.borrowed)
    (hq : Shrunk (w.pool.free_conns++[c]) { w.pool with free_size := w.pool.free_size+1 }
      released q) : Settled c (shrunkTo w c q released) := by
  have hkept := shrunk_keeps _ c _ q released hq
  refine ⟨?_,hkept,(inv_shrunk w c q released h hb hq).idle_live c hkept⟩
  have hstop := hq.stopped
  simp only [Surplus, shrunkTo] at hstop ⊢
  omega

theorem opStep_regular (w : Worker) (o : Op) (h : Inv w) (hm : 0 ≤ w.pool.max_size)
    (hu : Unrefused w o) : Regular w o (opStep w o) where
  fault := by
    intro e he
    rcases opStep_next w o h hu with hn | ⟨t,ht,_⟩
    · exact Except.error.inj (he.symm.trans hn)
    · cases he.symm.trans ht
  balanced := by
    intro t ht
    have hn := opStep_kept w o t h ht
    exact inv_balanced t hn.inv (hn.limit ▸ hm)
  settled := by
    rintro isAsync c t rfl ht
    by_cases hb : c ∈ w.borrowed
    · obtain ⟨released,q,hr,hq⟩ := opStep_reclaim w isAsync c h hb
      cases hr.symm.trans ht
      exact shrunk_settled w c q released h hb hq
    · simp [opStep, hb] at ht

/-- In a sequence of operations on a pool the counters stay right, and a
connection that is returned is kept, exactly when no asynchronous request is
refused at once. -/
theorem pool_regular_iff (max_size : ℤ) (hm : 1 ≤ max_size) (ops : List Op) :
    Along opStep Regular ops (initial max_size) ↔
      Along opStep (fun w o _ => Unrefused w o) ops (initial max_size) := by
  refine along_iff (I := fun w => Inv w ∧ 1 ≤ w.pool.max_size) ?_ ?_ ops _
    ⟨initial_inv max_size,hm⟩
  · intro w o t hi _ ht
    have hn := opStep_kept w o t hi.1 ht
    exact ⟨hn.inv,hn.limit ▸ hi.2⟩
  · intro w o hi
    refine ⟨fun hr => ?_,opStep_regular w o hi.1 (le_trans zero_le_one hi.2)⟩
    by_contra hn
    cases hr.fault _ (opStep_refused w o hi.1 hn)

/-- Three connections are lent and come back; the second one to come back makes
the pool release the first one. A fourth one is refused in a dthread. -/
theorem pool_regular_three :
    (1:ℤ) ≤ 8 ∧ Along opStep Regular [.get true true .done,.get false true .done,
      .get true true .blocks,.connected 2,.get false true .fails,.reclaim true 0,
      .reclaim false 1,.reclaim true 2] (initial 8) :=
  ⟨by decide,(pool_regular_iff 8 (by decide) _).mpr (by decide)⟩

/-- The first connection of a pool is refused at once to an asynchronous
caller. -/
theorem refused_connection_used :
    opStep (initial 8) (.get true true .fails) = .error .useAfterFree := by
  rfl

end Duda.MariadbPool
