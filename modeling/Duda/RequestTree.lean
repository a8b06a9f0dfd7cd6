import Duda.Runs
import Duda.SearchTree

/-!
# The per-thread tree of running requests

`duda_dr_list_add` descends by socket number, `duda_dr_list_get` by request
pointer. The red-black operations of Monkey are a parameter: they may rotate
and recolour, and keep the in-order sequence of the nodes that hang below the
root. Registrations and deletions are compared with the set of requests that
were registered and not deleted.
-/

set_option autoImplicit false

namespace Duda.RequestTree
open Duda.Runs Duda.SearchTree

/-- `duda_request_t`, as far as the tree reads it. -/
structure Dr where
  socket : ℤ
  request : ℕ
  deriving DecidableEq, Repr

/-- Monkey's `rb_insert_color` and `rb_erase`. -/
structure RbOps where
  insertColor : ColorTree Dr → Dr → ColorTree Dr
  erase : ColorTree Dr → Dr → ColorTree Dr
  insertColor_inorder : ∀ t n, inorder (insertColor t n) = inorder t
  erase_inorder : ∀ t n, (inorder t).Nodup → inorder (erase t n) = (inorder t).erase n

def drListAdd (ops : RbOps) (t : ColorTree Dr) (dr : Dr) : ColorTree Dr :=
  ops.insertColor (link Dr.socket dr t) dr

def drListGet (t : ColorTree Dr) (sr : ℕ) : Option Dr := search Dr.request sr t

def drListDel (ops : RbOps) (t : ColorTree Dr) (sr : ℕ) : ColorTree Dr :=
  match drListGet t sr with
  | none => t
  | some dr => ops.erase t dr

/-- `serviceRun` is the registration in `duda_service_run` for a request that
arrives on a socket, `delete` is `duda_dr_list_del`. -/
inductive Action where
  | serviceRun (socket : ℤ) (sr : ℕ)
  | delete (sr : ℕ)
  deriving DecidableEq, Repr

/-- The tree with the requests registered and not deleted. -/
structure State where
  tree : ColorTree Dr
  live : List Dr

def initial : State := ⟨.nil,[]⟩

def step (ops : RbOps) (s : State) : Action → Except Empty State
  | .serviceRun socket sr =>
    match drListGet s.tree sr with
    | some _ => .ok s
    | none => .ok ⟨drListAdd ops s.tree ⟨socket,sr⟩,⟨socket,sr⟩::s.live⟩
  | .delete sr => .ok ⟨drListDel ops s.tree sr,s.live.filter (fun d => d.request ≠ sr)⟩

def Reachable (s : State) : Prop :=
  ∀ sr, drListGet s.tree sr = s.live.find? (fun d => d.request = sr)

def Agree (x d : Dr) : Prop :=
  (x.socket < d.socket ∧ x.request < d.request) ∨ (d.socket < x.socket ∧ d.request < x.request)

/-- A new request compares with every registered one by socket as it does by
pointer; in particular it shares a socket with none of them. -/
def OrdersAgree (s : State) : Action → Prop
  | .serviceRun socket sr => drListGet s.tree sr = none → ∀ d ∈ s.live, Agree ⟨socket,sr⟩ d
  | .delete _ => True

structure Inv (s : State) : Prop where
  perm : (inorder s.tree).Perm s.live
  bySocket : Increasing Dr.socket (inorder s.tree)
  byRequest : Increasing Dr.request (inorder s.tree)

theorem initial_inv : Inv initial := ⟨List.Perm.nil,List.Pairwise.nil,List.Pairwise.nil⟩

variable (ops : RbOps) (s : State) (x : Dr)

theorem inv_get (hi : Inv s) (d : Dr) (hd : d ∈ s.live) : drListGet s.tree d.request = some d :=
  search_increasing Dr.request s.tree hi.byRequest d (hi.perm.mem_iff.mpr hd)

theorem inv_reachable (hi : Inv s) : Reachable s := by
  intro sr
  cases hf : s.live.find? (fun d => d.request = sr) with
  | some d =>
    have hr : d.request = sr := by simpa using List.find?_some hf
    rw [← hr]
    exact inv_get s hi d (List.mem_of_find?_eq_some hf)
  | none =>
    cases hg : drListGet s.tree sr with
    | none => rfl
    | some d =>
      obtain ⟨hm,hr⟩ := search_mem Dr.request sr s.tree d hg
      have hn := List.find?_eq_none.mp hf d (hi.perm.mem_iff.mp hm)
      simp [hr] at hn

theorem get_none_fresh (hi : Inv s) (sr : ℕ) (h : drListGet s.tree sr = none) (d : Dr)
    (hd : d ∈ s.live) : d.request ≠ sr := by
  intro he
  rw [← he, inv_get s hi d hd] at h
  cases h

theorem delete_keeps (sr : ℕ) (hi : Inv s) :
    Inv ⟨drListDel ops s.tree sr,s.live.filter (fun d => d.request ≠ sr)⟩ := by
  have hnodup := increasing_nodup Dr.socket _ hi.bySocket
  cases hg : drListGet s.tree sr with
  | none =>
    have hl : s.live.filter (fun d => d.request ≠ sr) = s.live := by
      rw [List.filter_eq_self]
      intro d hd
      simpa using get_none_fresh s hi sr hg d hd
    rw [drListDel, hg, hl]
    exact hi
  | some e =>
    obtain ⟨hm,hr⟩ := search_mem Dr.request sr s.tree e hg
    have hin : inorder (drListDel ops s.tree sr) = (inorder s.tree).erase e := by
      rw [drListDel, hg]
      exact ops.erase_inorder s.tree e hnodup
    have hsub : ((inorder s.tree).erase e).Sublist (inorder s.tree) := List.erase_sublist
    refine ⟨?_,?_,?_⟩
    · rw [hin, hnodup.erase_eq_filter]
      have hf : (inorder s.tree).filter (· != e) =
          (inorder s.tree).filter (fun d => d.request ≠ sr) := by
        apply List.filter_congr
        intro d hd
        have hiff : d = e ↔ d.request = sr := by
          constructor
          · intro h
            rw [h, hr]
          · intro h
            exact increasing_injective Dr.request _ hi.byRequest d e hd hm (h.trans hr.symm)
        by_cases hde : d = e <;> simp [hde, ← hiff, hr]
      rw [hf]
      exact hi.perm.filter _
    · rw [hin]
      exact hi.bySocket.sublist hsub
    · rw [hin]
      exact hi.byRequest.sublist hsub

/-- Where sockets differ, the new node enters the sequence at its place by
socket and nothing is lost. -/
theorem add_split (hi : Inv s) (hx : ∀ d ∈ s.live, d.socket ≠ x.socket) :
    ∃ us vs, inorder s.tree = us++vs ∧ inorder (drListAdd ops s.tree x) = us++x::vs ∧
      (∀ y ∈ us, y.socket < x.socket) ∧ ∀ y ∈ vs, x.socket < y.socket := by
  obtain ⟨us,vs,he,hk,hu,hv⟩ := link_split Dr.socket x s.tree hi.bySocket
    (fun y hy => hx y (hi.perm.mem_iff.mp hy))
  exact ⟨us,vs,he,by rw [drListAdd, ops.insertColor_inorder, hk],hu,hv⟩

theorem agree_request {x y : Dr} (h : Agree x y) :
    (y.socket < x.socket → y.request < x.request) ∧
      (x.socket < y.socket → x.request < y.request) := by
  simp only [Agree] at h
  constructor <;> omega

theorem add_keeps (hi : Inv s) (hg : ∀ d ∈ s.live, Agree x d) :
    Inv ⟨drListAdd ops s.tree x,x::s.live⟩ := by
  obtain ⟨us,vs,he,hin,hu,hv⟩ := add_split ops s x hi (fun d hd => by
    have := hg d hd
    simp only [Agree] at this
    omega)
  have hlive : ∀ y ∈ us++vs, Agree x y := fun y hy => hg y (hi.perm.mem_iff.mp (he ▸ hy))
  have hu' : ∀ y ∈ us, y.request < x.request :=
    fun y hy => (agree_request (hlive y (by simp [hy]))).1 (hu y hy)
  have hv' : ∀ y ∈ vs, x.request < y.request :=
    fun y hy => (agree_request (hlive y (by simp [hy]))).2 (hv y hy)
  constructor
  · rw [hin]
    apply List.perm_middle.trans
    exact (he ▸ hi.perm).cons x
  · rw [hin, increasing_insert, ← he]
    exact ⟨hi.bySocket,hu,hv⟩
  · rw [hin, increasing_insert, ← he]
    exact ⟨hi.byRequest,hu',hv'⟩

theorem found_in_tree (hi : Inv s) (hf : ∀ d ∈ s.live, d.request ≠ x.request)
    (hr : Reachable ⟨drListAdd ops s.tree x,x::s.live⟩) (d : Dr) (hd : d ∈ x::s.live) :
    search Dr.request d.request (drListAdd ops s.tree x) = some d := by
  have h := hr d.request
  simp only [drListGet] at h
  rw [h]
  rcases List.mem_cons.mp hd with rfl | hd
  · simp
  · rw [List.find?_cons_of_neg (by simpa using (hf d hd).symm)]
    rw [← inv_reachable s hi d.request]
    exact inv_get s hi d hd

theorem add_agree (hi : Inv s) (hf : ∀ d ∈ s.live, d.request ≠ x.request)
    (hr : Reachable ⟨drListAdd ops s.tree x,x::s.live⟩) (d : Dr) (hd : d ∈ s.live) : Agree x d := by
  have hfound := found_in_tree ops s x hi hf hr
  have hsocket : ∀ e ∈ s.live, e.socket ≠ x.socket := by
    intro e he
    have hm := (search_mem Dr.request _ _ e (hfound e (by simp [he]))).1
    rw [drListAdd, ops.insertColor_inorder] at hm
    rcases link_loses Dr.socket x s.tree hi.bySocket e hm with rfl | h
    · exact absurd rfl (hf e he)
    · exact h
  obtain ⟨us,vs,he,hin,hu,hv⟩ := add_split ops s x hi hsocket
  have hby : Increasing Dr.socket (inorder (drListAdd ops s.tree x)) := by
    rw [hin, increasing_insert, ← he]
    exact ⟨hi.bySocket,hu,hv⟩
  have hreq : Increasing Dr.request (inorder (drListAdd ops s.tree x)) := by
    apply increasing_of_search Dr.request _ (increasing_nodup Dr.socket _ hby)
    intro e hm
    apply hfound
    rw [hin] at hm
    have hp : (us++x::vs).Perm (x::s.live) :=
      List.perm_middle.trans ((he ▸ hi.perm).cons x)
    exact hp.mem_iff.mp hm
  rw [hin, increasing_insert] at hreq
  have hd' : d ∈ us++vs := he ▸ hi.perm.mem_iff.mpr hd
  rcases List.mem_append.mp hd' with h | h
  · exact Or.inr ⟨hu d h,hreq.2.1 d h⟩
  · exact Or.inl ⟨hv d h,hreq.2.2 d h⟩

theorem step_keeps (a : Action) (t : State) (hi : Inv s)
    (hg : Taken OrdersAgree s a (Except.ok t : Except Empty State)) (h : step ops s a = .ok t) :
    Inv t := by
  have hagree := hg t rfl
  cases a with
  | delete sr =>
    cases h
    exact delete_keeps ops s sr hi
  | serviceRun socket sr =>
    simp only [step] at h
    split at h
    · cases h
      exact hi
    · next hn =>
      cases h
      exact add_keeps ops s ⟨socket,sr⟩ hi (hagree hn)

theorem step_reachable_iff (a : Action) (hi : Inv s) :
    After Reachable s a (step ops s a) ↔ Taken OrdersAgree s a (step ops s a) := by
  constructor
  · intro h t ht
    cases a with
    | delete sr => trivial
    | serviceRun socket sr =>
      intro hn
      simp only [step, hn] at h
      exact add_agree ops s ⟨socket,sr⟩ hi (get_none_fresh s hi sr hn) (h _ rfl)
  · intro h t ht
    exact inv_reachable t (step_keeps ops s a t hi (ht ▸ h) ht)

/-- Every registered request stays reachable along a run exactly when each
new one sorts by socket among the registered ones as it sorts by pointer. -/
theorem dr_list_reachable_iff (ops : RbOps) (as : List Action) :
    Along (step ops) (After Reachable) as initial ↔
      Along (step ops) (Taken OrdersAgree) as initial :=
  along_iff (step_keeps ops) (step_reachable_iff ops) as initial initial_inv

def blackenRoot : ColorTree Dr → ColorTree Dr
  | .nil => .nil
  | .node _ l x r => .node .black l x r

def join : ColorTree Dr → ColorTree Dr → ColorTree Dr
  | .nil, r => r
  | .node c l x m, r => .node c l x (join m r)

def remove (n : Dr) : ColorTree Dr → ColorTree Dr
  | .nil => .nil
  | .node c l x r =>
    if n ∈ inorder l then .node c (remove n l) x r
    else if x = n then join l r
    else .node c l x (remove n r)

theorem join_inorder (l r : ColorTree Dr) : inorder (join l r) = inorder l++inorder r := by
  induction l with
  | nil => rfl
  | node c l x m ihl ihm => simp [join, inorder, ihm]

theorem remove_inorder (n : Dr) (t : ColorTree Dr) :
    inorder (remove n t) = (inorder t).erase n := by
  induction t with
  | nil => rfl
  | node c l x r ihl ihr =>
    by_cases h1 : n ∈ inorder l
    · simp [remove, h1, inorder, ihl, List.erase_append]
    · by_cases h2 : x = n
      · simp [remove, h1, h2, inorder, join_inorder, List.erase_append]
      · simp [remove, h1, h2, inorder, ihr, List.erase_append]

/-- The plainest operations with the in-order laws: the root is coloured black,
and a node is erased by joining its subtrees. -/
def plainOps : RbOps where
  insertColor := fun t _ => blackenRoot t
  erase := fun t n => remove n t
  insertColor_inorder := fun t _ => by cases t <;> rfl
  erase_inorder := fun t n _ => remove_inorder n t

/-- Two requests on sockets 4 and 5 whose pointers sort the other way round:
the second one is never found. Two requests on one socket: the first one is
cut off the tree. -/
theorem dr_list_loses :
    Yields (run (step plainOps) [.serviceRun 4 200,.serviceRun 5 100] initial)
      (fun s => ⟨5,100⟩ ∈ s.live ∧ drListGet s.tree 100 = none) ∧
    Yields (run (step plainOps) [.serviceRun 4 100,.serviceRun 4 200] initial)
      (fun s => ⟨4,100⟩ ∈ s.live ∧ drListGet s.tree 100 = none) := by
  decide

end Duda.RequestTree
