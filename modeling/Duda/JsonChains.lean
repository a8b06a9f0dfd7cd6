import Duda.JsonItems

/-!
# The chains of the items

A forest and the memory that stands for it. What the functions of `cJSON.c` write to the
pointers is one exchange: between the items before and behind a place of a chain, one item
or none is put in place of another or none.
-/

set_option autoImplicit false

namespace Duda.JsonChains
open Duda.CString Duda.LinkedChain Duda.JsonItems

section Representation

structure Represents (h : Heap) (s : Items) : Prop where
  count : h.count = s.count
  live : ∀ x, x ∈ s.live ↔ ∃ n, h.cells x = some n
  flag : ∀ x n, h.cells x = some n → n.isReference = s.reference x
  name : ∀ x n, h.cells x = some n → n.string = s.name x
  chain : ∀ x n, h.cells x = some n → s.reference x = false →
    Chain h.next h.prev n.child (s.kids x)
  root : ∀ x n, h.cells x = some n → (∀ a, x ∉ s.kids a) → n.next = none ∧ n.prev = none

variable {h : Heap} {s : Items}

theorem Represents.cell (hr : Represents h s) {x : ℕ} (hx : x ∈ s.live) :
    ∃ n, h.cells x = some n := (hr.live x).1 hx

theorem Represents.array (hr : Represents h s) {a : ℕ} (ha : s.Holder a) :
    ∃ n, h.cells a = some n ∧ Chain h.next h.prev n.child (s.kids a) := by
  obtain ⟨n,hn⟩ := hr.cell ha.1
  exact ⟨n,hn,hr.chain a n hn ha.2⟩

theorem kids_length (hs : s.Sound) (a : ℕ) : (s.kids a).length ≤ s.count := by
  have hsub : (s.kids a).toFinset ⊆ Finset.range s.count := fun x hx => by
    rw [Finset.mem_range]
    exact hs.inside x (hs.kid a x (List.mem_toFinset.1 hx))
  calc (s.kids a).length = (s.kids a).toFinset.card :=
        (List.toFinset_card_of_nodup (hs.forest.nodup a)).symm
    _ ≤ (Finset.range s.count).card := Finset.card_le_card hsub
    _ = s.count := Finset.card_range _

end Representation

section Loops

variable {h : Heap} {s : Items}

/-- The part of a chain that begins at some item. -/
structure Segment (h : Heap) (xs : List ℕ) : Prop where
  live : ∀ x ∈ xs, ∃ n, h.cells x = some n
  next : ∀ l x r, xs = l++x::r → h.next x = r.head?

theorem Segment.head {x : ℕ} {xs : List ℕ} (hx : Segment h (x::xs)) :
    ∃ n, h.cells x = some n ∧ n.next = xs.head? := by
  obtain ⟨n,hn⟩ := hx.live x (by simp)
  refine ⟨n,hn,?_⟩
  have hnext := hx.next [] x xs rfl
  rwa [Heap.next, hn, Option.bind_some] at hnext

theorem Segment.tail {x : ℕ} {xs : List ℕ} (hx : Segment h (x::xs)) : Segment h xs :=
  ⟨fun y hy => hx.live y (List.mem_cons_of_mem x hy),
    fun l y r hs => hx.next (x::l) y r (by rw [hs]; rfl)⟩

theorem segment_kids (hs : s.Sound) (hr : Represents h s) {a : ℕ} {n : Node}
    (hn : h.cells a = some n) (href : s.reference a = false) :
    n.child = (s.kids a).head? ∧ Segment h (s.kids a) := by
  have hc := hr.chain a n hn href
  exact ⟨hc.first,fun x hx => hr.cell (hs.kid a x hx),fun l x r hx => (hc.links l x r hx).2⟩

theorem kids_segment (hs : s.Sound) (hr : Represents h s) {a : ℕ} (ha : s.Holder a) :
    ∃ n, h.cells a = some n ∧ n.child = (s.kids a).head? ∧ Segment h (s.kids a) := by
  obtain ⟨n,hn⟩ := hr.cell ha.1
  exact ⟨n,hn,segment_kids hs hr hn ha.2⟩

theorem walk_segment {xs : List ℕ} (hx : Segment h xs) (k : ℕ) :
    walk h k xs.head? = some xs[k]? := by
  induction xs generalizing k with
  | nil => cases k <;> rfl
  | cons x xs ih =>
    cases k with
    | zero => rfl
    | succ k =>
      obtain ⟨n,hn,hnext⟩ := hx.head
      rw [List.head?_cons, walk, hn, Option.bind_some, hnext, ih hx.tail]
      rfl

theorem lastLoop_segment {x : ℕ} {xs : List ℕ} (hx : Segment h (x::xs)) (k : ℕ)
    (hk : xs.length < k) : ∃ y, (x::xs).getLast? = some y ∧ lastLoop h k x = some y := by
  induction xs generalizing x k with
  | nil =>
    cases k with
    | zero => omega
    | succ k =>
      obtain ⟨n,hn,hnext⟩ := hx.head
      exact ⟨x,rfl,by rw [lastLoop, hn, Option.bind_some, hnext]; rfl⟩
  | cons z xs ih =>
    cases k with
    | zero => omega
    | succ k =>
      obtain ⟨n,hn,hnext⟩ := hx.head
      obtain ⟨y,hy,hloop⟩ := ih hx.tail k (by simpa using hk)
      refine ⟨y,by rw [List.getLast?_cons_cons, hy],?_⟩
      rw [lastLoop, hn, Option.bind_some, hnext]
      exact hloop

theorem sizeLoop_segment {xs : List ℕ} (hx : Segment h xs) (k : ℕ) (hk : xs.length < k) :
    sizeLoop h k xs.head? = some xs.length := by
  induction xs generalizing k with
  | nil =>
    cases k with
    | zero => omega
    | succ k => rfl
  | cons x xs ih =>
    cases k with
    | zero => omega
    | succ k =>
      obtain ⟨n,hn,hnext⟩ := hx.head
      rw [List.head?_cons, sizeLoop, hn, Option.bind_some, hnext,
        ih hx.tail k (by simpa using hk)]
      rfl

theorem load_represents (hr : Represents h s) {string : StringArg} (hg : s.Given string) :
    h.load string = some (s.load string) := by
  cases string with
  | text t => rfl
  | nameOf x =>
    obtain ⟨n,hn⟩ := hr.cell hg
    rw [Heap.load, hn, Option.map_some, hr.name x n hn]
    rfl

theorem findLoop_segment (hr : Represents h s) {string : StringArg} (hg : s.Given string)
    {xs : List ℕ} (hx : Segment h xs) (k i : ℕ) (hk : xs.length < k) :
    findLoop h string k i xs.head? = some (s.member (s.load string) i xs) := by
  induction xs generalizing k i with
  | nil =>
    cases k with
    | zero => omega
    | succ k => rfl
  | cons x xs ih =>
    cases k with
    | zero => omega
    | succ k =>
      obtain ⟨n,hn,hnext⟩ := hx.head
      rw [List.head?_cons, findLoop, hn, Option.bind_some, load_represents hr hg,
        Option.bind_some, hr.name x n hn, hnext, ih hx.tail k (i+1) (by simpa using hk),
        Items.member]
      split_ifs <;> rfl

end Loops

section Splicing

variable {h : Heap} {s : Items}

theorem map_id (h : Heap) : h.map (fun _ n => n) = h := by
  cases h
  simp [Heap.map]

theorem map_congr {g g' : ℕ → Node → Node} (hg : ∀ x n, h.cells x = some n → g x n = g' x n) :
    h.map g = h.map g' := by
  simp only [Heap.map, Heap.mk.injEq, true_and]
  funext x
  cases hx : h.cells x with
  | none => rfl
  | some n => rw [Option.map_some, Option.map_some, hg x n hx]

theorem map_cell {g : ℕ → Node → Node} {x : ℕ} {m : Node} (hx : (h.map g).cells x = some m) :
    ∃ n, h.cells x = some n ∧ m = g x n := by
  obtain ⟨n,hn,hm⟩ := Option.map_eq_some_iff.1 hx
  exact ⟨n,hn,hm.symm⟩

theorem map_modify (g : ℕ → Node → Node) {x : ℕ} {n : Node} (hx : h.cells x = some n)
    (f : Node → Node) :
    (h.map g).modify x f = some (h.map fun y m => if x = y then f (g y m) else g y m) := by
  have hcell : (h.map g).cells x = some (g x n) := by simp [Heap.map, hx]
  rw [Heap.modify, hcell, Option.map_some]
  simp only [Heap.map, Option.some.injEq, Heap.mk.injEq, true_and]
  funext y
  by_cases hy : x = y
  · subst hy
    simp [hx]
  · simp [hy, Function.update_of_ne (Ne.symm hy)]

/-- What becomes of an item when the children of `a` are `l`, `y` and `r` instead of `l`, `c`
and `r`. -/
def exchange (a : ℕ) (l : List ℕ) (c y : Option ℕ) (r : List ℕ) (x : ℕ) (n : Node) : Node :=
  { n with
    child := if a = x then (l++(y.toList++r)).head? else n.child
    next := if c = some x then none else if y = some x then r.head?
      else if l.getLast? = some x then (y.toList++r).head? else n.next
    prev := if c = some x then none else if y = some x then l.getLast?
      else if r.head? = some x then (l++y.toList).getLast? else n.prev }

theorem setKids_self (s : Items) (a : ℕ) (xs : List ℕ) : (s.setKids a xs).kids a = xs := by
  simp [Items.setKids]

theorem setKids_other (s : Items) {a b : ℕ} (xs : List ℕ) (hb : b ≠ a) :
    (s.setKids a xs).kids b = s.kids b := by
  simp [Items.setKids, hb]

variable {a : ℕ} {l r : List ℕ} {c y : Option ℕ}

theorem map_next (g : ℕ → Node → Node) {x : ℕ} {n : Node} (hx : h.cells x = some n) :
    (h.map g).next x = (g x n).next ∧ h.next x = n.next := by
  simp [Heap.next, Heap.map, hx]

theorem map_prev (g : ℕ → Node → Node) {x : ℕ} {n : Node} (hx : h.cells x = some n) :
    (h.map g).prev x = (g x n).prev ∧ h.prev x = n.prev := by
  simp [Heap.prev, Heap.map, hx]

/-- An item that is none of those at the cut keeps its place in its chain. -/
theorem exchange_keeps {x : ℕ} {n : Node} (hx : h.cells x = some n)
    (hxa : x ∉ l++(c.toList++r)) (hy : y ≠ some x) :
    (h.map (exchange a l c y r)).next x = h.next x ∧
      (h.map (exchange a l c y r)).prev x = h.prev x := by
  have hc : c ≠ some x := by
    rintro rfl
    simp at hxa
  have hl : l.getLast? ≠ some x := fun he => hxa (by
    simp [List.mem_of_getLast? he])
  have hr : r.head? ≠ some x := fun he => hxa (by
    simp [List.mem_of_head? he])
  rw [(map_next _ hx).1, (map_next (exchange a l c y r) hx).2, (map_prev _ hx).1,
    (map_prev (exchange a l c y r) hx).2]
  simp [exchange, hc, hy, hl, hr]

theorem exchange_chain (hs : s.Sound) (hr : Represents h s) {n : Node} (hn : h.cells a = some n)
    (href : s.reference a = false) (hk : s.kids a = l++(c.toList++r))
    (hy : ∀ x, y = some x → s.Root x) :
    Chain (h.map (exchange a l c y r)).next (h.map (exchange a l c y r)).prev
      (l++(y.toList++r)).head? (l++(y.toList++r)) := by
  have hchain := hr.chain a n hn href
  have hd := hs.forest.nodup a
  rw [hk] at hchain hd
  have hcell : ∀ x ∈ l++(c.toList++r), ∃ m, h.cells x = some m := fun x hx =>
    hr.cell (hs.kid a x (hk ▸ hx))
  have hyx : ∀ x ∈ l++(c.toList++r), y ≠ some x := fun x hx he => (hy x he).2 a (hk ▸ hx)
  have hcut := List.nodup_append'.1 hd
  have hcut' := List.nodup_append'.1 hcut.2.1
  refine hchain.splice hd rfl ?_ ?_ ?_ ?_ ?_
  · intro x hx
    have hxa : x ∈ l++(c.toList++r) := List.mem_append_left _ hx
    obtain ⟨m,hm⟩ := hcell x hxa
    have hc : c ≠ some x := fun he => hcut.2.2 hx (by simp [he])
    have hhead : r.head? ≠ some x := fun he => hcut.2.2 hx (by simp [List.mem_of_head? he])
    rw [(map_prev _ hm).1, (map_prev (exchange a l c y r) hm).2]
    simp [exchange, hc, hyx x hxa, hhead]
  · intro x hx
    have hxa : x ∈ l++(c.toList++r) := List.mem_append_left _ hx
    obtain ⟨m,hm⟩ := hcell x hxa
    have hc : c ≠ some x := fun he => hcut.2.2 hx (by simp [he])
    rw [(map_next _ hm).1, (map_next (exchange a l c y r) hm).2]
    simp [exchange, hc, hyx x hxa]
  · intro x hx
    have hxa : x ∈ l++(c.toList++r) := by simp [hx]
    obtain ⟨m,hm⟩ := hcell x hxa
    have hc : c ≠ some x := fun he => hcut'.2.2 (by simp [he]) hx
    have hlast : l.getLast? ≠ some x := fun he =>
      hcut.2.2 (List.mem_of_getLast? he) (by simp [hx])
    rw [(map_next _ hm).1, (map_next (exchange a l c y r) hm).2]
    simp [exchange, hc, hyx x hxa, hlast]
  · intro x hx
    have hxa : x ∈ l++(c.toList++r) := by simp [hx]
    obtain ⟨m,hm⟩ := hcell x hxa
    have hc : c ≠ some x := fun he => hcut'.2.2 (by simp [he]) hx
    rw [(map_prev _ hm).1, (map_prev (exchange a l c y r) hm).2]
    simp [exchange, hc, hyx x hxa]
  · intro u x v hu
    obtain ⟨rfl,rfl,rfl⟩ : y = some x ∧ u = [] ∧ v = [] := by
      cases y with
      | none => simp at hu
      | some z =>
        cases u with
        | nil => simpa [eq_comm] using hu
        | cons w u => simp at hu
    obtain ⟨m,hm⟩ := hr.cell (hy x rfl).1
    have hc : c ≠ some x := fun he => (hy x rfl).2 a (by simp [hk, he])
    rw [(map_prev _ hm).1, (map_next _ hm).1]
    simp [exchange, hc]

/-- The pointers that are written make the new list of children. -/
theorem exchange_represents (hs : s.Sound) (hr : Represents h s) (ha : s.Holder a)
    (hk : s.kids a = l++(c.toList++r)) (hy : ∀ x, y = some x → s.Root x) :
    Represents (h.map (exchange a l c y r)) (s.setKids a (l++(y.toList++r))) := by
  obtain ⟨m,hm⟩ := hr.cell ha.1
  refine ⟨hr.count,fun x => ?_,fun x n' hx => ?_,fun x n' hx => ?_,fun x n' hx hx0 => ?_,
    fun x n' hx hroot => ?_⟩
  · rw [Items.setKids, hr.live x, Heap.map]
    simp
  · obtain ⟨n,hn,rfl⟩ := map_cell hx
    exact hr.flag x n hn
  · obtain ⟨n,hn,rfl⟩ := map_cell hx
    exact hr.name x n hn
  · obtain ⟨n,hn,rfl⟩ := map_cell hx
    by_cases hxa : x = a
    · subst hxa
      have hchain := exchange_chain hs hr hm ha.2 hk hy
      simpa [Items.setKids, exchange] using hchain
    · have hother : Chain (h.map (exchange a l c y r)).next (h.map (exchange a l c y r)).prev
          n.child (s.kids x) := by
        refine (hr.chain x n hn hx0).congr fun z hz => ?_
        obtain ⟨w,hw⟩ := hr.cell (hs.kid x z hz)
        refine exchange_keeps hw (fun hmem => hxa ?_) (fun he => (hy z he).2 x hz)
        exact hs.forest.parent x a z hz (hk ▸ hmem)
      simpa [Items.setKids, exchange, Function.update_of_ne hxa, Ne.symm hxa] using hother
  · obtain ⟨n,hn,rfl⟩ := map_cell hx
    have hnew := hroot a
    rw [setKids_self] at hnew
    by_cases hc : c = some x
    · simp [exchange, hc]
    · have hold : ∀ b, x ∉ s.kids b := by
        intro b hb
        by_cases hba : b = a
        · subst hba
          rw [hk] at hb
          simp only [List.mem_append, Option.mem_toList] at hb hnew
          tauto
        · exact hroot b (by rwa [setKids_other s _ hba])
      have hyx : y ≠ some x := fun he => hnew (by simp [he])
      have hkeep := exchange_keeps (a := a) (l := l) (c := c) (r := r) hn (hk ▸ hold a) hyx
      rw [(map_next _ hn).1, (map_next (exchange a l c y r) hn).2, (map_prev _ hn).1,
        (map_prev (exchange a l c y r) hn).2] at hkeep
      rw [hkeep.1, hkeep.2]
      exact hr.root x n hn hold

/-- The new list of children is sound, when the new child is in no chain and the array is not
below it. -/
theorem exchange_sound (hs : s.Sound) (ha : s.Holder a) (hk : s.kids a = l++(c.toList++r))
    (hy : ∀ x, y = some x → s.Root x ∧ ¬Under s.kids x a) :
    (s.setKids a (l++(y.toList++r))).Sound := by
  have hmem : ∀ x ∈ l++(y.toList++r), x ∈ s.kids a ∨ y = some x := by
    intro x hx
    rw [hk]
    simp only [List.mem_append, Option.mem_toList] at hx ⊢
    tauto
  have hkids : ∀ b x, x ∈ (s.setKids a (l++(y.toList++r))).kids b →
      x ∈ s.kids b ∨ (b = a ∧ y = some x) := by
    intro b x hx
    by_cases hba : b = a
    · subst hba
      rw [setKids_self] at hx
      exact (hmem x hx).imp id fun he => ⟨rfl,he⟩
    · rw [setKids_other s _ hba] at hx
      exact .inl hx
  refine ⟨hs.inside,fun b x hx => ?_,fun b hb => ?_,fun b hb => ?_,⟨fun b => ?_,?_,?_⟩⟩
  · rcases hkids b x hx with hold | ⟨_,he⟩
    · exact hs.kid b x hold
    · exact (hy x he).1.1
  · have hba : b ≠ a := fun he => hb (he ▸ ha.1)
    rw [setKids_other s _ hba]
    exact hs.dead b hb
  · have hba : b ≠ a := by
      rintro rfl
      simp [Items.setKids, ha.2] at hb
    rw [setKids_other s _ hba]
    exact hs.bare b hb
  · by_cases hba : b = a
    · subst hba
      rw [setKids_self]
      have hd := hs.forest.nodup b
      rw [hk] at hd
      have hno : ∀ x, y = some x → x ∉ l ∧ x ∉ r := fun x he => by
        have := (hy x he).1.2 b
        rw [hk] at this
        simp only [List.mem_append] at this
        tauto
      cases y with
      | none => exact hd.sublist (by simp)
      | some x =>
        have hlr : (l++r).Nodup := hd.sublist (by simp)
        have hx := hno x rfl
        simp only [Option.toList_some, List.singleton_append]
        rw [List.nodup_middle, List.nodup_cons]
        exact ⟨by simp [hx.1, hx.2],hlr⟩
    · rw [setKids_other s _ hba]
      exact hs.forest.nodup b
  · intro b b' x hb hb'
    rcases hkids b x hb with hold | ⟨rfl,he⟩
    · rcases hkids b' x hb' with hold' | ⟨rfl,he'⟩
      · exact hs.forest.parent b b' x hold hold'
      · exact absurd hold ((hy x he').1.2 b)
    · rcases hkids b' x hb' with hold' | ⟨rfl,_⟩
      · exact absurd hold' ((hy x he).1.2 b')
      · rfl
  · cases y with
    | none =>
      have hsub : ∀ b x, x ∈ (s.setKids a (l++(none.toList++r))).kids b → x ∈ s.kids b :=
        fun b x hx => (hkids b x hx).resolve_right (by simp)
      exact ⟨fun z => Subrelation.accessible (fun hx => hsub _ _ hx) (hs.forest.acyclic.apply z)⟩
    | some z =>
      refine acyclic_add hs.forest.acyclic (hy z rfl).2 fun b x hx => ?_
      exact (hkids b x hx).imp id fun ⟨hb,he⟩ => ⟨hb,(Option.some.inj he).symm⟩

end Splicing

section Operations

variable {h : Heap} {s : Items} {a : ℕ} {l r : List ℕ} {c : ℕ}

theorem map_modifyAt (g : ℕ → Node → Node) {p : Option ℕ}
    (hp : ∀ x, p = some x → ∃ n, h.cells x = some n) (f : Node → Node) :
    (h.map g).modifyAt p f = some (h.map fun y m => if p = some y then f (g y m) else g y m) := by
  cases p with
  | none => simp [Heap.modifyAt]
  | some x =>
    obtain ⟨n,hn⟩ := hp x rfl
    simp only [Heap.modifyAt, map_modify g hn, Option.some.injEq]

theorem ite_node (p : Prop) [Decidable p] (m n : Node) : (if p then m else n) =
    ⟨if p then m.next else n.next,if p then m.prev else n.prev,if p then m.child else n.child,
      if p then m.isReference else n.isReference,if p then m.string else n.string⟩ := by
  split_ifs <;> rfl

theorem setKids_kids (s : Items) (a : ℕ) : s.setKids a (s.kids a) = s := by
  simp [Items.setKids]

theorem addItemToArray_spec (hs : s.Sound) (hr : Represents h s) (ha : s.Holder a) {x : ℕ}
    (hx : s.Root x) :
    ∃ h', addItemToArray h a x = some h' ∧ Represents h' (s.setKids a (s.kids a++[x])) := by
  obtain ⟨n,hn,hchild,hseg⟩ := kids_segment hs hr ha
  obtain ⟨nx,hnx⟩ := hr.cell hx.1
  have hrep := exchange_represents (l := s.kids a) (r := []) (c := none) (y := some x) hs hr ha
    (by simp) (fun z hz => Option.some.inj hz ▸ hx)
  refine ⟨_,?_,by simpa using hrep⟩
  rw [addItemToArray, hn, Option.bind_some, hchild]
  cases hk : s.kids a with
  | nil =>
    simp only [List.head?_nil]
    rw [← map_id h, map_modify _ hn, map_id]
    refine congrArg some (map_congr fun z m hz => ?_)
    have hbare : z = x → m.next = none ∧ m.prev = none := by
      rintro rfl
      exact hr.root z m hz hx.2
    ext1 <;> simp only [exchange, ite_node, Option.some.injEq, ite_self] <;> split_ifs <;>
      simp_all
  | cons w l =>
    rw [hk] at hseg
    have hlen := kids_length hs a
    rw [hk, ← hr.count, List.length_cons] at hlen
    obtain ⟨p,hp,hloop⟩ := lastLoop_segment hseg h.count (by omega)
    obtain ⟨np,hnp⟩ := hseg.live p (List.mem_of_getLast? hp)
    have hpx : p ≠ x := fun he => hx.2 a (by rw [hk, ← he]; exact List.mem_of_getLast? hp)
    simp only [List.head?_cons]
    rw [hloop, Option.bind_some, suffixObject, ← map_id h, map_modify _ hnp, Option.bind_some,
      map_modify _ hnx, map_id]
    refine congrArg some (map_congr fun z m hz => ?_)
    have hbare : z = x → m.next = none ∧ m.prev = none := by
      rintro rfl
      exact hr.root z m hz hx.2
    have hfirst : z = a → m.child = some w := by
      rintro rfl
      rw [(hr.chain z m hz ha.2).first, hk]
      rfl
    ext1 <;> simp only [exchange, ite_node, Option.some.injEq, ite_self] <;> split_ifs <;>
      simp_all

/-- The item `c` in the chain of `a`, between `l` and `r`. -/
structure Place (h : Heap) (a : ℕ) (l : List ℕ) (c : ℕ) (r : List ℕ) (n m : Node) : Prop where
  array : h.cells a = some n
  item : h.cells c = some m
  prev : m.prev = l.getLast?
  next : m.next = r.head?
  live : ∀ x, x ∈ l ∨ x ∈ r → ∃ k, h.cells x = some k
  head : n.child = (l++c::r).head?
  first : n.child = some c ↔ l = []
  reached : walk h l.length n.child = some (some c)

theorem place_of_kids (hs : s.Sound) (hr : Represents h s) (ha : s.Holder a)
    (hk : s.kids a = l++c::r) : ∃ n m, Place h a l c r n m := by
  obtain ⟨n,hn,hchild,hseg⟩ := kids_segment hs hr ha
  obtain ⟨m,hm⟩ := hr.cell (hs.kid a c (by rw [hk]; simp))
  have hlinks := (hr.chain a n hn ha.2).links l c r hk
  have hd := hs.forest.nodup a
  rw [Heap.prev, Heap.next, hm] at hlinks
  rw [hk] at hchild hseg hd
  refine ⟨n,m,hn,hm,hlinks.1,hlinks.2,fun x hx => hseg.live x (by simp; tauto),hchild,?_,?_⟩
  · rw [hchild]
    cases l with
    | nil => simp
    | cons w l =>
      have hwc : w ≠ c := by
        rintro rfl
        simp at hd
      simpa using hwc
  · rw [hchild, walk_segment hseg]
    simp

theorem Place.child {x : ℕ} {n m k : Node} (hp : Place h a l c r n m)
    (hx : h.cells x = some k) (hxa : x = a) : k.child = (l++c::r).head? := by
  rw [hxa, hp.array, Option.some.injEq] at hx
  rw [← hx, hp.head]

theorem detach_middle (hs : s.Sound) (hr : Represents h s) (ha : s.Holder a)
    (hk : s.kids a = l++c::r) (which : ℤ) (hw : which.toNat = l.length) :
    ∃ h', detachItemFromArray h a which = some (h',some c) ∧
      Represents h' (s.setKids a (l++r)) := by
  obtain ⟨n,m,hp⟩ := place_of_kids hs hr ha hk
  have hrep := exchange_represents (l := l) (r := r) (c := some c) (y := none) hs hr ha
    (by simpa using hk) (by simp)
  refine ⟨_,?_,by simpa using hrep⟩
  rw [detachItemFromArray, hp.array, Option.bind_some, hw, hp.reached, Option.bind_some]
  simp only
  rw [hp.item, Option.bind_some, hp.prev, hp.next, ← map_id h,
    map_modifyAt _ fun x hx => hp.live x (.inl (List.mem_of_getLast? hx)), Option.bind_some,
    map_modifyAt _ fun x hx => hp.live x (.inr (List.mem_of_head? hx)), Option.bind_some, map_id]
  by_cases hl : l = []
  · rw [if_pos (hp.first.2 hl), map_modify _ hp.array, Option.bind_some, map_modify _ hp.item,
      Option.map_some]
    refine congrArg some (Prod.ext (map_congr fun z k hz => ?_) rfl)
    have hchild := hp.child hz
    ext1 <;> simp only [exchange, ite_node, Option.some.injEq, ite_self] <;> split_ifs <;>
      simp_all
  · rw [if_neg fun h => hl (hp.first.1 h), Option.bind_some, map_modify _ hp.item,
      Option.map_some]
    obtain ⟨w,l,rfl⟩ := List.exists_cons_of_ne_nil hl
    refine congrArg some (Prod.ext (map_congr fun z k hz => ?_) rfl)
    have hchild := hp.child hz
    ext1 <;> simp only [exchange, ite_node, Option.some.injEq, ite_self] <;> split_ifs <;>
      simp_all

/-- The pointers that `cJSON_ReplaceItemInArray` writes before it deletes the old item. -/
theorem replace_middle (hs : s.Sound) (hr : Represents h s) (ha : s.Holder a) {y : ℕ}
    (hk : s.kids a = l++c::r) (which : ℤ) (hw : which.toNat = l.length) (hy : s.Root y) :
    ∃ h', replaceItemInArray h a which y = cjsonDelete h' (some c) ∧
      Represents h' (s.setKids a (l++y::r)) := by
  obtain ⟨n,m,hp⟩ := place_of_kids hs hr ha hk
  obtain ⟨ny,hny⟩ := hr.cell hy.1
  have hrep := exchange_represents (l := l) (r := r) (c := some c) (y := some y) hs hr ha
    (by simpa using hk) (fun z hz => Option.some.inj hz ▸ hy)
  refine ⟨_,?_,by simpa using hrep⟩
  have hyk : y ∉ l ∧ y ≠ c ∧ y ∉ r := by
    have hno := hy.2 a
    rw [hk] at hno
    simpa using hno
  have hrhead : ∀ z, r.head? = some z → z ≠ y := fun z hz he =>
    hyk.2.2 (he ▸ List.mem_of_head? hz)
  rw [replaceItemInArray, hp.array, Option.bind_some, hw, hp.reached, Option.bind_some]
  simp only
  rw [hp.item, Option.bind_some, hp.prev, hp.next, ← map_id h, map_modify _ hny, Option.bind_some,
    map_modifyAt _ fun x hx => hp.live x (.inr (List.mem_of_head? hx)), Option.bind_some, map_id]
  by_cases hl : l = []
  · subst hl
    rw [if_pos (hp.first.2 rfl), map_modify _ hp.array, Option.bind_some, map_modify _ hp.item,
      Option.bind_some]
    refine congrArg (cjsonDelete · (some c)) (map_congr fun z k hz => ?_)
    have hchild := hp.child hz
    ext1 <;> simp only [exchange, ite_node, Option.some.injEq, ite_self] <;> split_ifs <;>
      simp_all
  · obtain ⟨q,hq⟩ : ∃ q, l.getLast? = some q := ⟨l.getLast hl,List.getLast?_eq_some_getLast hl⟩
    obtain ⟨nq,hnq⟩ := hp.live q (.inl (List.mem_of_getLast? hq))
    have hqy : q ≠ y := fun he => hyk.1 (he ▸ List.mem_of_getLast? hq)
    rw [if_neg fun h => hl (hp.first.1 h), hq, Option.bind_some, map_modify _ hnq,
      Option.bind_some, map_modify _ hp.item, Option.bind_some]
    obtain ⟨w,l,rfl⟩ := List.exists_cons_of_ne_nil hl
    have hend : (w::(l++[y])).getLast? = some y := by
      rw [← List.cons_append, List.getLast?_concat]
    refine congrArg (cjsonDelete · (some c)) (map_congr fun z k hz => ?_)
    have hchild := hp.child hz
    ext1 <;> simp only [exchange, ite_node, Option.some.injEq, ite_self] <;> split_ifs <;>
      simp_all

end Operations

end Duda.JsonChains
