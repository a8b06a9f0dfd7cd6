import Mathlib.Tactic

/-!
# Search and linking in binary trees

The tree is kept abstract from its balancing: nodes carry a colour, and the
in-order sequence is what rotations preserve. A search by one key finds every
node exactly when the in-order sequence increases in that key, for any shape
of the tree. Linking descends by a key of its own and writes the new node at
the link where the descent stops, whatever that link held.
-/

set_option autoImplicit false

namespace Duda.SearchTree

inductive Color where
  | red
  | black
  deriving DecidableEq, Repr

inductive ColorTree (α : Type*) where
  | nil
  | node (color : Color) (left : ColorTree α) (value : α) (right : ColorTree α)
  deriving DecidableEq, Repr

variable {α K : Type*} [LinearOrder K]

def inorder : ColorTree α → List α
  | .nil => []
  | .node _ l x r => inorder l++x::inorder r

def search (key : α → K) (q : K) : ColorTree α → Option α
  | .nil => none
  | .node _ l x r =>
    if q < key x then search key q l
    else if key x < q then search key q r
    else some x

def link (key : α → K) (x : α) : ColorTree α → ColorTree α
  | .nil => .node .red .nil x .nil
  | .node c l y r =>
    if key x < key y then .node c (link key x l) y r
    else if key y < key x then .node c l y (link key x r)
    else .node .red .nil x .nil

def Increasing (key : α → K) (xs : List α) : Prop := xs.Pairwise (fun a b => key a < key b)

variable (key : α → K)

theorem increasing_insert (us vs : List α) (x : α) :
    Increasing key (us++x::vs) ↔
      Increasing key (us++vs) ∧ (∀ y ∈ us, key y < key x) ∧ ∀ y ∈ vs, key x < key y := by
  simp only [Increasing, List.pairwise_append, List.pairwise_cons, List.mem_cons]
  constructor
  · rintro ⟨hu,⟨hx,hv⟩,huv⟩
    exact ⟨⟨hu,hv,fun a ha b hb => huv a ha b (Or.inr hb)⟩,fun a ha => huv a ha x (Or.inl rfl),hx⟩
  · rintro ⟨⟨hu,hv,huv⟩,hux,hxv⟩
    refine ⟨hu,⟨hxv,hv⟩,?_⟩
    rintro a ha b (rfl | hb)
    · exact hux a ha
    · exact huv a ha b hb

theorem increasing_node (c : Color) (l r : ColorTree α) (x : α) :
    Increasing key (inorder (.node c l x r)) ↔
      Increasing key (inorder l) ∧ Increasing key (inorder r) ∧
      (∀ a ∈ inorder l, key a < key x) ∧ ∀ b ∈ inorder r, key x < key b := by
  rw [inorder, increasing_insert, Increasing, List.pairwise_append]
  constructor
  · rintro ⟨⟨hl,hr,_⟩,hlx,hxr⟩
    exact ⟨hl,hr,hlx,hxr⟩
  · rintro ⟨hl,hr,hlx,hxr⟩
    exact ⟨⟨hl,hr,fun a ha b hb => (hlx a ha).trans (hxr b hb)⟩,hlx,hxr⟩

theorem search_mem (q : K) (t : ColorTree α) (a : α) (h : search key q t = some a) :
    a ∈ inorder t ∧ key a = q := by
  induction t with
  | nil => cases h
  | node c l x r ihl ihr =>
    simp only [search] at h
    split_ifs at h with h1 h2
    · have := ihl h
      simp [inorder, this.1, this.2]
    · have := ihr h
      simp [inorder, this.1, this.2]
    · cases h
      exact ⟨by simp [inorder],le_antisymm (not_lt.mp h1) (not_lt.mp h2)⟩

theorem search_increasing (t : ColorTree α) (hs : Increasing key (inorder t)) (a : α)
    (ha : a ∈ inorder t) : search key (key a) t = some a := by
  induction t with
  | nil => simp [inorder] at ha
  | node c l x r ihl ihr =>
    obtain ⟨hl,hr,hlx,hxr⟩ := (increasing_node key c l r x).mp hs
    simp only [inorder, List.mem_append, List.mem_cons] at ha
    rcases ha with ha | rfl | ha
    · simp only [search, if_pos (hlx a ha), ihl hl ha]
    · simp only [search, if_neg (lt_irrefl _)]
    · simp only [search, if_neg (hxr a ha).not_gt, if_pos (hxr a ha), ihr hr ha]

/-- The converse, for every shape: a node that the search for its own key
passes on the wrong side is not found. -/
theorem increasing_of_search (t : ColorTree α) (hn : (inorder t).Nodup)
    (h : ∀ a ∈ inorder t, search key (key a) t = some a) : Increasing key (inorder t) := by
  induction t with
  | nil => exact List.Pairwise.nil
  | node c l x r ihl ihr =>
    simp only [inorder, List.nodup_append, List.nodup_cons, List.mem_cons] at hn
    obtain ⟨hnl,⟨hxr,hnr⟩,hdisj⟩ := hn
    have hleft : ∀ a ∈ inorder l, key a < key x ∧ search key (key a) l = some a := by
      intro a ha
      have hs := h a (by simp [inorder, ha])
      simp only [search] at hs
      split_ifs at hs with h1 h2
      · exact ⟨h1,hs⟩
      · exact absurd rfl (hdisj a ha a (Or.inr (search_mem key _ r a hs).1))
      · exact absurd (Option.some.inj hs).symm (hdisj a ha x (Or.inl rfl))
    have hright : ∀ a ∈ inorder r, key x < key a ∧ search key (key a) r = some a := by
      intro a ha
      have hs := h a (by simp [inorder, ha])
      simp only [search] at hs
      split_ifs at hs with h1 h2
      · exact absurd rfl (hdisj a (search_mem key _ l a hs).1 a (Or.inr ha))
      · exact ⟨h2,hs⟩
      · exact absurd ((Option.some.inj hs).symm ▸ ha) hxr
    rw [increasing_node]
    exact ⟨ihl hnl (fun a ha => (hleft a ha).2),ihr hnr (fun a ha => (hright a ha).2),
      fun a ha => (hleft a ha).1,fun a ha => (hright a ha).1⟩

theorem increasing_nodup (xs : List α) (h : Increasing key xs) : xs.Nodup :=
  h.imp (fun hlt he => absurd (he ▸ hlt) (lt_irrefl _))

theorem increasing_injective (xs : List α) (h : Increasing key xs) (a b : α) (ha : a ∈ xs)
    (hb : b ∈ xs) (he : key a = key b) : a = b := by
  have hp : xs.Pairwise (fun x y => key x = key y → x = y) :=
    h.imp (fun hlt hk => absurd (hk ▸ hlt) (lt_irrefl _))
  have hsym : Std.Symm (fun x y => key x = key y → x = y) :=
    ⟨fun x y hxy hk => (hxy hk.symm).symm⟩
  exact hp.forall_of_forall (fun x _ _ => rfl) ha hb he

/-- Linking a fresh key splits the sequence where the key belongs. -/
theorem link_split (x : α) (t : ColorTree α) (hs : Increasing key (inorder t))
    (hx : ∀ y ∈ inorder t, key y ≠ key x) :
    ∃ us vs, inorder t = us++vs ∧ inorder (link key x t) = us++x::vs ∧
      (∀ y ∈ us, key y < key x) ∧ ∀ y ∈ vs, key x < key y := by
  induction t with
  | nil => exact ⟨[],[],rfl,rfl,by simp,by simp⟩
  | node c l y r ihl ihr =>
    obtain ⟨hl,hr,hlx,hxr⟩ := (increasing_node key c l r y).mp hs
    have hy : key y ≠ key x := hx y (by simp [inorder])
    by_cases h1 : key x < key y
    · obtain ⟨us,vs,he,hk,hu,hv⟩ := ihl hl (fun z hz => hx z (by simp [inorder, hz]))
      refine ⟨us,vs++y::inorder r,by simp [inorder, he],by simp [link, h1, inorder, hk],hu,?_⟩
      intro z hz
      simp only [List.mem_append, List.mem_cons] at hz
      rcases hz with hz | rfl | hz
      · exact hv z hz
      · exact h1
      · exact h1.trans (hxr z hz)
    · have h2 : key y < key x := lt_of_le_of_ne (not_lt.mp h1) hy
      obtain ⟨us,vs,he,hk,hu,hv⟩ := ihr hr (fun z hz => hx z (by simp [inorder, hz]))
      refine ⟨inorder l++y::us,vs,by simp [inorder, he],by simp [link, h1, h2, inorder, hk],?_,hv⟩
      intro z hz
      simp only [List.mem_append, List.mem_cons] at hz
      rcases hz with hz | rfl | hz
      · exact (hlx z hz).trans h2
      · exact h2
      · exact hu z hz

/-- A node with the key of the new one is overwritten, not kept beside it. -/
theorem link_loses (x : α) (t : ColorTree α) (hs : Increasing key (inorder t)) (y : α)
    (hy : y ∈ inorder (link key x t)) : y = x ∨ key y ≠ key x := by
  induction t with
  | nil => simp [link, inorder] at hy; exact Or.inl hy
  | node c l z r ihl ihr =>
    obtain ⟨hl,hr,hlx,hxr⟩ := (increasing_node key c l r z).mp hs
    simp only [link] at hy
    split_ifs at hy with h1 h2
    · simp only [inorder, List.mem_append, List.mem_cons] at hy
      rcases hy with hy | rfl | hy
      · exact ihl hl hy
      · exact Or.inr h1.ne'
      · exact Or.inr (h1.trans (hxr y hy)).ne'
    · simp only [inorder, List.mem_append, List.mem_cons] at hy
      rcases hy with hy | rfl | hy
      · exact Or.inr ((hlx y hy).trans h2).ne
      · exact Or.inr h2.ne
      · exact ihr hr hy
    · simp only [inorder, List.nil_append, List.mem_singleton] at hy
      exact Or.inl hy

end Duda.SearchTree
