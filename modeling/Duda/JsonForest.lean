import Duda.JsonChains

/-!
# The forest of the items

A tree is released item by item, each of them once. With the exchanges in the chains this
makes every call of a program on items a step of the forest, and what the call returns is
what the forest says.
-/

set_option autoImplicit false

namespace Duda.JsonForest
open Duda.CString Duda.LinkedChain Duda.JsonItems Duda.JsonChains

section Deletion

variable {h : Heap} {s : Items}

theorem below_nil : s.below [] = ∅ := by
  simp [Items.below]

theorem below_cons (x : ℕ) (xs : List ℕ) :
    s.below (x::xs) = insert x (s.below (s.kids x)) ∪ s.below xs := by
  ext z
  simp only [Items.below, Set.mem_ofPred_eq, List.mem_cons, exists_eq_or_imp, Set.mem_union,
    Set.mem_insert_iff]
  refine or_congr_left ⟨fun hz => ?_,fun hz => ?_⟩
  · rcases Relation.ReflTransGen.cases_head hz with rfl | ⟨y,hy,hyz⟩
    · exact .inl rfl
    · exact .inr ⟨y,hy,hyz⟩
  · rcases hz with rfl | ⟨y,hy,hyz⟩
    · exact .refl
    · exact .head hy hyz

theorem below_live (hs : s.Sound) {xs : List ℕ} (hx : ∀ x ∈ xs, x ∈ s.live) :
    s.below xs ⊆ s.live := by
  rintro z ⟨x,hxs,hz⟩
  induction hz with
  | refl => exact hx x hxs
  | tail _ hk _ => exact hs.kid _ _ hk

theorem below_finite (hs : s.Sound) {xs : List ℕ} (hx : ∀ x ∈ xs, x ∈ s.live) :
    (s.below xs).Finite :=
  (Set.finite_Iio s.count).subset fun z hz => hs.inside z (below_live hs hx hz)

theorem without_empty (h : Heap) : h.without ∅ = h := by
  simp [Heap.without]

theorem without_without (h : Heap) (S T : Set ℕ) : (h.without S).without T = h.without (S ∪ T) := by
  simp only [Heap.without, Heap.mk.injEq, true_and]
  funext x
  by_cases hST : x ∈ S ∪ T
  · rw [if_pos hST]
    rcases hST with hS | hT
    · simp [hS]
    · simp [hT]
  · rw [if_neg hST, if_neg fun hT => hST (.inr hT), if_neg fun hS => hST (.inl hS)]

theorem without_free {g : Heap} {S : Set ℕ} {x : ℕ} {n : Node} (hx : g.cells x = some n)
    (hS : x ∉ S) : (g.without S).free x = some (g.without (insert x S)) := by
  have hcell : (g.without S).cells x = some n := by simp [Heap.without, hS, hx]
  rw [Heap.free, hcell, Option.map_some]
  simp only [Heap.without, Option.some.injEq, Heap.mk.injEq, true_and]
  funext y
  by_cases hy : y = x
  · subst hy
    rw [Function.update_self, if_pos (Set.mem_insert _ _)]
  · rw [Function.update_of_ne hy]
    by_cases hyS : y ∈ S
    · rw [if_pos hyS, if_pos (Set.mem_insert_of_mem x hyS)]
    · rw [if_neg hyS, if_neg fun hin => hyS (hin.resolve_left hy)]

/-- A chain of trees is freed, each item of them once, and nothing else. -/
theorem deleteLoop_without (hs : s.Sound) (hr : Represents h s) (k : ℕ) (g : Heap) (xs : List ℕ)
    (hseg : Segment h xs) (hlive : ∀ x ∈ xs, x ∈ s.live) (hd : xs.Nodup)
    (hap : ∀ x ∈ xs, ∀ y ∈ xs, x ≠ y → ∀ z, Under s.kids x z → ¬Under s.kids y z)
    (hg : ∀ z ∈ s.below xs, g.cells z = h.cells z) (hk : (s.below xs).ncard < k) :
    deleteLoop k g xs.head? = some (g.without (s.below xs)) := by
  induction k generalizing g xs with
  | zero => omega
  | succ k ih =>
    cases xs with
    | nil => rw [below_nil, without_empty]; rfl
    | cons x xs =>
      have hsplit := below_cons (s := s) x xs
      have hfinite := below_finite hs hlive
      have hself : x ∈ s.below (x::xs) := by
        rw [hsplit]
        exact .inl (Set.mem_insert _ _)
      have hkids : x ∉ s.below (s.kids x) := fun ⟨y,hy,hyx⟩ =>
        not_under_parent hs.forest.acyclic hy hyx
      have hrest : x ∉ s.below xs := fun ⟨y,hy,hyx⟩ =>
        hap x (by simp) y (List.mem_cons_of_mem x hy)
          (fun he => (List.nodup_cons.1 hd).1 (he ▸ hy)) x .refl hyx
      have hkidsSub : s.below (s.kids x) ⊆ s.below (x::xs) := by
        rw [hsplit]
        exact fun z hz => .inl (Set.mem_insert_of_mem _ hz)
      have hrestSub : s.below xs ⊆ s.below (x::xs) := by
        rw [hsplit]
        exact Set.subset_union_right
      have hkidsLt : (s.below (s.kids x)).ncard < (s.below (x::xs)).ncard :=
        Set.ncard_lt_ncard ⟨hkidsSub,fun hsub => hkids (hsub hself)⟩ hfinite
      have hrestLt : (s.below xs).ncard < (s.below (x::xs)).ncard :=
        Set.ncard_lt_ncard ⟨hrestSub,fun hsub => hrest (hsub hself)⟩ hfinite
      obtain ⟨n,hn,hnext⟩ := hseg.head
      have hgx : g.cells x = some n := (hg x hself).trans hn
      have hchild : (if n.isReference then some g else deleteLoop k g n.child) =
          some (g.without (s.below (s.kids x))) := by
        rw [hr.flag x n hn]
        cases href : s.reference x with
        | true => simp [hs.bare x href, below_nil, without_empty]
        | false =>
          obtain ⟨hfirst,hkseg⟩ := segment_kids hs hr hn href
          simp only [Bool.false_eq_true, if_false, hfirst]
          exact ih g (s.kids x) hkseg (hs.kid x) (hs.forest.nodup x)
            (fun u hu v hv huv z => under_apart hs.forest hu hv huv)
            (fun z hz => hg z (hkidsSub hz)) (by omega)
      rw [List.head?_cons, deleteLoop, hgx, Option.bind_some, hchild, Option.bind_some,
        without_free hgx hkids, Option.bind_some, hnext, hsplit, ← without_without]
      refine ih _ xs hseg.tail (fun y hy => hlive y (List.mem_cons_of_mem x hy))
        (List.nodup_cons.1 hd).2
        (fun u hu v hv => hap u (List.mem_cons_of_mem x hu) v (List.mem_cons_of_mem x hv))
        (fun z hz => ?_) (by omega)
      -- What is below the rest is not below the first tree.
      have hout : z ∉ insert x (s.below (s.kids x)) := by
        intro hin
        obtain ⟨y,hy,hyz⟩ := hz
        have hxz : Under s.kids x z := by
          rcases hin with rfl | ⟨w,hw,hwz⟩
          · exact .refl
          · exact .head hw hwz
        exact hap x (by simp) y (List.mem_cons_of_mem x hy)
          (fun he => (List.nodup_cons.1 hd).1 (he ▸ hy)) z hxz hyz
      rw [Heap.without]
      simp only [hout, if_false]
      exact hg z (hrestSub hz)

theorem cjsonDelete_root (hs : s.Sound) (hr : Represents h s) {c : ℕ} (hc : s.Root c) :
    cjsonDelete h (some c) = some (h.without (s.below [c])) := by
  obtain ⟨n,hn⟩ := hr.cell hc.1
  have hlive : ∀ x ∈ [c], x ∈ s.live := by simpa using hc.1
  have hcard : (s.below [c]).ncard ≤ s.count := by
    calc (s.below [c]).ncard ≤ (Set.Iio s.count).ncard :=
          Set.ncard_le_ncard (fun z hz => hs.inside z (below_live hs hlive hz)) (Set.finite_Iio _)
      _ = s.count := by rw [Set.ncard_eq_toFinset_card']; simp
  refine deleteLoop_without hs hr _ h [c] ⟨fun x hx => hr.cell (hlive x hx),fun l x r hx => ?_⟩
    hlive (List.nodup_singleton c) (fun x hx y hy hne => ?_) (fun _ _ => rfl)
    (by rw [hr.count]; omega)
  · obtain ⟨rfl,rfl,rfl⟩ : l = [] ∧ x = c ∧ r = [] := by
      cases l with
      | nil => simpa [eq_comm] using hx
      | cons w l => simp at hx
    rw [Heap.next, hn]
    exact (hr.root x n hn hc.2).1
  · rw [List.mem_singleton] at hx hy
    exact absurd (hx.trans hy.symm) hne

theorem kid_outside (hs : s.Sound) {c : ℕ} (hc : s.Root c) {a x : ℕ} (ha : a ∉ s.below [c])
    (hx : x ∈ s.kids a) : x ∉ s.below [c] := by
  rintro ⟨y,hy,hyx⟩
  rw [List.mem_singleton] at hy
  subst hy
  rcases Relation.ReflTransGen.cases_tail hyx with rfl | ⟨w,hyw,hwx⟩
  · exact hc.2 a hx
  · rw [hs.forest.parent w a x hwx hx] at hyw
    exact ha ⟨y,by simp,hyw⟩

theorem remove_kids {c a x : ℕ} (hx : x ∈ (s.remove c).kids a) :
    a ∉ s.below [c] ∧ x ∈ s.kids a := by
  by_cases ha : a ∈ s.below [c]
  · simp [Items.remove, ha] at hx
  · simpa [Items.remove, ha] using hx

theorem remove_represents (hs : s.Sound) (hr : Represents h s) {c : ℕ} (hc : s.Root c) :
    Represents (h.without (s.below [c])) (s.remove c) := by
  have hcell : ∀ x n, (h.without (s.below [c])).cells x = some n →
      x ∉ s.below [c] ∧ h.cells x = some n := by
    intro x n hx
    by_cases hin : x ∈ s.below [c]
    · simp [Heap.without, hin] at hx
    · exact ⟨hin,by simpa [Heap.without, hin] using hx⟩
  have hsame : ∀ x, x ∉ s.below [c] → (h.without (s.below [c])).next x = h.next x ∧
      (h.without (s.below [c])).prev x = h.prev x := by
    intro x hx
    simp [Heap.next, Heap.prev, Heap.without, hx]
  refine ⟨hr.count,fun x => ?_,fun x n hx => hr.flag x n (hcell x n hx).2,
    fun x n hx => hr.name x n (hcell x n hx).2,fun x n hx href => ?_,fun x n hx hroot => ?_⟩
  · rw [Items.remove, Set.mem_sdiff, hr.live x]
    by_cases hin : x ∈ s.below [c] <;> simp [Heap.without, hin]
  · obtain ⟨hout,hn⟩ := hcell x n hx
    have hkids : (s.remove c).kids x = s.kids x := by simp [Items.remove, hout]
    rw [hkids]
    exact (hr.chain x n hn href).congr fun z hz => hsame z (kid_outside hs hc hout hz)
  · obtain ⟨hout,hn⟩ := hcell x n hx
    refine hr.root x n hn fun a ha => ?_
    by_cases hin : a ∈ s.below [c]
    · obtain ⟨y,hy,hya⟩ := hin
      exact hout ⟨y,hy,hya.tail ha⟩
    · exact hroot a (by simpa [Items.remove, hin] using ha)

theorem remove_sound (hs : s.Sound) {c : ℕ} (hc : s.Root c) : (s.remove c).Sound := by
  refine ⟨fun x hx => hs.inside x hx.1,fun a x hx => ?_,fun a ha => ?_,fun a href => ?_,
    ⟨fun a => ?_,fun a b x hx hy => ?_,?_⟩⟩
  · obtain ⟨hout,hk⟩ := remove_kids hx
    exact ⟨hs.kid a x hk,kid_outside hs hc hout hk⟩
  · by_cases hin : a ∈ s.below [c]
    · simp [Items.remove, hin]
    · have hdead := hs.dead a fun hl => ha ⟨hl,hin⟩
      simp [Items.remove, hin, hdead]
  · have hbare := hs.bare a href
    simp [Items.remove, hbare]
  · by_cases hin : a ∈ s.below [c]
    · simp [Items.remove, hin]
    · simpa [Items.remove, hin] using hs.forest.nodup a
  · exact hs.forest.parent a b x (remove_kids hx).2 (remove_kids hy).2
  · exact ⟨fun z => Subrelation.accessible (fun hx => (remove_kids hx).2)
      (hs.forest.acyclic.apply z)⟩

end Deletion

section Creation

variable {h : Heap} {s : Items}

theorem fresh (hs : s.Sound) : s.count ∉ s.live := fun hc => (hs.inside _ hc).false

theorem alloc_sound (hs : s.Sound) (reference : Bool) : (s.alloc reference).Sound := by
  refine ⟨fun x hx => ?_,fun a x hx => .inr (hs.kid a x hx),
    fun a ha => hs.dead a fun hl => ha (.inr hl),fun a ha => ?_,hs.forest⟩
  · rcases hx with rfl | hx
    · exact Nat.lt_succ_self _
    · exact (hs.inside x hx).trans (Nat.lt_succ_self _)
  · by_cases hc : a = s.count
    · exact hs.dead a (hc ▸ fresh hs)
    · refine hs.bare a ?_
      simpa [Items.alloc, Function.update_of_ne hc] using ha

theorem alloc_represents (hs : s.Sound) (hr : Represents h s) {n : Node} (hnext : n.next = none)
    (hprev : n.prev = none) (hstring : n.string = none)
    (hchild : n.isReference = false → n.child = none) :
    Represents (h.alloc n) (s.alloc n.isReference) := by
  have hcell : ∀ x m, (h.alloc n).cells x = some m →
      (x = s.count ∧ m = n) ∨ (x ≠ s.count ∧ h.cells x = some m) := by
    intro x m hx
    simp only [Heap.alloc, hr.count] at hx
    by_cases hc : x = s.count
    · subst hc
      rw [Function.update_self, Option.some.injEq] at hx
      exact .inl ⟨rfl,hx.symm⟩
    · rw [Function.update_of_ne hc] at hx
      exact .inr ⟨hc,hx⟩
  have hsame : ∀ x ∈ s.live, (h.alloc n).next x = h.next x ∧ (h.alloc n).prev x = h.prev x := by
    intro x hx
    have hc : x ≠ s.count := fun he => fresh hs (he ▸ hx)
    simp [Heap.next, Heap.prev, Heap.alloc, hr.count, Function.update_of_ne hc]
  refine ⟨by simp [Heap.alloc, Items.alloc, hr.count],fun x => ?_,fun x m hx => ?_,
    fun x m hx => ?_,fun x m hx href => ?_,fun x m hx hroot => ?_⟩
  · by_cases hc : x = s.count
    · simp [Items.alloc, Heap.alloc, hr.count, hc]
    · simp [Items.alloc, Heap.alloc, hr.count, hc, hr.live x]
  · rcases hcell x m hx with ⟨rfl,rfl⟩ | ⟨hc,hm⟩
    · simp [Items.alloc]
    · simpa [Items.alloc, Function.update_of_ne hc] using hr.flag x m hm
  · rcases hcell x m hx with ⟨rfl,rfl⟩ | ⟨hc,hm⟩
    · simpa [Items.alloc] using hstring
    · simpa [Items.alloc, Function.update_of_ne hc] using hr.name x m hm
  · rcases hcell x m hx with ⟨rfl,rfl⟩ | ⟨hc,hm⟩
    · have hkids : (s.alloc m.isReference).kids s.count = [] := hs.dead _ (fresh hs)
      rw [hkids, hchild (by simpa [Items.alloc] using href)]
      exact chain_nil _ _
    · have hold := hr.chain x m hm (by simpa [Items.alloc, Function.update_of_ne hc] using href)
      exact hold.congr fun z hz => hsame z (hs.kid x z hz)
  · rcases hcell x m hx with ⟨rfl,rfl⟩ | ⟨hc,hm⟩
    · exact ⟨hnext,hprev⟩
    · exact hr.root x m hm hroot

theorem rename_spec (hs : s.Sound) (hr : Represents h s) {x : ℕ} (hx : x ∈ s.live)
    (string : Option Text) :
    ∃ h', h.modify x (fun n => { n with string := string }) = some h' ∧
      Represents h' (s.rename x string) ∧ (s.rename x string).Sound := by
  obtain ⟨n,hn⟩ := hr.cell hx
  refine ⟨_,by rw [← map_id h, map_modify _ hn],?_,
    ⟨hs.inside,hs.kid,hs.dead,hs.bare,hs.forest⟩⟩
  have hsame : ∀ g : ℕ → Node → Node, (∀ y m, (g y m).next = m.next ∧ (g y m).prev = m.prev) →
      (h.map g).next = h.next ∧ (h.map g).prev = h.prev := by
    intro g hg
    constructor
    · funext y
      cases hy : h.cells y <;> simp [Heap.next, Heap.map, hy, hg]
    · funext y
      cases hy : h.cells y <;> simp [Heap.prev, Heap.map, hy, hg]
  have hlinks := hsame (fun y m => if x = y then { m with string := string } else m)
    (fun y m => by split_ifs <;> exact ⟨rfl,rfl⟩)
  refine ⟨hr.count,fun z => ?_,fun z m hz => ?_,fun z m hz => ?_,fun z m hz href => ?_,
    fun z m hz hroot => ?_⟩
  · rw [Items.rename, hr.live z]
    simp [Heap.map]
  · obtain ⟨m,hm,rfl⟩ := map_cell hz
    rw [Items.rename, ← hr.flag z m hm]
    split_ifs <;> rfl
  · obtain ⟨m,hm,rfl⟩ := map_cell hz
    by_cases hxz : x = z
    · subst hxz
      simp [Items.rename]
    · simpa [Items.rename, hxz, Function.update_of_ne (Ne.symm hxz)] using hr.name z m hm
  · obtain ⟨m,hm,rfl⟩ := map_cell hz
    have hold := hr.chain z m hm href
    rw [hlinks.1, hlinks.2]
    split_ifs <;> exact hold
  · obtain ⟨m,hm,rfl⟩ := map_cell hz
    have hold := hr.root z m hm hroot
    split_ifs <;> exact hold

end Creation

section Runs

variable {h : Heap} {s : Items} {a : ℕ}

theorem split_at {xs : List ℕ} {i c : ℕ} (hi : xs[i]? = some c) :
    ∃ l r, xs = l++c::r ∧ l.length = i ∧ xs.eraseIdx i = l++r ∧ ∀ y, xs.set i y = l++y::r := by
  induction xs generalizing i with
  | nil => simp at hi
  | cons x xs ih =>
    cases i with
    | zero =>
      rw [List.getElem?_cons_zero, Option.some.injEq] at hi
      exact ⟨[],xs,by rw [hi]; rfl,rfl,rfl,fun _ => rfl⟩
    | succ i =>
      obtain ⟨l,r,hx,hl,he,hset⟩ := ih (by simpa using hi)
      refine ⟨x::l,r,by rw [hx]; rfl,by rw [List.length_cons, hl],?_,fun y => ?_⟩
      · rw [List.eraseIdx_cons_succ, he, List.cons_append]
      · rw [List.set_cons_succ, hset, List.cons_append]

theorem exchange_root (hs : s.Sound) {l r : List ℕ} {c : ℕ} {y : Option ℕ}
    (hk : s.kids a = l++c::r) (hy : ∀ x, y = some x → s.Root x) :
    (s.setKids a (l++(y.toList++r))).Root c := by
  have hkid : c ∈ s.kids a := by rw [hk]; simp
  have hd := hs.forest.nodup a
  rw [hk, List.nodup_middle, List.nodup_cons] at hd
  refine ⟨hs.kid a c hkid,fun b hb => ?_⟩
  by_cases hba : b = a
  · subst hba
    rw [setKids_self] at hb
    simp only [List.mem_append, Option.mem_toList] at hb hd
    rcases hb with hb | hb | hb
    · exact hd.1 (.inl hb)
    · exact (hy c hb).2 b hkid
    · exact hd.1 (.inr hb)
  · rw [setKids_other s _ hba] at hb
    exact hba (hs.forest.parent b a c hb hkid)

theorem member_place (string : Option Text) (i : ℕ) (xs : List ℕ) {j x : ℕ}
    (hm : s.member string i xs = some (j,x)) : ∃ k, j = i+k ∧ xs[k]? = some x := by
  induction xs generalizing i with
  | nil => simp [Items.member] at hm
  | cons y xs ih =>
    rw [Items.member] at hm
    split_ifs at hm
    · rw [Option.some.injEq, Prod.mk.injEq] at hm
      exact ⟨0,hm.1.symm,by simp [hm.2]⟩
    · obtain ⟨k,hj,hk⟩ := ih (i+1) hm
      exact ⟨k+1,by omega,by simpa using hk⟩

theorem member_first (string : Option Text) (xs : List ℕ) {j x : ℕ}
    (hm : s.member string 0 xs = some (j,x)) : xs[(j : ℤ).toNat]? = some x := by
  obtain ⟨k,rfl,hk⟩ := member_place string 0 xs hm
  simpa using hk

theorem strdup_spec (hr : Represents h s) {string : StringArg} (hc : s.Copied string) :
    ∃ t, s.load string = some t ∧ strdup h string = some t := by
  obtain ⟨t,ht⟩ := Option.ne_none_iff_exists'.1 hc.2
  refine ⟨t,ht,?_⟩
  rw [strdup, load_represents hr hc.1, ht]
  rfl

/-- A string is not the name of an item that is made later. -/
theorem alloc_copied (hs : s.Sound) {string : StringArg} (hc : s.Copied string) :
    (s.alloc true).Copied string ∧ (s.alloc true).load string = s.load string ∧
      string ≠ .nameOf s.count := by
  cases string with
  | text t => exact ⟨⟨trivial,by simp [Items.load]⟩,rfl,by simp⟩
  | nameOf y =>
    have hy : y ≠ s.count := fun he => fresh hs (he ▸ hc.1)
    have hload : (s.alloc true).load (.nameOf y) = s.load (.nameOf y) :=
      Function.update_of_ne hy _ _
    exact ⟨⟨.inr hc.1,by rw [hload]; exact hc.2⟩,hload,by simpa using hy⟩

section Calls

variable (hs : s.Sound) (hr : Represents h s) (ha : s.Holder a)

include hs hr ha

theorem detach_spec (i : ℤ) :
    ∃ h', detachItemFromArray h a i = some (h',(s.kids a)[i.toNat]?) ∧
      Represents h' (s.setKids a ((s.kids a).eraseIdx i.toNat)) ∧
      (s.setKids a ((s.kids a).eraseIdx i.toNat)).Sound ∧
      ∀ c, (s.kids a)[i.toNat]? = some c →
        (s.setKids a ((s.kids a).eraseIdx i.toNat)).Root c := by
  cases hc : (s.kids a)[i.toNat]? with
  | none =>
    obtain ⟨n,hn,hchild,hseg⟩ := kids_segment hs hr ha
    rw [List.eraseIdx_of_length_le (List.getElem?_eq_none_iff.1 hc), setKids_kids]
    refine ⟨h,?_,hr,hs,by simp⟩
    rw [detachItemFromArray, hn, Option.bind_some, hchild, walk_segment hseg, hc, Option.bind_some]
  | some c =>
    obtain ⟨l,r,hk,hl,he,_⟩ := split_at hc
    obtain ⟨h',hdetach,hrep⟩ := detach_middle hs hr ha hk i hl.symm
    have hsound := exchange_sound (c := some c) (y := none) hs ha (by simpa using hk)
      (by simp)
    have hroot := exchange_root (y := none) hs hk (by simp)
    rw [he]
    refine ⟨h',hdetach,hrep,by simpa using hsound,fun d hd => ?_⟩
    cases hd
    simpa using hroot

theorem cut_spec (i : ℤ) {c : ℕ} (hc : (s.kids a)[i.toNat]? = some c) :
    ∃ h', deleteItemFromArray h a i = some h' ∧ Represents h' (s.cut a i.toNat c) ∧
      (s.cut a i.toNat c).Sound := by
  obtain ⟨h',hdetach,hrep,hsound,hroot⟩ := detach_spec hs hr ha i
  have hroot := hroot c hc
  refine ⟨_,?_,remove_represents hsound hrep hroot,remove_sound hsound hroot⟩
  rw [deleteItemFromArray, hdetach, Option.bind_some, hc]
  exact cjsonDelete_root hsound hrep hroot

theorem swap_spec (i : ℤ) {c y : ℕ} (hc : (s.kids a)[i.toNat]? = some c) (hy : s.Addable a y) :
    ∃ h', replaceItemInArray h a i y = some h' ∧ Represents h' (s.swap a i.toNat c y) ∧
      (s.swap a i.toNat c y).Sound := by
  obtain ⟨l,r,hk,hl,_,hset⟩ := split_at hc
  obtain ⟨h',hreplace,hrep⟩ := replace_middle hs hr ha hk i hl.symm hy.1
  have hsound := exchange_sound (c := some c) (y := some y) hs ha (by simpa using hk)
    (fun x hx => Option.some.inj hx ▸ hy)
  have hroot := exchange_root (y := some y) hs hk (fun x hx => Option.some.inj hx ▸ hy.1)
  simp only [Option.toList_some, List.singleton_append] at hsound hroot
  rw [Items.swap, hset]
  refine ⟨_,?_,remove_represents hsound hrep hroot,remove_sound hsound hroot⟩
  rw [hreplace]
  exact cjsonDelete_root hsound hrep hroot

theorem add_spec {x : ℕ} (hx : s.Addable a x) :
    ∃ h', addItemToArray h a x = some h' ∧ Represents h' (s.setKids a (s.kids a++[x])) ∧
      (s.setKids a (s.kids a++[x])).Sound := by
  obtain ⟨h',hadd,hrep⟩ := addItemToArray_spec hs hr ha hx.1
  have hsound := exchange_sound (l := s.kids a) (r := []) (c := none) (y := some x) hs ha
    (by simp) (fun z hz => Option.some.inj hz ▸ hx)
  exact ⟨h',hadd,hrep,by simpa using hsound⟩

theorem find_spec {string : StringArg} (hg : s.Given string) :
    find h a string = some (s.member (s.load string) 0 (s.kids a)) := by
  obtain ⟨n,hn,hchild,hseg⟩ := kids_segment hs hr ha
  have hlen := kids_length hs a
  rw [find, hn, Option.bind_some, hchild, hr.count]
  exact findLoop_segment hr hg hseg _ 0 (by omega)

theorem addNamed_spec {x : ℕ} (hx : s.Addable a x) {string : StringArg}
    (hc : s.Copied string) (hne : string ≠ .nameOf x) :
    ∃ h', addItemToObject h a string x = some h' ∧
      Represents h' ((s.rename x (s.load string)).setKids a (s.kids a++[x])) ∧
      ((s.rename x (s.load string)).setKids a (s.kids a++[x])).Sound := by
  obtain ⟨h₁,hfree,hrep₁,hsound₁⟩ := rename_spec hs hr hx.1.1 none
  -- the string is not the name that was released
  have hload : (s.rename x none).load string = s.load string := by
    cases string with
    | text t => rfl
    | nameOf y =>
      have hyx : y ≠ x := fun he => hne (by rw [he])
      exact Function.update_of_ne hyx _ _
  have hgiven : (s.rename x none).Given string := by
    cases string with
    | text t => trivial
    | nameOf y => exact hc.1
  obtain ⟨t,ht,hdup⟩ := strdup_spec hrep₁ ⟨hgiven,by rw [hload]; exact hc.2⟩
  obtain ⟨h₂,hname,hrep₂,hsound₂⟩ := rename_spec hsound₁ hrep₁ hx.1.1 (some t)
  have hsame : (s.rename x none).rename x (some t) = s.rename x (s.load string) := by
    rw [← hload, ht]
    simp [Items.rename]
  rw [hsame] at hrep₂ hsound₂
  obtain ⟨h',hadd,hspec⟩ := add_spec (a := a) (x := x) hsound₂ hrep₂ ha hx
  refine ⟨h',?_,hspec⟩
  rw [addItemToObject, hfree, Option.bind_some, hdup, Option.bind_some, hname, Option.bind_some,
    hadd]

theorem createReference_spec {x : ℕ} (hx : x ∈ s.live) :
    ∃ h', createReference h x = some (h',s.count) ∧ Represents h' (s.alloc true) ∧
      (s.alloc true).Sound ∧ (s.alloc true).Holder a ∧ (s.alloc true).Addable a s.count := by
  obtain ⟨n,hn⟩ := hr.cell hx
  have hrep := alloc_represents hs hr
    (n := { n with string := none, isReference := true, next := none, prev := none }) rfl rfl rfl
    (by simp)
  have hac : a ≠ s.count := fun he => fresh hs (he ▸ ha.1)
  have hholder : (s.alloc true).Holder a :=
    ⟨.inr ha.1,by simpa [Items.alloc, Function.update_of_ne hac] using ha.2⟩
  have hadd : (s.alloc true).Addable a s.count := by
    refine ⟨⟨Set.mem_insert _ _,fun b hb => fresh hs (hs.kid b _ hb)⟩,fun hu => ?_⟩
    rcases Relation.ReflTransGen.cases_head hu with he | ⟨y,hy,_⟩
    · exact hac he.symm
    · have hnone : (s.alloc true).kids s.count = [] := hs.dead _ (fresh hs)
      simp [hnone] at hy
  refine ⟨_,?_,hrep,alloc_sound hs true,hholder,hadd⟩
  rw [createReference, hn, Option.map_some, hr.count]

end Calls

/-- Every call does to the memory what it means for the forest. -/
theorem step_refines (hs : s.Sound) (hr : Represents h s) (op : Op) (hop : s.Legal op) :
    ∃ h', step h op = some (h',(s.step op).2) ∧ Represents h' (s.step op).1 ∧
      (s.step op).1.Sound := by
  cases op with
  | create =>
    refine ⟨_,by rw [step, hr.count]; rfl,?_,alloc_sound hs false⟩
    exact alloc_represents hs hr rfl rfl rfl fun _ => rfl
  | add a x =>
    obtain ⟨h',hadd,hspec⟩ := add_spec hs hr hop.1 hop.2
    exact ⟨h',by rw [step, hadd]; rfl,hspec⟩
  | addNamed o string x =>
    obtain ⟨h',hadd,hspec⟩ := addNamed_spec hs hr hop.1.1 hop.1.2 hop.2.1 hop.2.2
    exact ⟨h',by rw [step, hadd]; rfl,hspec⟩
  | addReference a x =>
    obtain ⟨h₁,href,hrep,hsound,hholder,haddable⟩ := createReference_spec hs hr hop.1 hop.2
    obtain ⟨h',hadd,hspec⟩ := add_spec hsound hrep hholder haddable
    refine ⟨h',?_,hspec⟩
    rw [step, addItemReferenceToArray, href, Option.bind_some]
    simp only [hadd, Option.map_some]
    rfl
  | addNamedReference o string x =>
    obtain ⟨h₁,href,hrep,hsound,hholder,haddable⟩ := createReference_spec hs hr hop.1.1 hop.1.2
    obtain ⟨hcopied,hload,hne⟩ := alloc_copied hs hop.2
    obtain ⟨h',hadd,hspec⟩ := addNamed_spec hsound hrep hholder haddable hcopied hne
    rw [hload] at hspec
    refine ⟨h',?_,hspec⟩
    rw [step, addItemReferenceToObject, href, Option.bind_some]
    simp only [hadd, Option.map_some]
    rfl
  | size a =>
    obtain ⟨n,hn,hchild,hseg⟩ := kids_segment hs hr hop
    have hlen := kids_length hs a
    refine ⟨h,?_,hr,hs⟩
    rw [step, getArraySize, hn, Option.bind_some, hchild, hr.count,
      sizeLoop_segment hseg _ (by omega)]
    rfl
  | get a i =>
    obtain ⟨n,hn,hchild,hseg⟩ := kids_segment hs hr hop
    refine ⟨h,?_,hr,hs⟩
    rw [step, getArrayItem, hn, Option.bind_some, hchild, walk_segment hseg]
    rfl
  | getNamed o string =>
    exact ⟨h,by rw [step, getObjectItem, find_spec hs hr hop.1 hop.2]; rfl,hr,hs⟩
  | detach a i =>
    obtain ⟨h',hdetach,hrep,hsound,_⟩ := detach_spec hs hr hop i
    exact ⟨h',by rw [step, hdetach]; rfl,hrep,hsound⟩
  | detachNamed o string =>
    rw [step, detachItemFromObject, find_spec hs hr hop.1 hop.2, Option.bind_some, Items.step]
    cases hm : s.member (s.load string) 0 (s.kids o) with
    | none => exact ⟨h,rfl,hr,hs⟩
    | some ix =>
      obtain ⟨i,x⟩ := ix
      obtain ⟨h',hdetach,hrep,hsound,_⟩ := detach_spec hs hr hop.1 i
      rw [member_first _ _ hm] at hdetach
      exact ⟨h',by simp only [hdetach, Option.map_some],hrep,hsound⟩
  | deleteAt a i =>
    rw [step, Items.step]
    cases hc : (s.kids a)[i.toNat]? with
    | none =>
      obtain ⟨n,hn,hchild,hseg⟩ := kids_segment hs hr hop
      refine ⟨h,?_,hr,hs⟩
      rw [deleteItemFromArray, detachItemFromArray, hn, Option.bind_some, hchild,
        walk_segment hseg, hc]
      rfl
    | some c =>
      obtain ⟨h',hdelete,hspec⟩ := cut_spec hs hr hop i hc
      exact ⟨h',by rw [hdelete]; rfl,hspec⟩
  | deleteNamed o string =>
    rw [step, deleteItemFromObject, detachItemFromObject, find_spec hs hr hop.1 hop.2,
      Option.bind_some, Items.step]
    cases hm : s.member (s.load string) 0 (s.kids o) with
    | none => exact ⟨h,rfl,hr,hs⟩
    | some ix =>
      obtain ⟨i,x⟩ := ix
      obtain ⟨h',hdelete,hspec⟩ := cut_spec hs hr hop.1 i (member_first _ _ hm)
      rw [deleteItemFromArray] at hdelete
      exact ⟨h',by simp only [hdelete, Option.map_some],hspec⟩
  | replace a i y =>
    rw [step, Items.step]
    cases hc : (s.kids a)[i.toNat]? with
    | none =>
      obtain ⟨n,hn,hchild,hseg⟩ := kids_segment hs hr hop.1
      refine ⟨h,?_,hr,hs⟩
      rw [replaceItemInArray, hn, Option.bind_some, hchild, walk_segment hseg, hc]
      rfl
    | some c =>
      obtain ⟨h',hreplace,hspec⟩ := swap_spec hs hr hop.1 i hc hop.2
      exact ⟨h',by rw [hreplace]; rfl,hspec⟩
  | replaceNamed o string y =>
    rw [step, replaceItemInObject, find_spec hs hr hop.1.1 hop.2.1, Option.bind_some, Items.step]
    cases hm : s.member (s.load string) 0 (s.kids o) with
    | none => exact ⟨h,rfl,hr,hs⟩
    | some ix =>
      obtain ⟨i,c⟩ := ix
      obtain ⟨t,ht,hdup⟩ := strdup_spec hr hop.2
      obtain ⟨h₁,hname,hrep,hsound⟩ := rename_spec hs hr hop.1.2.1.1 (some t)
      obtain ⟨h',hreplace,hspec⟩ := swap_spec (a := o) (c := c) (y := y) hsound hrep hop.1.1 i
        (member_first _ _ hm) hop.1.2
      rw [← ht] at hspec
      exact ⟨h',by simp only [hdup, hname, Option.bind_some, hreplace, Option.map_some],hspec⟩
  | delete c =>
    refine ⟨_,?_,remove_represents hs hr hop,remove_sound hs hop⟩
    rw [step, cjsonDelete_root hs hr hop]
    rfl

theorem run_refines (hs : s.Sound) (hr : Represents h s) (ops : List Op) (hops : s.LegalRun ops) :
    ∃ h', run h ops = some (h',(s.run ops).2) ∧ Represents h' (s.run ops).1 := by
  induction ops generalizing h s with
  | nil => exact ⟨h,rfl,hr⟩
  | cons op ops ih =>
    obtain ⟨h₁,hstep,hrep,hsound⟩ := step_refines hs hr op hops.1
    obtain ⟨h',hrun,hend⟩ := ih hsound hrep hops.2
    refine ⟨h',?_,hend⟩
    rw [run, hstep, Option.bind_some]
    simp only [hrun, Option.map_some]
    rfl

theorem noItems_sound : noItems.Sound :=
  ⟨fun _ h => h.elim,fun _ _ h => by simp [noItems] at h,fun _ _ => rfl,fun _ _ => rfl,
    fun _ => List.nodup_nil,fun _ _ _ h => by simp [noItems] at h,
    ⟨fun _ => ⟨_,fun _ h => by simp [noItems] at h⟩⟩⟩

theorem empty_represents : Represents emptyHeap noItems :=
  ⟨rfl,fun x => by simp [noItems, emptyHeap],fun _ _ h => by simp [emptyHeap] at h,
    fun _ _ h => by simp [emptyHeap] at h,fun _ _ h => by simp [emptyHeap] at h,
    fun _ _ h => by simp [emptyHeap] at h⟩

section Sample

/-- An object that is item 0 and holds all the others that are in a chain. -/
structure Flat (s : Items) (count : ℕ) (live kids : List ℕ) (name : ℕ → Option Text) : Prop where
  count : s.count = count
  live : ∀ x, x ∈ s.live ↔ x ∈ live
  kids : ∀ a, s.kids a = if a = 0 then kids else []
  name : s.name = name
  flag : s.reference 0 = false

variable {n : ℕ} {live kids : List ℕ} {name : ℕ → Option Text}

theorem Flat.holder (hf : Flat s n live kids name) (h : 0 ∈ live) : s.Holder 0 :=
  ⟨(hf.live 0).2 h,hf.flag⟩

theorem Flat.addable (hf : Flat s n live kids name) {x : ℕ} (hx : x ∈ live ∧ x ≠ 0 ∧ x ∉ kids) :
    s.Addable 0 x := by
  refine ⟨⟨(hf.live x).2 hx.1,fun a ha => ?_⟩,fun hu => ?_⟩
  · rw [hf.kids a] at ha
    split_ifs at ha
    · exact hx.2.2 ha
    · simp at ha
  · rcases Relation.ReflTransGen.cases_head hu with he | ⟨y,hy,_⟩
    · exact hx.2.1 he
    · rw [hf.kids x, if_neg hx.2.1] at hy
      simp at hy

theorem Flat.copied (hf : Flat s n live kids name) {x : ℕ} (hx : x ∈ live)
    (hn : name x ≠ none) : s.Copied (.nameOf x) :=
  ⟨(hf.live x).2 hx,by rwa [Items.load, hf.name]⟩

theorem Flat.alloc (hf : Flat s n live kids name) (reference : Bool)
    (hn : n = 0 → reference = false) :
    Flat (s.alloc reference) (n+1) (n::live) kids (Function.update name n none) := by
  refine ⟨by simp [Items.alloc, hf.count],fun x => ?_,hf.kids,?_,?_⟩
  · simp [Items.alloc, hf.count, hf.live x]
  · simp [Items.alloc, hf.count, hf.name]
  · by_cases h0 : n = 0
    · simp [Items.alloc, hf.count, h0, hn h0]
    · simp [Items.alloc, hf.count, Function.update_of_ne (Ne.symm h0), hf.flag]

theorem Flat.rename (hf : Flat s n live kids name) (x : ℕ) (string : Option Text) :
    Flat (s.rename x string) n live kids (Function.update name x string) :=
  ⟨hf.count,hf.live,hf.kids,by rw [Items.rename, hf.name],hf.flag⟩

theorem Flat.setKids (hf : Flat s n live kids name) (xs : List ℕ) :
    Flat (s.setKids 0 xs) n live xs name := by
  refine ⟨hf.count,hf.live,fun a => ?_,hf.name,hf.flag⟩
  by_cases ha : a = 0
  · simp [Items.setKids, ha]
  · simp [Items.setKids, ha, hf.kids a]

theorem Flat.remove (hf : Flat s n live kids name) {x : ℕ} (h0 : x ≠ 0) :
    Flat (s.remove x) n (live.filter (· ≠ x)) kids name := by
  have hbelow : s.below [x] = {x} := by
    rw [below_cons, below_nil, hf.kids x, if_neg h0, below_nil]
    simp
  refine ⟨hf.count,fun z => ?_,fun a => ?_,hf.name,hf.flag⟩
  · simp [Items.remove, hbelow, hf.live z]
  · simp only [Items.remove, hbelow, Set.mem_singleton_iff]
    by_cases hax : a = x
    · rw [if_pos hax, if_neg (hax ▸ h0)]
    · rw [if_neg hax, hf.kids a]

theorem Flat.addNamed (hf : Flat s n live kids name) (t : Text) (x : ℕ) :
    Flat (s.step (.addNamed 0 (.text t) x)).1 n live (kids++[x])
      (Function.update name x (some t)) := by
  have hkids : s.kids 0 = kids := hf.kids 0
  rw [Items.step, hkids]
  exact (hf.rename x (some t)).setKids _

theorem Flat.addNamedReference (hf : Flat s n live kids name) (hn : n ≠ 0) (t : Text) (x : ℕ) :
    Flat (s.step (.addNamedReference 0 (.text t) x)).1 (n+1) (n::live) (kids++[n])
      (Function.update (Function.update name n none) n (some t)) := by
  have hkids : s.kids 0 = kids := hf.kids 0
  rw [Items.step, hkids, hf.count]
  exact ((hf.alloc true fun h0 => absurd h0 hn).rename n (some t)).setKids _

theorem Flat.deleteAt (hf : Flat s n live kids name) (i : ℕ) {c : ℕ} (hc : kids[i]? = some c)
    (h0 : c ≠ 0) :
    Flat (s.step (.deleteAt 0 i)).1 n (live.filter (· ≠ c)) (kids.eraseIdx i) name := by
  have hkids : s.kids 0 = kids := hf.kids 0
  simp only [Items.step, hkids, Int.toNat_natCast, hc, Items.cut]
  exact (hf.setKids _).remove h0

theorem Flat.replaceNamed (hf : Flat s n live kids name) (string : StringArg) {i c : ℕ} (y : ℕ)
    (hm : s.member (s.load string) 0 kids = some (i,c)) (h0 : c ≠ 0) :
    Flat (s.step (.replaceNamed 0 string y)).1 n (live.filter (· ≠ c)) (kids.set i y)
      (Function.update name y (s.load string)) := by
  have hkids : s.kids 0 = kids := hf.kids 0
  have hren : (s.rename y (s.load string)).kids 0 = kids := hkids
  simp only [Items.step, hkids, hm, Items.swap, hren]
  exact ((hf.rename y _).setKids _).remove h0

def nameX : Text := ⟨[120],by decide⟩

def nameY : Text := ⟨[121],by decide⟩

/-- Two named members, of which the first is replaced under its name and the second deleted,
and then a reference to the new member under the other name. -/
def sampleOps : List Op :=
  [.create,.create,.create,.addNamed 0 (.text nameX) 1,.addNamed 0 (.text nameY) 2,.create,
    .replaceNamed 0 (.nameOf 1) 3,.deleteAt 0 1,.addNamedReference 0 (.text nameY) 3,
    .getNamed 0 (.nameOf 3),.size 0]

theorem sample_legal : noItems.LegalRun sampleOps := by
  have h0 : Flat noItems 0 [] [] fun _ => none :=
    ⟨rfl,fun x => by simp [noItems],fun a => by simp [noItems],rfl,rfl⟩
  have h1 := h0.alloc false fun _ => rfl
  have h2 := h1.alloc false fun _ => rfl
  have h3 := h2.alloc false fun _ => rfl
  have h4 := h3.addNamed nameX 1
  have h5 := h4.addNamed nameY 2
  have h6 := h5.alloc false fun _ => rfl
  have h7 := h6.replaceNamed (i := 0) (c := 1) (.nameOf 1) 3
    (by simp [Items.member, Items.load, h6.name, sameName]) (by decide)
  have h8 := h7.deleteAt 1 (c := 2) rfl (by decide)
  have h9 := h8.addNamedReference (by decide) nameY 3
  refine ⟨trivial,trivial,trivial,?_,?_,trivial,?_,?_,?_,?_,?_,trivial⟩
  · exact ⟨⟨h3.holder (by decide),h3.addable (by decide)⟩,⟨trivial,by simp [Items.load]⟩,by simp⟩
  · exact ⟨⟨h4.holder (by decide),h4.addable (by decide)⟩,⟨trivial,by simp [Items.load]⟩,by simp⟩
  · exact ⟨⟨h6.holder (by decide),h6.addable (by decide)⟩,h6.copied (by decide) (by decide)⟩
  · exact h7.holder (by decide)
  · exact ⟨⟨h8.holder (by decide),(h8.live 3).2 (by decide)⟩,⟨trivial,by simp [Items.load]⟩⟩
  · exact ⟨h9.holder (by decide),(h9.live 3).2 (by decide)⟩
  · exact h9.holder (by decide)

end Sample

/-- Whatever a program does with items, within the rules, no freed item is touched, every call
returns what it means for the forest, and in the end the items in memory are those of the
forest, linked by their pointers in the order of its lists. -/
theorem items_refine_forest (ops : List Op) (hops : noItems.LegalRun ops) :
    ∃ h, run emptyHeap ops = some (h,(noItems.run ops).2) ∧
      (∀ x, (∃ n, h.cells x = some n) ↔ x ∈ (noItems.run ops).1.live) ∧
      ∀ a, (noItems.run ops).1.Holder a → ∃ n, h.cells a = some n ∧
        Chain h.next h.prev n.child ((noItems.run ops).1.kids a) := by
  obtain ⟨h,hrun,hrep⟩ := run_refines noItems_sound empty_represents ops hops
  exact ⟨h,hrun,fun x => (hrep.live x).symm,fun a ha => hrep.array ha⟩

theorem small_array_refines : ∃ h, run emptyHeap sampleOps = some (h,(noItems.run sampleOps).2) ∧
    (∀ x, (∃ n, h.cells x = some n) ↔ x ∈ (noItems.run sampleOps).1.live) ∧
    ∀ a, (noItems.run sampleOps).1.Holder a → ∃ n, h.cells a = some n ∧
      Chain h.next h.prev n.child ((noItems.run sampleOps).1.kids a) :=
  items_refine_forest sampleOps sample_legal

end Runs

end Duda.JsonForest
