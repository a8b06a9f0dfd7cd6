import Duda.MachineInt
import Duda.Runs

/-!
# The table of memory to release with a request

Pointers are registered in a table of cells that grows by `mem_realloc` while
it is occupied. What `mem_realloc` returns is an input: no memory, or a block
that keeps the old cells and holds arbitrary ones behind them. The status word
alone tells a free cell from a used one, and the loops are compared with a
list of the pointers registered since the table was last emptied.
-/

set_option autoImplicit false

namespace Duda.GarbageCollector
open Duda.MachineInt Duda.Runs

/-- `struct duda_gc_entry`; the null pointer is 0. -/
structure Cell where
  status : ℤ
  p : ℕ
  deriving DecidableEq, Repr

structure GcMap where
  used : ℤ
  size : ℤ
  cells : List Cell
  deriving DecidableEq, Repr

inductive Fault where
  | overrun (i : ℕ)
  deriving DecidableEq, Repr

def gcEntries : ℕ := 64

def gcChunk : ℕ := 16

/-- `sizeof(struct duda_gc_entry)` with 64-bit pointers. -/
def entrySize : ℕ := 16

def gcInit : GcMap := ⟨0,gcEntries,List.replicate gcEntries ⟨0,0⟩⟩

/-- No block exceeds half of the address space, whatever memory is left. -/
def memRealloc (cells : List Cell) (bytes : ℕ) (memory : Option (ℕ → Cell)) :
    Option (List Cell) :=
  if bytes < 2^63 then
    memory.map (fun content =>
      (List.range (bytes/entrySize)).map (fun i => cells[i]?.getD (content i)))
  else none

def newSize (size : ℤ) : ℤ := i32 (size*gcEntries+entrySize*gcChunk)

def grow (gc : GcMap) (memory : Option (ℕ → Cell)) : Option GcMap :=
  (memRealloc gc.cells (u64 (newSize gc.size)) memory).map (fun cells =>
    ⟨gc.used,gc.size+gcChunk,cells⟩)

def registerLoop (p : ℕ) : ℕ → ℕ → List Cell → Except Fault (Option (List Cell))
  | 0, _, _ => .ok none
  | n+1, i, cells =>
    match cells[i]? with
    | none => .error (.overrun i)
    | some c =>
      if c.status = 0 then .ok (some (cells.set i ⟨1,p⟩))
      else registerLoop p n (i+1) cells

def register (gc : GcMap) (p : ℕ) : Except Fault (GcMap × ℤ) :=
  match registerLoop p gc.size.toNat 0 gc.cells with
  | .error e => .error e
  | .ok none => .ok (gc,-1)
  | .ok (some cells) => .ok (⟨gc.used+1,gc.size,cells⟩,0)

def gcAdd (gc : GcMap) (p : ℕ) (memory : Option (ℕ → Cell)) : Except Fault (GcMap × ℤ) :=
  match if gc.size ≤ gc.used then grow gc memory else some gc with
  | none => .ok (gc,-1)
  | some g => register g p

def freeLoop : ℕ → ℕ → ℤ → List Cell → List ℕ → Except Fault (ℤ × List Cell × List ℕ)
  | 0, _, used, cells, freed => .ok (used,cells,freed)
  | n+1, i, used, cells, freed =>
    if 0 < used then
      match cells[i]? with
      | none => .error (.overrun i)
      | some c =>
        if c.status = 1 then freeLoop n (i+1) (used-1) (cells.set i ⟨0,0⟩) (freed++[c.p])
        else freeLoop n (i+1) used cells freed
    else .ok (used,cells,freed)

/-- The pointers handed to `mem_free`; the function returns their number. -/
def gcFreeContent (gc : GcMap) : Except Fault (GcMap × List ℕ) :=
  match freeLoop gc.size.toNat 0 gc.used gc.cells [] with
  | .error e => .error e
  | .ok (used,cells,freed) => .ok (⟨used,gc.size,cells⟩,freed)

inductive Call where
  | add (p : ℕ) (memory : Option (ℕ → Cell))
  | freeContent

/-- The table, the pointers registered since it was last emptied, and what the
last call returned and freed. -/
structure State where
  gc : GcMap
  registered : List ℕ
  ret : ℤ
  freed : List ℕ
  deriving DecidableEq

def initial : State := ⟨gcInit,[],0,[]⟩

def step (s : State) : Call → Except Fault State
  | .add p memory =>
    match gcAdd s.gc p memory with
    | .error e => .error e
    | .ok (gc,ret) => .ok ⟨gc,if ret = 0 then p::s.registered else s.registered,ret,[]⟩
  | .freeContent =>
    match gcFreeContent s.gc with
    | .error e => .error e
    | .ok (gc,freed) => .ok ⟨gc,[],freed.length,freed⟩

/-- The allocation that a registration needs, if it needs one, succeeds. -/
def Obtains (gc : GcMap) (memory : Option (ℕ → Cell)) : Prop :=
  gc.size ≤ gc.used → (grow gc memory).isSome

def Keeps (s : State) (c : Call) : Except Fault State → Prop
  | .error _ => False
  | .ok t => t.gc.used = t.registered.length ∧
    match c with
    | .add _ memory => Obtains s.gc memory → t.ret = 0
    | .freeContent => t.freed.Perm s.registered

/-- The cells by which a growing table gets longer have status 0. -/
def Zeroed (s : State) : Call → Prop
  | .add _ (some content) => s.gc.size ≤ s.gc.used → (grow s.gc (some content)).isSome →
      ∀ k < gcChunk, (s.gc.cells[s.gc.size.toNat+k]?.getD
        (content (s.gc.size.toNat+k))).status = 0
  | _ => True

def table (gc : GcMap) : List Cell := gc.cells.take gc.size.toNat

def free (cs : List Cell) : ℕ := cs.countP (fun c => c.status = 0)

def held (cs : List Cell) : List ℕ := (cs.filter (fun c => c.status = 1)).map Cell.p

def Clean (cs : List Cell) : Prop := ∀ c ∈ cs, c.status = 0 ∨ c.status = 1

/-- What the registration loop does to the cells of the table. -/
def place (p : ℕ) : List Cell → Option (List Cell)
  | [] => none
  | c::cs => if c.status = 0 then some (⟨1,p⟩::cs) else (place p cs).map (c::·)

def release (used : ℤ) : List Cell → ℤ × List Cell × List ℕ
  | [] => (used,[],[])
  | c::cs =>
    if 0 < used then
      if c.status = 1 then
        let r := release (used-1) cs
        (r.1,⟨0,0⟩::r.2.1,c.p::r.2.2)
      else
        let r := release used cs
        (r.1,c::r.2.1,r.2.2)
    else (used,c::cs,[])

variable (used : ℤ) (s : State) (gc : GcMap) (p : ℕ) (cs : List Cell) (n : ℕ)
  (memory : Option (ℕ → Cell))

theorem clean_account (hc : Clean cs) : free cs+(held cs).length = cs.length := by
  induction cs with
  | nil => rfl
  | cons c cs ih =>
    have htail := ih (fun d hd => hc d (by simp [hd]))
    simp only [free, held, List.length_map] at htail ⊢
    rcases hc c (by simp) with h | h
    · simp [h]
      omega
    · simp [h]
      omega

theorem registerLoop_spec (mid pre post : List Cell) :
    registerLoop p mid.length pre.length (pre++(mid++post)) =
      .ok ((place p mid).map (fun m => pre++(m++post))) := by
  induction mid generalizing pre with
  | nil => rfl
  | cons c mid ih =>
    have hget : (pre++(c::mid++post))[pre.length]? = some c := by simp
    by_cases h : c.status = 0
    · simp [registerLoop, place, h]
    · simp only [List.length_cons, registerLoop, hget, place, if_neg h]
      have := ih (pre++[c])
      simp only [List.append_assoc, List.cons_append, List.nil_append, List.length_append,
        List.length_singleton] at this ⊢
      rw [this]
      cases place p mid <;> simp

theorem freeLoop_spec (mid : List Cell) (used : ℤ) (pre post : List Cell) (freed : List ℕ) :
    freeLoop mid.length pre.length used (pre++(mid++post)) freed =
      .ok ((release used mid).1,pre++((release used mid).2.1++post),
        freed++(release used mid).2.2) := by
  induction mid generalizing pre used freed with
  | nil => simp [freeLoop, release]
  | cons c mid ih =>
    have hget : (pre++(c::mid++post))[pre.length]? = some c := by simp
    by_cases h0 : 0 < used
    · by_cases h1 : c.status = 1
      · simp only [List.length_cons, freeLoop, hget, release, if_pos h0, if_pos h1]
        have := ih (used-1) (pre++[⟨0,0⟩]) (freed++[c.p])
        simpa using this
      · simp only [List.length_cons, freeLoop, hget, release, if_pos h0, if_neg h1]
        have := ih used (pre++[c]) freed
        simpa using this
    · simp [freeLoop, release, h0]

theorem place_occupied (as bs : List Cell) (h : ∀ c ∈ as, c.status ≠ 0) :
    place p (as++bs) = (place p bs).map (as++·) := by
  induction as with
  | nil => simp
  | cons a as ih =>
    rw [List.cons_append, place, if_neg (h a (by simp)), ih fun c hc => h c (by simp [hc]),
      Option.map_map]
    rfl

theorem place_none : place p cs = none ↔ free cs = 0 := by
  induction cs with
  | nil => simp [place, free]
  | cons c cs ih =>
    by_cases h : c.status = 0
    · simp [place, free, h]
    · simpa [place, free, h] using ih

structure Placed (p : ℕ) (cs ds : List Cell) : Prop where
  length : ds.length = cs.length
  held : (held ds).Perm (p::held cs)
  free : free ds+1 = free cs
  clean : Clean cs → Clean ds

theorem place_spec (ds : List Cell) (h : place p cs = some ds) : Placed p cs ds := by
  induction cs generalizing ds with
  | nil => cases h
  | cons c cs ih =>
    by_cases h0 : c.status = 0
    · simp only [place, if_pos h0, Option.some.injEq] at h
      subst h
      constructor
      · rfl
      · simp [held, h0]
      · simp [free, h0]
      · intro hc d hd
        rcases List.mem_cons.mp hd with rfl | hd
        · exact Or.inr rfl
        · exact hc d (by simp [hd])
    · simp only [place, if_neg h0, Option.map_eq_some_iff] at h
      obtain ⟨es,he,rfl⟩ := h
      have hp := ih es he
      constructor
      · simp [hp.length]
      · by_cases h1 : c.status = 1
        · have := (hp.held.cons c.p).trans (List.Perm.swap p c.p _)
          simpa [held, h1] using this
        · simpa [held, h1] using hp.held
      · simpa [free, h0] using hp.free
      · intro hc d hd
        rcases List.mem_cons.mp hd with rfl | hd
        · exact hc d (by simp)
        · exact hp.clean (fun e he => hc e (by simp [he])) d hd

theorem release_account :
    (release used cs).2.1.length = cs.length ∧
      free (release used cs).2.1+(release used cs).1 = free cs+used := by
  induction cs generalizing used with
  | nil => simp [release]
  | cons c cs ih =>
    by_cases h0 : 0 < used
    · by_cases h1 : c.status = 1
      · have := ih (used-1)
        simp [release, h0, h1, free] at this ⊢
        omega
      · have := ih used
        by_cases h2 : c.status = 0
        · simp [release, h0, h2, free] at this ⊢
          omega
        · simp [release, h0, h1, h2, free] at this ⊢
          omega
    · simp [release, h0]

theorem release_clean (hc : Clean cs) : Clean (release used cs).2.1 := by
  induction cs generalizing used with
  | nil => exact hc
  | cons c cs ih =>
    have htail : Clean cs := fun d hd => hc d (by simp [hd])
    by_cases h0 : 0 < used
    · by_cases h1 : c.status = 1
      · simp only [release, if_pos h0, if_pos h1]
        intro d hd
        rcases List.mem_cons.mp hd with rfl | hd
        · exact Or.inl rfl
        · exact ih (used-1) htail d hd
      · simp only [release, if_pos h0, if_neg h1]
        intro d hd
        rcases List.mem_cons.mp hd with rfl | hd
        · exact hc d (by simp)
        · exact ih used htail d hd
    · simpa only [release, if_neg h0] using hc

theorem release_all (h : used = (held cs).length) :
    (release used cs).1 = 0 ∧ held (release used cs).2.1 = [] ∧
      (release used cs).2.2 = held cs := by
  induction cs generalizing used with
  | nil => exact ⟨h,rfl,rfl⟩
  | cons c cs ih =>
    by_cases h1 : c.status = 1
    · have hu : used-1 = (held cs).length := by
        simp [held, h1] at h ⊢
        omega
      have h0 : 0 < used := by omega
      have := ih (used-1) hu
      simpa [release, h0, h1, held] using this
    · have hu : used = (held cs).length := by simpa [held, h1] using h
      have hheld : held (c::cs) = held cs := by simp [held, h1]
      by_cases h0 : 0 < used
      · have := ih used hu
        simp only [release, if_pos h0, if_neg h1, hheld]
        simpa [held, h1] using this
      · have hz : held cs = [] := List.eq_nil_of_length_eq_zero (by omega)
        simp only [release, if_neg h0, hheld, hz]
        exact ⟨by omega,trivial,trivial⟩

def Fits (gc : GcMap) : Prop := 0 ≤ gc.size ∧ gc.size.toNat ≤ gc.cells.length

theorem table_length (hf : Fits gc) : (table gc).length = gc.size.toNat :=
  List.length_take_of_le hf.2

theorem table_of_append (size : ℤ) (cs post : List Cell) (h : cs.length = size.toNat) :
    table ⟨used,size,cs++post⟩ = cs := by
  simp [table, ← h]

theorem register_spec (hf : Fits gc) :
    register gc p = .ok (match place p (table gc) with
      | none => (gc,-1)
      | some cs => (⟨gc.used+1,gc.size,cs++gc.cells.drop gc.size.toNat⟩,0)) := by
  have h := registerLoop_spec p (table gc) [] (gc.cells.drop gc.size.toNat)
  rw [table_length gc hf] at h
  simp only [List.nil_append, List.length_nil, table, List.take_append_drop] at h
  simp only [register, h, table]
  cases place p (gc.cells.take gc.size.toNat) <;> rfl

theorem freeContent_spec (hf : Fits gc) :
    gcFreeContent gc = .ok (⟨(release gc.used (table gc)).1,gc.size,
      (release gc.used (table gc)).2.1++gc.cells.drop gc.size.toNat⟩,
      (release gc.used (table gc)).2.2) := by
  have h := freeLoop_spec (table gc) gc.used [] (gc.cells.drop gc.size.toNat) []
  rw [table_length gc hf] at h
  simp only [List.nil_append, List.length_nil] at h
  have hsplit : table gc++gc.cells.drop gc.size.toNat = gc.cells := List.take_append_drop _ _
  rw [hsplit] at h
  simp only [gcFreeContent, h]

/-- A table that agrees with the registered pointers. The bound on the size is
where the byte count of the next growth leaves the range of `int`. -/
structure Consistent (gc : GcMap) (registered : List ℕ) : Prop where
  fits : Fits gc
  bound : gc.size ≤ 2^25+16
  clean : Clean (table gc)
  perm : (held (table gc)).Perm registered
  used : gc.used = registered.length

theorem consistent_account (reg : List ℕ) (hc : Consistent gc reg) :
    free (table gc)+gc.used = gc.size := by
  have h1 := clean_account (table gc) hc.clean
  have h2 := hc.perm.length_eq
  have h3 := hc.used
  have h4 := table_length gc hc.fits
  have h5 := hc.fits.1
  omega

theorem initial_consistent : Consistent initial.gc initial.registered := by
  constructor
  · exact ⟨by decide,by decide⟩
  · decide
  · intro c hc
    have : c = ⟨0,0⟩ := List.eq_of_mem_replicate (List.mem_of_mem_take hc)
    exact Or.inl (by rw [this])
  · decide
  · rfl

def gained (gc : GcMap) (content : ℕ → Cell) : List Cell :=
  (List.range gcChunk).map (fun k =>
    gc.cells[gc.size.toNat+k]?.getD (content (gc.size.toNat+k)))

theorem newSize_small (size : ℤ) (h0 : 0 ≤ size) (hb : size ≤ 2^25+16)
    (h : u64 (newSize size) < 2^63) :
    size < 2^25 ∧ u64 (newSize size) = size.toNat*64+256 := by
  have hs : newSize size = if size*64+256 < 2^31 then size*64+256 else size*64+256-2^32 := by
    have hm : (size*64+256) % 2^32 = size*64+256 := Int.emod_eq_of_lt (by omega) (by omega)
    simp only [newSize, gcEntries, entrySize, gcChunk, i32, u32]
    push_cast
    norm_num at hm ⊢
    rw [hm]
    split_ifs <;> omega
  rw [hs] at h ⊢
  split_ifs at h ⊢ with hlt
  · rw [u64_of_range _ (by omega) (by omega)]
    omega
  · simp only [u64] at h
    omega

theorem grow_spec (g : GcMap) (memory : Option (ℕ → Cell)) (hf : Fits gc)
    (hb : gc.size ≤ 2^25+16) (h : grow gc memory = some g) :
    ∃ content, memory = some content ∧ Fits g ∧ g.used = gc.used ∧
      g.size = gc.size+gcChunk ∧ g.size ≤ 2^25+16 ∧ table g = table gc++gained gc content := by
  simp only [grow, memRealloc, Option.map_eq_some_iff] at h
  obtain ⟨cells,hcells,rfl⟩ := h
  split_ifs at hcells with hsmall
  obtain ⟨content,rfl,rfl⟩ := Option.map_eq_some_iff.mp hcells
  obtain ⟨hlt,hbytes⟩ := newSize_small gc.size hf.1 hb hsmall
  have h0 := hf.1
  have hn : (gc.size+gcChunk).toNat = gc.size.toNat+gcChunk := by
    simp only [gcChunk]
    omega
  have hroom : gc.size.toNat+gcChunk ≤ u64 (newSize gc.size)/entrySize := by
    rw [hbytes]
    simp only [gcChunk, entrySize]
    omega
  refine ⟨content,rfl,⟨?_,?_⟩,rfl,rfl,?_,?_⟩
  · simp only [gcChunk]
    omega
  · simpa [hn] using hroom
  · simp only [gcChunk]
    omega
  · simp only [table, hn, ← List.map_take, List.take_range, min_eq_left hroom, List.range_add,
      List.map_append, List.map_map]
    congr 1
    apply List.ext_getElem
    · simp [hf.2]
    · intro i h1 h2
      simp at h1 h2
      simp [show i < gc.cells.length by omega]

theorem grow_consistent (g : GcMap) (reg : List ℕ) (memory : Option (ℕ → Cell))
    (hc : Consistent gc reg) (h : grow gc memory = some g)
    (hz : ∀ content, memory = some content → ∀ c ∈ gained gc content, c.status = 0) :
    Consistent g reg := by
  obtain ⟨content,hm,hf,hu,_,hb,ht⟩ := grow_spec gc g memory hc.fits hc.bound h
  have hzero := hz content hm
  have hnone : held (gained gc content) = [] := by
    simp only [held, List.map_eq_nil_iff, List.filter_eq_nil_iff]
    intro c hmem
    simp [hzero c hmem]
  constructor
  · exact hf
  · exact hb
  · rw [ht]
    intro c hmem
    rcases List.mem_append.mp hmem with hmem | hmem
    · exact hc.clean c hmem
    · exact Or.inl (hzero c hmem)
  · rw [ht]
    have : held (table gc++gained gc content) = held (table gc)++held (gained gc content) := by
      simp [held]
    rw [this, hnone, List.append_nil]
    exact hc.perm
  · rw [hu, hc.used]

theorem register_consistent (reg : List ℕ) (p : ℕ) (hc : Consistent gc reg)
    (hlt : gc.used < gc.size) : ∃ g, register gc p = .ok (g,0) ∧ Consistent g (p::reg) := by
  rw [register_spec gc p hc.fits]
  cases hp : place p (table gc) with
  | none =>
    have hfree := (place_none p (table gc)).mp hp
    have := consistent_account gc reg hc
    omega
  | some cs =>
    have hs := place_spec p (table gc) cs hp
    have hlen : cs.length = gc.size.toNat := hs.length.trans (table_length gc hc.fits)
    refine ⟨_,rfl,⟨hc.fits.1,by simp [hlen]⟩,hc.bound,?_,?_,?_⟩
    · rw [table_of_append _ _ _ _ hlen]
      exact hs.clean hc.clean
    · rw [table_of_append _ _ _ _ hlen]
      exact hs.held.trans (hc.perm.cons p)
    · simp [hc.used]

theorem freeContent_consistent (reg : List ℕ) (hc : Consistent gc reg) :
    ∃ g freed, gcFreeContent gc = .ok (g,freed) ∧ Consistent g [] ∧ freed.Perm reg := by
  obtain ⟨h0,hheld,hfreed⟩ := release_all gc.used (table gc) (by
    rw [hc.used, hc.perm.length_eq])
  have hlen := (release_account gc.used (table gc)).1.trans (table_length gc hc.fits)
  refine ⟨_,_,freeContent_spec gc hc.fits,⟨⟨hc.fits.1,by simp [hlen]⟩,hc.bound,?_,?_,?_⟩,?_⟩
  · rw [table_of_append _ _ _ _ hlen]
    exact release_clean gc.used _ hc.clean
  · rw [table_of_append _ _ _ _ hlen, hheld]
  · simp [h0]
  · rw [hfreed]
    exact hc.perm

theorem gained_zero (content : ℕ → Cell) :
    (∀ c ∈ gained gc content, c.status = 0) ↔
      ∀ k < gcChunk, (gc.cells[gc.size.toNat+k]?.getD
        (content (gc.size.toNat+k))).status = 0 := by
  simp [gained]

theorem add_consistent (hc : Consistent s.gc s.registered) (hz : Zeroed s (.add p memory)) :
    ∃ g r, gcAdd s.gc p memory = .ok (g,r) ∧
      Consistent g (if r = 0 then p::s.registered else s.registered) ∧
      (Obtains s.gc memory → r = 0) := by
  by_cases hfull : s.gc.size ≤ s.gc.used
  · simp only [gcAdd, if_pos hfull]
    cases hg : grow s.gc memory with
    | none =>
      refine ⟨s.gc,-1,rfl,hc,?_⟩
      intro ho
      have := ho hfull
      simp [hg] at this
    | some g =>
      have hgc : Consistent g s.registered := by
        apply grow_consistent s.gc g s.registered memory hc hg
        rintro content rfl
        exact (gained_zero s.gc content).mpr (hz hfull (by simp [hg]))
      obtain ⟨_,_,_,hu,hs,_,_⟩ := grow_spec s.gc g memory hc.fits hc.bound hg
      have hacc := consistent_account s.gc s.registered hc
      have hlt : g.used < g.size := by
        simp only [hu, hs, gcChunk]
        omega
      obtain ⟨g',hr,hc'⟩ := register_consistent g s.registered p hgc hlt
      exact ⟨g',0,hr,hc',fun _ => rfl⟩
  · simp only [gcAdd, if_neg hfull]
    obtain ⟨g',hr,hc'⟩ := register_consistent s.gc s.registered p hc (not_le.mp hfull)
    exact ⟨g',0,hr,hc',fun _ => rfl⟩

theorem step_add (g : GcMap) (r : ℤ) (h : gcAdd s.gc p memory = .ok (g,r)) :
    step s (.add p memory) = .ok ⟨g,if r = 0 then p::s.registered else s.registered,r,[]⟩ := by
  simp only [step, h]

theorem step_freeContent (g : GcMap) (freed : List ℕ) (h : gcFreeContent s.gc = .ok (g,freed)) :
    step s .freeContent = .ok ⟨g,[],freed.length,freed⟩ := by
  simp only [step, h]

theorem step_consistent (c : Call) (hc : Consistent s.gc s.registered) (hz : Zeroed s c) :
    ∃ t, step s c = .ok t ∧ Consistent t.gc t.registered ∧ Keeps s c (.ok t) := by
  cases c with
  | add p memory =>
    obtain ⟨g,r,hr,hg,ho⟩ := add_consistent s p memory hc hz
    exact ⟨_,step_add s p memory g r hr,hg,hg.used,ho⟩
  | freeContent =>
    obtain ⟨g,freed,hr,hg,hp⟩ := freeContent_consistent s.gc s.registered hc
    exact ⟨_,step_freeContent s g freed hr,hg,hg.used,hp⟩

/-- Fewer cells are free or counted as used than the table has: some cell is
neither, and no operation gives it back. -/
def Starved (gc : GcMap) : Prop := Fits gc ∧ free (table gc)+gc.used < gc.size

theorem register_starved (hs : Starved gc) :
    ∃ g r, register gc p = .ok (g,r) ∧ Starved g ∧
      (r = 0 → free (table g)+1 = free (table gc)) := by
  rw [register_spec gc p hs.1]
  cases hp : place p (table gc) with
  | none => exact ⟨gc,-1,rfl,hs,by simp⟩
  | some cs =>
    have hplaced := place_spec p (table gc) cs hp
    have hlen : cs.length = gc.size.toNat := hplaced.length.trans (table_length gc hs.1)
    have ht := table_of_append (gc.used+1) gc.size cs (gc.cells.drop gc.size.toNat) hlen
    refine ⟨_,0,rfl,⟨⟨hs.1.1,by simp [hlen]⟩,?_⟩,?_⟩
    · have h1 := hs.2
      have h2 := hplaced.free
      rw [ht]
      show (free cs : ℤ)+(gc.used+1) < gc.size
      omega
    · intro _
      rw [ht]
      exact hplaced.free

theorem starved_room (hs : Starved gc) : ¬gc.size ≤ gc.used := by
  have := hs.2
  omega

theorem add_starved (hs : Starved gc) : gcAdd gc p memory = register gc p := by
  simp only [gcAdd, if_neg (starved_room gc hs)]

theorem starved_obtains (hs : Starved gc) : Obtains gc memory :=
  fun h => absurd h (starved_room gc hs)

theorem step_starved (c : Call) (hs : Starved s.gc) : ∃ t, step s c = .ok t ∧ Starved t.gc := by
  cases c with
  | add p memory =>
    obtain ⟨g,r,hr,hg,_⟩ := register_starved s.gc p hs
    exact ⟨_,step_add s p memory g r ((add_starved s.gc p memory hs).trans hr),hg⟩
  | freeContent =>
    have hacc := release_account s.gc.used (table s.gc)
    have hlen := hacc.1.trans (table_length s.gc hs.1)
    refine ⟨_,step_freeContent s _ _ (freeContent_spec s.gc hs.1),⟨hs.1.1,by simp [hlen]⟩,?_⟩
    rw [table_of_append _ _ _ _ hlen, hacc.2]
    exact hs.2

/-- Registering again and again uses up the free cells of a starved table, and
then a registration fails although no memory is needed. -/
theorem starved_fails (s : State) (hs : Starved s.gc) (hn : free (table s.gc) = n) :
    ¬Along step Keeps (List.replicate (n+1) (.add p none)) s := by
  induction n generalizing s with
  | zero =>
    intro h
    obtain ⟨g,r,hr,_,hfree⟩ := register_starved s.gc p hs
    have hk := h.1
    rw [step_add s p none g r ((add_starved s.gc p none hs).trans hr)] at hk
    have h0 := hfree (hk.2 (starved_obtains s.gc none hs))
    omega
  | succ n ih =>
    intro h
    obtain ⟨g,r,hr,hg,hfree⟩ := register_starved s.gc p hs
    have hstep := step_add s p none g r ((add_starved s.gc p none hs).trans hr)
    have hk := h.1
    rw [hstep] at hk
    have h0 := hfree (hk.2 (starved_obtains s.gc none hs))
    have hn' : free (table g) = n := by omega
    exact ih _ hg hn' (h.2 _ hstep)

theorem starved_run_fails (cs : List Call) (s : State) (hs : Starved s.gc) :
    ∃ n, ¬Along step Keeps (cs++List.replicate n (.add p none)) s := by
  induction cs generalizing s with
  | nil => exact ⟨free (table s.gc)+1,starved_fails p _ s hs rfl⟩
  | cons c cs ih =>
    obtain ⟨t,ht,hst⟩ := step_starved s c hs
    obtain ⟨n,hn⟩ := ih t hst
    exact ⟨n,fun h => hn (h.2 t ht)⟩

/-- A growth that gains a cell with another status starves the table. -/
theorem step_unzeroed (c : Call) (hc : Consistent s.gc s.registered) (hz : ¬Zeroed s c) :
    ∃ t, step s c = .ok t ∧ Starved t.gc := by
  cases c with
  | freeContent => exact absurd trivial hz
  | add p memory =>
    cases memory with
    | none => exact absurd trivial hz
    | some content =>
      simp only [Zeroed, ← gained_zero, not_forall] at hz
      obtain ⟨hfull,hsome,c,hmem,hne⟩ := hz
      obtain ⟨g,hg⟩ := Option.isSome_iff_exists.mp hsome
      obtain ⟨content',he,hf,hu,hsz,_,ht⟩ := grow_spec s.gc g _ hc.fits hc.bound hg
      cases he
      have hstarved : Starved g := by
        refine ⟨hf,?_⟩
        have hacc := consistent_account s.gc s.registered hc
        have hlt : free (gained s.gc content) < gcChunk := by
          have hlen : (gained s.gc content).length = gcChunk := by simp [gained]
          rw [← hlen]
          exact List.countP_lt_length_iff.mpr ⟨c,hmem,by simpa using hne⟩
        have happ : free (table g) = free (table s.gc)+free (gained s.gc content) := by
          simp [ht, free]
        rw [happ, hu, hsz]
        push_cast
        omega
      obtain ⟨g',r,hr,hg',_⟩ := register_starved g p hstarved
      refine ⟨_,step_add s p _ g' r ?_,hg'⟩
      simp only [gcAdd, if_pos hfull, hg, hr]

theorem adds_keep (s : State) (hc : Consistent s.gc s.registered) :
    Along step Keeps (List.replicate n (.add p none)) s := by
  induction n generalizing s with
  | zero => trivial
  | succ n ih =>
    obtain ⟨t,ht,hct,hk⟩ := step_consistent s (.add p none) hc trivial
    constructor
    · exact ht ▸ hk
    · intro u hu
      rw [ht] at hu
      cases hu
      exact ih t hct

theorem run_keeps_iff (cs : List Call) (s : State) (hc : Consistent s.gc s.registered) :
    (∀ n, Along step Keeps (cs++List.replicate n (.add p none)) s) ↔
      Along step (Taken Zeroed) cs s := by
  induction cs generalizing s with
  | nil => exact ⟨fun _ => trivial,fun _ n => adds_keep p n s hc⟩
  | cons c cs ih =>
    by_cases hz : Zeroed s c
    · obtain ⟨t,ht,hct,hk⟩ := step_consistent s c hc hz
      simp only [List.cons_append, Along, ht, Taken, Except.ok.injEq, forall_eq']
      rw [← ih t hct]
      constructor
      · intro h
        exact ⟨hz,fun n => (h n).2⟩
      · intro h n
        exact ⟨hk,h.2 n⟩
    · obtain ⟨t,ht,hst⟩ := step_unzeroed s c hc hz
      obtain ⟨n,hn⟩ := starved_run_fails p cs t hst
      constructor
      · intro h
        exact absurd ((h n).2 t ht) hn
      · intro h
        exact absurd (h.1 t ht) hz

/-- A run, also when further registrations follow it, keeps the table equal to
the registered pointers exactly when every growth gains free cells only. -/
theorem gc_keeps_iff (p : ℕ) (cs : List Call) :
    (∀ n, Along step Keeps (cs++List.replicate n (.add p none)) initial) ↔
      Along step (Taken Zeroed) cs initial :=
  run_keeps_iff p cs initial initial_consistent

def dirtyCell : Cell := ⟨1,999⟩

def firstAdds : List Call := (List.range 64).map (fun i => .add (100+i) none)

def fullTable : State :=
  ⟨⟨64,64,(List.range 64).map (fun i => ⟨1,100+i⟩)⟩,(List.range 64).reverse.map (100+·),0,[]⟩

/-- The table after the first `n` registrations. -/
def filled (n : ℕ) : State :=
  ⟨⟨n,64,(List.range n).map (fun i => ⟨1,100+i⟩)++List.replicate (64-n) ⟨0,0⟩⟩,
    (List.range n).reverse.map (100+·),0,[]⟩

theorem filled_step (h : n < 64) : step (filled n) (.add (100+n) none) = .ok (filled (n+1)) := by
  have hlen : (filled n).gc.cells.length = 64 := by
    simp only [filled, List.length_append, List.length_map, List.length_range,
      List.length_replicate]
    omega
  have hfits : Fits (filled n).gc := ⟨show (0:ℤ) ≤ 64 by decide,hlen.ge⟩
  have htable : table (filled n).gc = (filled n).gc.cells := List.take_of_length_le hlen.le
  have hplace : place (100+n) (filled n).gc.cells = some (filled (n+1)).gc.cells := by
    have hone : ∀ c ∈ (List.range n).map (fun i => (⟨1,100+i⟩ : Cell)), c.status ≠ 0 := by
      simp
    show place (100+n) (_++List.replicate (64-n) ⟨0,0⟩) = _
    rw [place_occupied _ _ _ hone, show 64-n = 64-(n+1)+1 by omega, List.replicate_succ, place,
      if_pos rfl]
    simp [filled, List.range_succ]
  have hreg : gcAdd (filled n).gc (100+n) none = .ok ((filled (n+1)).gc,0) := by
    have hroom : ¬(filled n).gc.size ≤ (filled n).gc.used := by
      simp only [filled]
      omega
    rw [gcAdd, if_neg hroom]
    show register (filled n).gc (100+n) = _
    have hdrop : (filled n).gc.cells.drop 64 = [] := List.drop_of_length_le hlen.le
    rw [register_spec _ _ hfits, htable, hplace]
    show Except.ok ((⟨(n:ℤ)+1,64,(filled (n+1)).gc.cells++(filled n).gc.cells.drop 64⟩ : GcMap),
      (0:ℤ)) = _
    rw [hdrop, List.append_nil, ← Nat.cast_succ]
    rfl
  rw [step_add (filled n) (100+n) none _ _ hreg]
  simp [filled, List.range_succ]

theorem adds_filled (h : n ≤ 64) :
    run step ((List.range n).map fun i => .add (100+i) none) initial = .ok (filled n) := by
  induction n with
  | zero => rfl
  | succ n ih =>
    rw [List.range_succ, List.map_append, run_append_ok (ih (by omega))]
    exact run_cons_ok (filled_step n h) []

theorem firstAdds_full : run step firstAdds initial = .ok fullTable := by
  rw [firstAdds, adds_filled 64 le_rfl, filled, fullTable, Nat.sub_self, List.replicate_zero,
    List.append_nil]
  rfl

def oneDirty : List Call :=
  [.add 200 (some (fun i => if i = 65 then dirtyCell else ⟨0,0⟩)),.add 201 none]

/-- Memory that holds old data: 64 cells are used up, and the 65th
registration finds no free cell among the 16 gained ones. With one such cell
among them two more registrations succeed, and then a stranger's pointer is
freed in place of the last one registered. -/
theorem gc_dirty_growth :
    Yields (run step (firstAdds++[.add 200 (some (fun _ => dirtyCell))]) initial)
      (fun s => s.ret = -1) ∧
    Yields (run step (firstAdds++oneDirty) initial)
      (fun s => s.ret = 0 ∧ 201 ∈ s.registered ∧ 999 ∉ s.registered) ∧
    Yields (run step (firstAdds++(oneDirty++[.freeContent])) initial)
      (fun s => 999 ∈ s.freed ∧ 201 ∉ s.freed) := by
  simp only [run_append, firstAdds_full]
  decide +kernel

end Duda.GarbageCollector
