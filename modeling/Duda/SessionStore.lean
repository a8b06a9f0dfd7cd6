import Duda.Session

/-!
# The files of the session store

What the calls on sessions keep about the directory: every file was opened by
the call that is recorded with it, and no two files have one name. A file that
is opened again keeps its place and gets a new content.
-/

set_option autoImplicit false

namespace Duda.SessionStore
open Duda.CString Duda.DelimitedFields Duda.MachineInt Duda.Router Duda.Session

section Files

variable (dir : StoreDir)

/-- Every file was opened by its creation. -/
def Opened (store : List SessionFile) : Prop :=
  ∀ f ∈ store, dir.resolve (sessionPath dir f.creation) = some f.entry

theorem putFile_entries (d : List UInt8) (c : Creation) (store : List SessionFile) (f : SessionFile)
    (h : f ∈ putFile d c store) :
    (∃ g ∈ store, f.entry = g.entry ∧ f.creation = g.creation) ∨
      (f.entry = d ∧ f.creation = c) := by
  rw [putFile] at h
  split_ifs at h
  · obtain ⟨g,hg,rfl⟩ := List.mem_map.mp h
    left
    refine ⟨g,hg,?_⟩
    split_ifs
    · exact ⟨rfl,rfl⟩
    · exact ⟨rfl,rfl⟩
  · rcases List.mem_append.mp h with h | h
    · exact .inl ⟨f,h,rfl,rfl⟩
    · rw [List.mem_singleton.mp h]
      exact .inr ⟨rfl,rfl⟩

theorem create_opened (store : List SessionFile) (c : Creation) (h : Opened dir store) :
    Opened dir (sessionCreate dir store c).1 := by
  rw [sessionCreate]
  by_cases hopen : c.opened = true
  · rw [if_pos hopen]
    cases hr : dir.resolve (sessionPath dir c) with
    | none => exact h
    | some d =>
      intro f hf
      rcases putFile_entries d c store f hf with ⟨g,hg,he,hc⟩ | ⟨he,hc⟩
      · rw [he, hc]
        exact h g hg
      · rw [he, hc, hr]
  · rw [if_neg hopen]
    exact h

theorem fileName_nulFree (c : Creation) : 0 ∉ c.fileName := by
  simp only [Creation.fileName, fields, List.mem_append, List.mem_cons, List.not_mem_nil, or_false,
    not_or]
  exact ⟨⟨c.name.nulFree,by decide,fun h => (uuidText_plain _ _ _ h).1 rfl,by decide⟩,
    fun h => (intText_plain _ _ h).1 rfl⟩

theorem fileName_slashFree (c : Creation) (h : slash ∉ c.name.bytes) : slash ∉ c.fileName := by
  simp only [Creation.fileName, fields, List.mem_append, List.mem_cons, List.not_mem_nil, or_false,
    not_or]
  exact ⟨⟨h,by decide,fun h => (uuidText_plain _ _ _ h).2.2 rfl,by decide⟩,
    fun h => (intText_plain _ _ h).2.2 rfl⟩

/-- The name that a creation leaves in the directory: short, without slash and
zero byte, and without a slash in the name of the session the beginning of the
file name. -/
theorem entry_spec (c : Creation) (d : List UInt8)
    (h : dir.resolve (sessionPath dir c) = some d) :
    d ≠ [dot,dot] ∧ slash ∉ d ∧ 0 ∉ d ∧ d.length+dir.path.bytes.length+1 ≤ 127 ∧
      (slash ∉ c.name.bytes → d <+: c.fileName) := by
  obtain ⟨⟨-,hslash,-,hdots⟩,mid,hpath,hmid⟩ := dir.inside _ _ h
  have hlen := congrArg List.length hpath
  simp only [sessionPath, uuidSize, List.length_take, List.length_append, List.length_cons] at hlen
  have hpre : mid++d <+: c.fileName := by
    have htake : sessionPath dir c <+: dir.path.bytes++slash::c.fileName := List.take_prefix _ _
    rw [hpath, List.prefix_append_right_inj] at htake
    exact (List.cons_prefix_cons.mp htake).2
  refine ⟨hdots,hslash,?_,by omega,?_⟩
  · intro h0
    exact fileName_nulFree c (hpre.subset (List.mem_append_right _ h0))
  · intro hname
    have hfree := fileName_slashFree c hname
    rcases hmid with rfl | hlast
    · exact hpre
    · exact absurd (hpre.subset (List.mem_append_left _ (List.mem_of_getLast? hlast))) hfree

end Files

variable (store : List SessionFile) (d : List UInt8)

theorem eligible_iff (hd : d ≠ [dot,dot]) : Eligible ⟨d,true⟩ ↔ cstr d 0 ≠ dot := by
  simp [Eligible, hd]

theorem regular_eq (ent : Dirent) (h : ent.isReg = true) : ent = ⟨ent.d_name,true⟩ := by
  rw [← h]

theorem found_file (name : Text) (val d : List UInt8) (listing : List Dirent)
    (h : lookupEntry name (some val) (some listing) = .ok (some d)) :
    Eligible ⟨d,true⟩ ∧ Hit name val d ∧ name.bytes.length+val.length+3 ≤ uuidSize := by
  have hfit := (lookupEntry_ok_iff name (some val) (some listing)).mp ⟨_,h⟩ val rfl rfl
  rw [lookupEntry_ok name val hfit] at h
  obtain ⟨ent,hfind,rfl⟩ := Option.map_eq_some_iff.mp (Except.ok.inj h)
  have hent := List.find?_some hfind
  simp only [Bool.decide_and, Bool.and_eq_true, decide_eq_true_eq] at hent
  refine ⟨?_,hent.2,hfit⟩
  rw [← regular_eq ent hent.1.2]
  exact hent.1

/-- The regular files of a store, in any order, are a listing of it. -/
theorem lists_perm (store' : List SessionFile) (h : store'.Perm store) :
    ListsFiles store (store'.map fun g => ⟨g.entry,true⟩) := by
  have hreg : ∀ ent ∈ store'.map (fun g => (⟨g.entry,true⟩ : Dirent)), ent.isReg = true := by
    intro ent hent
    obtain ⟨g,-,rfl⟩ := List.mem_map.mp hent
    rfl
  rw [ListsFiles, List.filter_eq_self.mpr hreg, List.map_map]
  exact h.map SessionFile.entry

theorem first_found (f : SessionFile) (hf : f ∈ store) (name : Text) (val : List UInt8)
    (he : Eligible ⟨f.entry,true⟩) (hh : Hit name val f.entry)
    (hfit : name.bytes.length+val.length+3 ≤ uuidSize) :
    ∃ listing, ListsFiles store listing ∧
      lookupEntry name (some val) (some listing) = .ok (some f.entry) := by
  obtain ⟨l,r,rfl⟩ := List.append_of_mem hf
  refine ⟨(f::(l++r)).map (fun g => ⟨g.entry,true⟩),lists_perm _ _ List.perm_middle.symm,?_⟩
  rw [lookupEntry_ok name val hfit, findHit, List.map_cons, List.find?_cons,
    decide_eq_true ⟨he,hh⟩]
  rfl

def contentAt (store : List SessionFile) (d : List UInt8) : Option (List UInt8) :=
  (store.find? (fun f => f.entry = d)).map SessionFile.content

def entries (store : List SessionFile) : List (List UInt8) := store.map SessionFile.entry

theorem contentAt_cons (f : SessionFile) (store : List SessionFile) (e : List UInt8) :
    contentAt (f::store) e = if f.entry = e then some f.content else contentAt store e := by
  rw [contentAt, List.find?_cons]
  by_cases h : f.entry = e
  · simp [h]
  · simp [h, contentAt]

theorem contentAt_isSome_iff : (contentAt store d).isSome = true ↔ d ∈ entries store := by
  induction store with
  | nil => simp [contentAt, entries]
  | cons f store ih =>
    rw [contentAt_cons, entries, List.map_cons, List.mem_cons]
    by_cases h : f.entry = d
    · simp [h]
    · rw [if_neg h, ih, entries]
      simp [Ne.symm h]

theorem contentAt_none (h : d ∉ entries store) : contentAt store d = none := by
  rw [← Option.not_isSome_iff_eq_none, contentAt_isSome_iff]
  exact h

theorem contentAt_overwritten (c : Creation) (e : List UInt8) :
    contentAt (store.map fun f => if f.entry = d then { f with content := overwrite f.content c }
      else f) e =
      if e = d then (contentAt store d).map (fun old => overwrite old c)
      else contentAt store e := by
  induction store with
  | nil => simp [contentAt]
  | cons f store ih =>
    rw [List.map_cons, contentAt_cons, ih, contentAt_cons, contentAt_cons]
    by_cases hf : f.entry = d
    · rw [if_pos hf]
      by_cases he : e = d
      · simp [hf, he]
      · simp [hf, he, Ne.symm he]
    · rw [if_neg hf]
      by_cases he : e = d
      · simp [hf, he]
      · simp [he]

theorem contentAt_append (f : SessionFile) (e : List UInt8) :
    contentAt (store++[f]) e =
      (contentAt store e).or (if f.entry = e then some f.content else none) := by
  induction store with
  | nil => simp [contentAt]
  | cons g store ih =>
    rw [List.cons_append, contentAt_cons, contentAt_cons, ih]
    by_cases h : g.entry = e
    · simp [h]
    · simp [h]

theorem contentAt_putFile (c : Creation) (e : List UInt8) :
    contentAt (putFile d c store) e =
      if e = d then some (overwrite ((contentAt store d).getD []) c) else contentAt store e := by
  rw [putFile]
  by_cases hd : d ∈ store.map SessionFile.entry
  · rw [if_pos hd, contentAt_overwritten]
    obtain ⟨old,hold⟩ := Option.isSome_iff_exists.mp ((contentAt_isSome_iff store d).mpr hd)
    rw [hold]
    rfl
  · rw [if_neg hd, contentAt_append, contentAt_none store d hd]
    by_cases he : e = d
    · rw [he, contentAt_none store d hd]
      simp
    · simp [he, Ne.symm he]

theorem contentAt_filter (r : Option (List UInt8)) (e : List UInt8) :
    contentAt (store.filter (fun f => some f.entry ≠ r)) e =
      if some e = r then none else contentAt store e := by
  induction store with
  | nil => simp [contentAt]
  | cons f store ih =>
    rw [List.filter_cons, contentAt_cons]
    by_cases hf : some f.entry = r
    · rw [if_neg (by simpa using hf), ih]
      by_cases he : some e = r
      · rw [if_pos he, if_pos he]
      · have hne : f.entry ≠ e := fun h => he (h ▸ hf)
        rw [if_neg he, if_neg he, if_neg hne]
    · rw [if_pos (by simpa using hf), contentAt_cons, ih]
      by_cases he : f.entry = e
      · rw [if_pos he, if_pos he, if_neg (fun h => hf (he ▸ h))]
      · rw [if_neg he, if_neg he]

theorem mem_entries_iff : d ∈ entries store ↔ ∃ x, contentAt store d = some x := by
  rw [← contentAt_isSome_iff, Option.isSome_iff_exists]

end Duda.SessionStore
