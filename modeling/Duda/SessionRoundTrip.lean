import Duda.SessionStore

/-!
# What is stored in a session comes back

The file of a session is opened under a path that may be cut, filled by one
write that may be partial, and found again by the beginning of its name among
the files that are looked at. This module tells when the value of a session
comes back, whatever else happens to the store.
-/

set_option autoImplicit false

namespace Duda.SessionRoundTrip
open Duda.CString Duda.CheckedMemory Duda.DelimitedFields Duda.Router Duda.Runs Duda.Session
open Duda.SessionStore

/-- The calls that change the store. A destruction comes with the cookie of
its request and with what `readdir` returns. -/
inductive SessionOp where
  | create (c : Creation)
  | destroy (name : Text) (cookie : Option (List UInt8)) (listing : List Dirent)

inductive Fault where
  | access (a : Access)
  | notListing

def step (dir : StoreDir) (store : List SessionFile) : SessionOp →
    Except Fault (List SessionFile)
  | .create c => .ok (sessionCreate dir store c).1
  | .destroy name cookie listing =>
    if ((listing.filter Dirent.isReg).map Dirent.d_name).isPerm (store.map SessionFile.entry) then
      match sessionDestroy dir store name cookie (some listing) with
      | .ok r => .ok r.1
      | .error a => .error (.access a)
    else .error .notListing

/-- A request with the identifier of the session as its cookie: the session is
set, has the value, and is gone once it is destroyed. -/
def RoundTrip (dir : StoreDir) (reader : FileReader) (c : Creation) (store : List SessionFile) :
    Prop :=
  ∀ listing, ListsFiles store listing →
    sessionIsset c.name (some c.uuid) (some listing) = .ok 0 ∧
    sessionGet dir reader store c.name (some c.uuid) (some listing) = .ok (some c.value.bytes) ∧
    ∃ store', sessionDestroy dir store c.name (some c.uuid) (some listing) = .ok (store',0) ∧
      ∀ listing', ListsFiles store' listing' →
        sessionIsset c.name (some c.uuid) (some listing') = .ok (-1) ∧
        sessionGet dir reader store' c.name (some c.uuid) (some listing') = .ok none

/-- The beginning `name.uuid.` of the file name. -/
def key (c : Creation) : List UInt8 := fields dot c.name.bytes c.uuid

def own (dir : StoreDir) (c : Creation) : Option (List UInt8) := dir.resolve (sessionPath dir c)

def HasFile (dir : StoreDir) (c : Creation) (store : List SessionFile) : Prop :=
  ∃ d ∈ entries store, own dir c = some d

/-- The name does not hide the file, the path keeps the identifier, no other
file has the same beginning, the write leaves the value in the file, and the
reader gives it back. -/
structure Storable (dir : StoreDir) (reader : FileReader) (c : Creation)
    (store : List SessionFile) : Prop where
  shown : c.name.bytes ≠ [] ∧ cstr c.name.bytes 0 ≠ dot
  fits : dir.path.bytes.length+(c.name.bytes.length+c.uuid.length)+3 ≤ 127
  alone : ∀ e ∈ entries store, key c <+: e → own dir c = some e
  whole : overwrite (((own dir c).bind (contentAt store)).getD []) c = c.value.bytes
  given : reader.Gives c.value.bytes

/-- A later creation does not open a file with the same beginning, unless it
opens the same file and writes the same value. -/
def Undisturbed (dir : StoreDir) (c : Creation) (_ : List SessionFile) : SessionOp → Prop
  | .create c' => c'.opened = true → ∀ e, own dir c' = some e → key c <+: e →
      own dir c = some e ∧ overwrite c.value.bytes c' = c.value.bytes
  | .destroy .. => True

/-- The session has exactly the file `d`. -/
structure Held (c : Creation) (store : List SessionFile) (d : List UInt8) : Prop where
  content : contentAt store d = some c.value.bytes
  starts : key c <+: d
  shown : cstr (key c) 0 ≠ dot
  alone : ∀ e ∈ entries store, key c <+: e → e = d

theorem uuid_nulFree (c : Creation) : 0 ∉ c.uuid := fun h => (uuidText_plain _ _ _ h).1 rfl

theorem hit_iff (c : Creation) (d : List UInt8) : Hit c.name c.uuid d ↔ key c <+: d :=
  hit_plain_iff c.name c.uuid (uuid_nulFree c) d

theorem key_ne (c : Creation) : key c ≠ [] := by simp [key, fields]

theorem starts_head (c : Creation) (d : List UInt8) (h : key c <+: d) :
    cstr d 0 = cstr (key c) 0 := by
  obtain ⟨t,rfl⟩ := h
  cases hk : key c with
  | nil => exact absurd hk (key_ne c)
  | cons x k => rfl

theorem key_shown_iff (c : Creation) :
    cstr (key c) 0 ≠ dot ↔ c.name.bytes ≠ [] ∧ cstr c.name.bytes 0 ≠ dot := by
  cases hn : c.name.bytes with
  | nil => simp [key, fields, hn, cstr]
  | cons x n => simp [key, fields, hn, cstr]

section Lookup

variable (dir : StoreDir) (reader : FileReader) (c : Creation) (store : List SessionFile)
  (ho : Opened dir store)

theorem listed_iff (listing : List Dirent) (hl : ListsFiles store listing) (e : List UInt8) :
    (⟨e,true⟩ : Dirent) ∈ listing ↔ e ∈ entries store := by
  rw [entries, ← hl.mem_iff, List.mem_map]
  constructor
  · intro h
    exact ⟨_,List.mem_filter.mpr ⟨h,rfl⟩,rfl⟩
  · rintro ⟨ent,hent,rfl⟩
    obtain ⟨hmem,hreg⟩ := List.mem_filter.mp hent
    rw [← regular_eq ent hreg]
    exact hmem

/-- The canonical listing. -/
theorem lists_all : ListsFiles store (store.map fun f => ⟨f.entry,true⟩) :=
  lists_perm store store (List.Perm.refl _)

include ho

theorem entry_facts (d : List UInt8) (hd : d ∈ entries store) :
    PlainName d ∧ d.length+dir.path.bytes.length+1 ≤ 127 := by
  obtain ⟨f,hf,rfl⟩ := List.mem_map.mp hd
  exact ⟨(dir.inside _ _ (ho f hf)).1,(entry_spec dir f.creation f.entry (ho f hf)).2.2.2.1⟩

theorem path_resolved (d : List UInt8) (hd : d ∈ entries store) :
    dir.resolve ((dir.path.bytes++slash::d).take (uuidSize-1)) = some d := by
  obtain ⟨hplain,hlen⟩ := entry_facts dir store ho d hd
  rw [List.take_of_length_le, dir.plain d hplain]
  rw [List.length_append, List.length_cons, uuidSize]
  omega

/-- A lookup fails exactly when no file that is looked at has the beginning;
otherwise it finds such a file. -/
theorem lookup_session (hfit : c.name.bytes.length+c.uuid.length+3 ≤ uuidSize)
    (listing : List Dirent) (hl : ListsFiles store listing) :
    (lookupEntry c.name (some c.uuid) (some listing) = .ok none ∧
      ∀ e ∈ entries store, key c <+: e → cstr (key c) 0 = dot) ∨
    ∃ d ∈ entries store, lookupEntry c.name (some c.uuid) (some listing) = .ok (some d) ∧
      key c <+: d ∧ cstr (key c) 0 ≠ dot := by
  rw [lookupEntry_ok c.name c.uuid hfit]
  cases hfind : listing.find? (fun ent => Eligible ent ∧ Hit c.name c.uuid ent.d_name) with
  | none =>
    left
    refine ⟨by rw [findHit, hfind]; rfl,?_⟩
    intro e he hk
    by_contra hshown
    obtain ⟨⟨-,-,-,hdots⟩,-⟩ := entry_facts dir store ho e he
    have hno := List.find?_eq_none.mp hfind _ ((listed_iff store listing hl e).mpr he)
    apply hno
    rw [decide_eq_true_eq, hit_iff, eligible_iff e hdots, starts_head c e hk]
    exact ⟨hshown,hk⟩
  | some ent =>
    right
    have hent := List.find?_some hfind
    rw [decide_eq_true_eq, hit_iff] at hent
    have hreg := regular_eq ent hent.1.2
    have hmem : ent.d_name ∈ entries store := by
      rw [← listed_iff store listing hl, ← hreg]
      exact List.mem_of_find?_eq_some hfind
    obtain ⟨⟨-,-,-,hdots⟩,-⟩ := entry_facts dir store ho _ hmem
    refine ⟨ent.d_name,hmem,by rw [findHit, hfind]; rfl,hent.2,?_⟩
    rw [← starts_head c _ hent.2]
    apply (eligible_iff _ hdots).mp
    rw [← hreg]
    exact hent.1

theorem found_answers (listing : List Dirent) (d : List UInt8) (hd : d ∈ entries store)
    (h : lookupEntry c.name (some c.uuid) (some listing) = .ok (some d)) :
    sessionIsset c.name (some c.uuid) (some listing) = .ok 0 ∧
    sessionGet dir reader store c.name (some c.uuid) (some listing) =
      .ok (reader.toBuffer (contentAt store d)) ∧
    sessionDestroy dir store c.name (some c.uuid) (some listing) =
      .ok (store.filter (fun f => some f.entry ≠ some d),0) := by
  have hpath := path_resolved dir store ho d hd
  refine ⟨?_,?_,?_⟩
  · rw [sessionIsset, h]
    rfl
  · rw [sessionGet, sessionGetPath, h]
    simp only [Except.map, Option.map_some, Option.bind_some, hpath]
    rfl
  · rw [sessionDestroy, sessionGetPath, h]
    simp only [Except.map, Option.map_some, hpath]

end Lookup

theorem missing_answers (dir : StoreDir) (reader : FileReader) (c : Creation)
    (store : List SessionFile) (listing : List Dirent)
    (h : lookupEntry c.name (some c.uuid) (some listing) = .ok none) :
    sessionIsset c.name (some c.uuid) (some listing) = .ok (-1) ∧
    sessionGet dir reader store c.name (some c.uuid) (some listing) = .ok none := by
  rw [sessionIsset, sessionGet, sessionGetPath, h]
  exact ⟨rfl,rfl⟩

section State

variable (dir : StoreDir) (reader : FileReader) (c : Creation) (store : List SessionFile)
  (ho : Opened dir store)
include ho

theorem key_fits (d : List UInt8) (hd : d ∈ entries store) (hk : key c <+: d) :
    dir.path.bytes.length+(c.name.bytes.length+c.uuid.length)+3 ≤ 127 := by
  have hlen := (entry_facts dir store ho d hd).2
  have hle := hk.length_le
  rw [key, fields_length] at hle
  omega

theorem filtered_opened (r : Option (List UInt8)) :
    Opened dir (store.filter (fun f => some f.entry ≠ r)) :=
  fun f hf => ho f (List.mem_of_mem_filter hf)

theorem roundTrip_held (h : RoundTrip dir reader c store) :
    (∃ d, Held c store d) ∧ reader.Gives c.value.bytes := by
  obtain ⟨hset,hget,store',hdestroy,hgone⟩ := h _ (lists_all store)
  have hfit : c.name.bytes.length+c.uuid.length+3 ≤ uuidSize := by
    obtain ⟨r,hr,-⟩ := map_ok hset
    exact (lookupEntry_ok_iff _ _ _).mp ⟨r,hr⟩ _ rfl rfl
  rcases lookup_session dir c store ho hfit _ (lists_all store) with
    ⟨hnone,-⟩ | ⟨d,hd,hfound,hk,hshown⟩
  · have hmiss := (missing_answers dir reader c store _ hnone).1
    rw [hset] at hmiss
    cases hmiss
  · obtain ⟨-,hget',hdestroy'⟩ := found_answers dir reader c store ho _ d hd hfound
    rw [hget] at hget'
    rw [hdestroy] at hdestroy'
    have hstore : store' = store.filter (fun f => some f.entry ≠ some d) :=
      congrArg Prod.fst (Except.ok.inj hdestroy')
    obtain ⟨hcontent,hgives⟩ := (reader.toBuffer_iff _ _).mp (Except.ok.inj hget').symm
    refine ⟨⟨d,⟨hcontent,hk,hshown,?_⟩⟩,hgives⟩
    intro e he hke
    by_contra hne
    have hstill : e ∈ entries store' := by
      rw [hstore, mem_entries_iff, contentAt_filter, if_neg (fun h => hne (Option.some.inj h)),
        ← mem_entries_iff]
      exact he
    have ho' : Opened dir store' := hstore ▸ filtered_opened dir store ho (some d)
    rcases lookup_session dir c store' ho' hfit _ (lists_all store') with
      ⟨-,hno⟩ | ⟨d',hd',hfound',-,-⟩
    · exact hshown (hno e hstill hke)
    · have hset' := (found_answers dir reader c store' ho' _ d' hd' hfound').1
      rw [(hgone _ (lists_all store')).1] at hset'
      cases hset'

theorem held_roundTrip (d : List UInt8) (hheld : Held c store d)
    (hgives : reader.Gives c.value.bytes) : RoundTrip dir reader c store := by
  intro listing hl
  have hd : d ∈ entries store := (mem_entries_iff store d).mpr ⟨_,hheld.content⟩
  have hfit : c.name.bytes.length+c.uuid.length+3 ≤ uuidSize := by
    have := key_fits dir c store ho d hd hheld.starts
    simp only [uuidSize]
    omega
  rcases lookup_session dir c store ho hfit listing hl with ⟨-,hno⟩ | ⟨e,he,hfound,hk,-⟩
  · exact absurd (hno d hd hheld.starts) hheld.shown
  · rw [hheld.alone e he hk] at hfound
    obtain ⟨hset,hget,hdestroy⟩ := found_answers dir reader c store ho listing d hd hfound
    have hread := (reader.toBuffer_iff _ _).mpr ⟨hheld.content,hgives⟩
    refine ⟨hset,by rw [hget, hread],_,hdestroy,?_⟩
    intro listing' hl'
    apply missing_answers
    rcases lookup_session dir c _ (filtered_opened dir store ho (some d)) hfit listing' hl' with
      ⟨hnone,-⟩ | ⟨e',he',-,hk',-⟩
    · exact hnone
    · exfalso
      obtain ⟨x,hx⟩ := (mem_entries_iff _ _).mp he'
      rw [contentAt_filter] at hx
      split_ifs at hx with hne
      exact hne (congrArg some (hheld.alone e' ((mem_entries_iff _ _).mpr ⟨x,hx⟩) hk'))

/-- The session comes back exactly when the store holds its value in one file
that is looked at, and in no other with the same beginning, and the reader gives
that value. -/
theorem roundTrip_iff :
    RoundTrip dir reader c store ↔ (∃ d, Held c store d) ∧ reader.Gives c.value.bytes :=
  ⟨roundTrip_held dir reader c store ho,
    fun ⟨⟨d,hheld⟩,hgives⟩ => held_roundTrip dir reader c store ho d hheld hgives⟩

end State

section Creation

variable (dir : StoreDir) (reader : FileReader) (c : Creation)

theorem create_store (store : List SessionFile) (h : c.opened = true) :
    (sessionCreate dir store c).1 =
      match own dir c with
      | none => store
      | some d => putFile d c store := by
  rw [sessionCreate, if_pos h]
  rfl

theorem create_closed (store : List SessionFile) (h : ¬c.opened = true) :
    (sessionCreate dir store c).1 = store := by
  rw [sessionCreate, if_neg h]

theorem create_success (store : List SessionFile) (h : (sessionCreate dir store c).2 = 0) :
    c.opened = true := by
  by_contra hclosed
  rw [sessionCreate, if_neg hclosed] at h
  cases h

theorem own_fits (hslash : slash ∉ c.name.bytes) (hshown : cstr (key c) 0 ≠ dot)
    (hfits : dir.path.bytes.length+(c.name.bytes.length+c.uuid.length)+3 ≤ 127) :
    ∃ d, own dir c = some d ∧ key c <+: d := by
  have hlen : (key c).length = c.name.bytes.length+c.uuid.length+2 := fields_length _ _
  have hstart : key c <+: c.fileName.take (126-dir.path.bytes.length) := by
    apply List.prefix_take_iff.mpr
    exact ⟨List.prefix_append _ _,by omega⟩
  have hpath : sessionPath dir c =
      dir.path.bytes++slash::c.fileName.take (126-dir.path.bytes.length) := by
    rw [sessionPath, uuidSize, List.take_append, List.take_of_length_le (by omega),
      show 128-1-dir.path.bytes.length = 126-dir.path.bytes.length+1 by omega, List.take_succ_cons]
  have hhead := starts_head c _ hstart
  refine ⟨c.fileName.take (126-dir.path.bytes.length),?_,hstart⟩
  rw [own, hpath, dir.plain]
  refine ⟨?_,fun h => SessionStore.fileName_slashFree c hslash (List.mem_of_mem_take h),?_,?_⟩
  · intro hnil
    rw [hnil, List.prefix_nil] at hstart
    exact key_ne c hstart
  · intro hdot
    rw [hdot] at hhead
    exact hshown hhead.symm
  · intro hdots
    rw [hdots] at hhead
    exact hshown hhead.symm

theorem entries_putFile (store : List SessionFile) (d : List UInt8) (e : List UInt8) :
    e ∈ entries (putFile d c store) ↔ e = d ∨ e ∈ entries store := by
  rw [mem_entries_iff, contentAt_putFile]
  by_cases he : e = d
  · simp [he]
  · simp [he, mem_entries_iff]

/-- Right after its creation a session comes back exactly when it is
storable. -/
theorem created_iff (store : List SessionFile) (ho : Opened dir store)
    (hslash : slash ∉ c.name.bytes) (h : (sessionCreate dir store c).2 = 0) :
    RoundTrip dir reader c (sessionCreate dir store c).1 ↔ Storable dir reader c store := by
  have ho' := create_opened dir store c ho
  rw [roundTrip_iff dir reader c _ ho']
  rw [create_store dir c store (create_success dir c store h)] at ho' ⊢
  constructor
  · rintro ⟨⟨d,hheld⟩,hgives⟩
    have hd : d ∈ _ := (mem_entries_iff _ d).mpr ⟨_,hheld.content⟩
    have hfits := key_fits dir c _ ho' d hd hheld.starts
    obtain ⟨d',hown,hk⟩ := own_fits dir c hslash hheld.shown hfits
    rw [hown] at hheld
    have hmem := entries_putFile c store d'
    have hd' : d' = d := hheld.alone d' ((hmem d').mpr (.inl rfl)) hk
    refine ⟨(key_shown_iff c).mp hheld.shown,hfits,?_,?_,hgives⟩
    · intro e he hke
      rw [hown, hd', hheld.alone e ((hmem e).mpr (.inr he)) hke]
    · have hcontent := hheld.content
      rw [← hd', contentAt_putFile, if_pos rfl] at hcontent
      rw [hown]
      exact Option.some.inj hcontent
  · intro hs
    obtain ⟨d,hown,hk⟩ := own_fits dir c hslash ((key_shown_iff c).mpr hs.shown) hs.fits
    rw [hown]
    refine ⟨⟨d,⟨?_,hk,(key_shown_iff c).mpr hs.shown,?_⟩⟩,hs.given⟩
    · have hwhole := hs.whole
      rw [hown] at hwhole
      show contentAt (putFile d c store) d = _
      rw [contentAt_putFile, if_pos rfl]
      exact congrArg some hwhole
    · intro e he hke
      rcases (entries_putFile c store d e).mp he with rfl | he
      · rfl
      · have := hs.alone e he hke
        rw [hown] at this
        exact (Option.some.inj this).symm

end Creation

section Runs

variable (dir : StoreDir) (reader : FileReader) (c : Creation)

/-- A step opens a file, or removes files of one name, or changes nothing. -/
theorem step_cases (store store' : List SessionFile) (op : SessionOp)
    (h : step dir store op = .ok store') :
    (∃ c', op = .create c' ∧ store' = (sessionCreate dir store c').1) ∨
    ∃ name cookie listing r, op = .destroy name cookie listing ∧
      store' = store.filter (fun f => some f.entry ≠ r) := by
  cases op with
  | create c' => exact .inl ⟨c',rfl,(Except.ok.inj h).symm⟩
  | destroy name cookie listing =>
    right
    rw [step] at h
    split_ifs at h
    have hsame : store.filter (fun f => some f.entry ≠ none) = store := by simp
    cases hd : sessionDestroy dir store name cookie (some listing) with
    | error a => simp [hd] at h
    | ok r =>
      rw [hd] at h
      obtain ⟨found,-,rfl⟩ := map_ok hd
      cases h
      cases found with
      | none => exact ⟨name,cookie,listing,none,rfl,hsame.symm⟩
      | some path => exact ⟨name,cookie,listing,dir.resolve path,rfl,rfl⟩

theorem step_opened (store store' : List SessionFile) (op : SessionOp) (ho : Opened dir store)
    (h : step dir store op = .ok store') : Opened dir store' := by
  rcases step_cases dir store store' op h with ⟨c',rfl,rfl⟩ | ⟨_,_,_,r,rfl,rfl⟩
  · exact create_opened dir store c' ho
  · exact filtered_opened dir store ho r

section Held

variable (store : List SessionFile) (d : List UInt8) (hheld : Held c store d)
include hheld

/-- A file is opened: the session is held still only if it is another file, or
the same with the same value. -/
theorem put_held_inv (c' : Creation) (e d' : List UInt8) (h : Held c (putFile e c' store) d')
    (hke : key c <+: e) : e = d ∧ overwrite c.value.bytes c' = c.value.bytes := by
  have hd : d ∈ entries store := (mem_entries_iff store d).mpr ⟨_,hheld.content⟩
  have hdd' : d = d' :=
    h.alone d ((entries_putFile c' store e d).mpr (.inr hd)) hheld.starts
  have hed' : e = d' := h.alone e ((entries_putFile c' store e e).mpr (.inl rfl)) hke
  have hcontent := h.content
  rw [hed', ← hdd', contentAt_putFile, if_pos rfl, hheld.content] at hcontent
  exact ⟨hed'.trans hdd'.symm,Option.some.inj hcontent⟩

theorem put_held (c' : Creation) (e : List UInt8)
    (h : key c <+: e → e = d ∧ overwrite c.value.bytes c' = c.value.bytes) :
    Held c (putFile e c' store) d := by
  refine ⟨?_,hheld.starts,hheld.shown,?_⟩
  · rw [contentAt_putFile]
    by_cases hde : d = e
    · rw [if_pos hde, ← hde, hheld.content]
      exact congrArg some (h (hde ▸ hheld.starts)).2
    · rw [if_neg hde]
      exact hheld.content
  · intro x hx hkx
    rcases (entries_putFile c' store e x).mp hx with rfl | hx
    · exact (h hkx).1
    · exact hheld.alone x hx hkx

theorem filter_held (r : Option (List UInt8)) (hr : ¬some d = r) :
    Held c (store.filter (fun f => some f.entry ≠ r)) d := by
  refine ⟨?_,hheld.starts,hheld.shown,?_⟩
  · rw [contentAt_filter, if_neg hr]
    exact hheld.content
  · intro x hx hkx
    obtain ⟨y,hy⟩ := (mem_entries_iff _ _).mp hx
    rw [contentAt_filter] at hy
    split_ifs at hy
    exact hheld.alone x ((mem_entries_iff _ _).mpr ⟨y,hy⟩) hkx

/-- The file of the session stays the only one of its kind, and keeps its
value, exactly in the steps that do not disturb it. -/
theorem step_held_iff (store' : List SessionFile) (op : SessionOp) (hown : own dir c = some d)
    (h : step dir store op = .ok store') (hfile : HasFile dir c store') :
    ((∃ d', Held c store' d') ↔ Undisturbed dir c store op) ∧
      (Undisturbed dir c store op → Held c store' d) := by
  suffices hstep : ((∃ d', Held c store' d') → Undisturbed dir c store op) ∧
      (Undisturbed dir c store op → Held c store' d) from
    ⟨⟨hstep.1,fun hu => ⟨d,hstep.2 hu⟩⟩,hstep.2⟩
  rcases step_cases dir store store' op h with ⟨c',rfl,rfl⟩ | ⟨_,_,_,r,rfl,rfl⟩
  · by_cases hopen : c'.opened = true
    · rw [create_store dir c' store hopen]
      cases hown' : own dir c' with
      | none =>
        refine ⟨fun _ _ e he => ?_,fun _ => hheld⟩
        cases hown'.symm.trans he
      | some e =>
        constructor
        · rintro ⟨d',hheld'⟩ - e' he' hke
          cases hown'.symm.trans he'
          obtain ⟨rfl,hsame⟩ := put_held_inv c store d hheld c' e d' hheld' hke
          exact ⟨hown,hsame⟩
        · intro hu
          apply put_held c store d hheld c' e
          intro hke
          obtain ⟨he,hsame⟩ := hu hopen e hown' hke
          exact ⟨Option.some.inj (he.symm.trans hown),hsame⟩
    · rw [create_closed dir c' store hopen]
      exact ⟨fun _ ho => absurd ho hopen,fun _ => hheld⟩
  · refine ⟨fun _ => trivial,fun _ => filter_held c store d hheld r ?_⟩
    intro hr
    obtain ⟨d0,hd0,hown0⟩ := hfile
    cases hown.symm.trans hown0
    obtain ⟨x,hx⟩ := (mem_entries_iff _ _).mp hd0
    rw [contentAt_filter, if_pos hr] at hx
    cases hx

end Held

/-- Over a whole run, as long as the file is there. -/
theorem run_held_iff (store : List SessionFile) (d : List UInt8) (ho : Opened dir store)
    (hown : own dir c = some d) (hheld : Held c store d) (hgives : reader.Gives c.value.bytes)
    (ops : List SessionOp) (hfile : Along (step dir) (After (HasFile dir c)) ops store) :
    Along (step dir) (After (RoundTrip dir reader c)) ops store ↔
      Along (step dir) (Taken (Undisturbed dir c)) ops store := by
  have hrun : Along (step dir)
        (fun s a r => After (HasFile dir c) s a r ∧ After (RoundTrip dir reader c) s a r)
        ops store ↔
      Along (step dir)
        (fun s a r => After (HasFile dir c) s a r ∧ Taken (Undisturbed dir c) s a r)
        ops store := by
    apply along_iff (I := fun s => Opened dir s ∧ Held c s d)
    · intro s a t hi hg ht
      exact ⟨step_opened dir s t a hi.1 ht,
        (step_held_iff dir c s d hi.2 t a hown ht (hg.1 t rfl)).2 (hg.2 t rfl)⟩
    · intro s a hi
      apply and_congr_right
      intro hf
      apply forall_congr'
      intro t
      apply imp_congr_right
      intro ht
      rw [roundTrip_iff dir reader c t (step_opened dir s t a hi.1 ht), and_iff_left hgives]
      exact (step_held_iff dir c s d hi.2 t a hown ht (hf t ht)).1
    · exact ⟨ho,hheld⟩
  rw [along_and, along_and] at hrun
  constructor
  · intro h
    exact (hrun.mp ⟨hfile,h⟩).2
  · intro h
    exact (hrun.mpr ⟨hfile,h⟩).2

end Runs

/-- As long as its file is there, a session comes back after every call
exactly when it was storable and no later call disturbs it. -/
theorem session_round_trip_iff (dir : StoreDir) (reader : FileReader) (before : List SessionOp)
    (store store' : List SessionFile) (c : Creation)
    (hb : run (step dir) before [] = .ok store) (hslash : slash ∉ c.name.bytes)
    (hc : sessionCreate dir store c = (store',0)) (ops : List SessionOp)
    (hfile : Along (step dir) (After (HasFile dir c)) ops store') :
    (RoundTrip dir reader c store' ∧ Along (step dir) (After (RoundTrip dir reader c)) ops store') ↔
      Storable dir reader c store ∧ Along (step dir) (Taken (Undisturbed dir c)) ops store' := by
  have ho : Opened dir store :=
    run_kept (fun s a t hs ht => step_opened dir s t a hs ht) before [] store (by simp [Opened]) hb
  have hstart := created_iff dir reader c store ho hslash (by rw [hc])
  have ho' := create_opened dir store c ho
  rw [hc] at hstart ho'
  rw [hstart]
  apply and_congr_right
  intro hs
  obtain ⟨d,hown,hk⟩ := own_fits dir c hslash ((key_shown_iff c).mpr hs.shown) hs.fits
  obtain ⟨⟨d',hheld⟩,hgives⟩ := (roundTrip_iff dir reader c store' ho').mp (hstart.mpr hs)
  have hd : d ∈ entries store' := by
    have hput := create_store dir c store (create_success dir c store (by rw [hc]))
    rw [hc, hown] at hput
    rw [show store' = putFile d c store from hput]
    exact (entries_putFile c store d d).mpr (.inl rfl)
  cases hheld.alone d hd hk
  exact run_held_iff dir reader c store' d ho' hown hheld hgives ops hfile

/-- A reader that takes an empty file for no file. -/
def nonEmptyReader : FileReader where
  toBuffer file := file.filter (· ≠ [])
  missing := rfl
  whole content h := by simp [h]
  empty := .inl rfl

/-- The session `a` in the empty store `/s`. -/
theorem stored_session_back :
    let dir := flatDir ⟨[47,115],by decide⟩ (by decide)
    let c : Creation := ⟨⟨[97],by decide⟩,⟨[118],by decide⟩,0,(1,2),true,1⟩
    RoundTrip dir nonEmptyReader c (sessionCreate dir [] c).1 := by
  refine ((session_round_trip_iff (flatDir ⟨[47,115],by decide⟩ (by decide)) nonEmptyReader [] [] _
    ⟨⟨[97],by decide⟩,⟨[118],by decide⟩,0,(1,2),true,1⟩ rfl (by decide) rfl [] trivial).mpr
    ⟨⟨by decide,by decide,?_,rfl,fun h => by cases h⟩,trivial⟩).1
  intro e he
  cases he

/-- The session `.x` is created, and never found, whatever the reader does. -/
theorem hidden_session_lost :
    let dir := flatDir ⟨[47,115],by decide⟩ (by decide)
    let c : Creation := ⟨⟨[46,120],by decide⟩,⟨[118],by decide⟩,0,(1,2),true,1⟩
    let entry : List UInt8 := [46,120,46,49,45,50,46,48]
    sessionCreate dir [] c = ([⟨entry,c,[118]⟩],0) ∧
      sessionIsset c.name (some c.uuid) (some [⟨entry,true⟩]) = .ok (-1) ∧
      ∀ reader, ¬RoundTrip dir reader c (sessionCreate dir [] c).1 := by
  have hlost : sessionIsset ⟨[46,120],by decide⟩ (some [49,45,50])
      (some [⟨[46,120,46,49,45,50,46,48],true⟩]) = .ok (-1) := by
    rw [sessionIsset, lookupEntry_ok _ _ (by decide)]
    rfl
  refine ⟨rfl,hlost,fun reader h => ?_⟩
  have hset := (h [⟨[46,120,46,49,45,50,46,48],true⟩] (List.Perm.refl _)).1
  cases hlost.symm.trans hset

end Duda.SessionRoundTrip
