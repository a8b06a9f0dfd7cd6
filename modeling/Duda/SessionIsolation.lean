import Duda.SessionStore

/-!
# Which session a request finds

The file of a session is found by the beginning of its name. Dots separate the
parts of the name and may stand inside the name of a session, so the parts can
be read in another way than they were put together.
-/

set_option autoImplicit false

namespace Duda.SessionIsolation
open Duda.CString Duda.DelimitedFields Duda.Router Duda.Session Duda.SessionStore

/-- The store after a sequence of calls of `duda_session_create`. -/
def created (dir : StoreDir) (calls : List Creation) : List SessionFile :=
  calls.foldl (fun store c => (sessionCreate dir store c).1) []

/-- For the values allowed, a file that is found was created with the name of
the request and with the value as its identifier. -/
def Isolated (allowed : List UInt8 → Prop) (store : List SessionFile) : Prop :=
  ∀ name val, allowed val → ∀ listing, ListsFiles store listing →
    ∀ d, lookupEntry name (some val) (some listing) = .ok (some d) →
      ∀ f ∈ store, f.entry = d → f.creation.name = name ∧ f.creation.uuid = val

/-- The loop over the directory does not skip the file. -/
def Visible (f : SessionFile) : Prop := cstr f.entry 0 ≠ dot

theorem created_opened (dir : StoreDir) (calls : List Creation) :
    Opened dir (created dir calls) := by
  have hrun : ∀ store, Opened dir store →
      Opened dir (calls.foldl (fun store c => (sessionCreate dir store c).1) store) := by
    induction calls with
    | nil => exact fun store h => h
    | cons c calls ih => exact fun store h => ih _ (create_opened dir store c h)
  apply hrun
  intro f hf
  cases hf

section Isolation

variable (dir : StoreDir) (store : List SessionFile) (ho : Opened dir store)
include ho

/-- A store is isolated if every visible file that is hit belongs to the session
that is asked for. -/
theorem isolated_hits_iff (allowed : List UInt8 → Prop) :
    Isolated allowed store ↔ ∀ f ∈ store, Visible f → ∀ name val, allowed val →
      Hit name val f.entry → name.bytes.length+val.length+3 ≤ uuidSize →
      f.creation.name = name ∧ f.creation.uuid = val := by
  constructor
  · intro h f hf hvis name val hval hhit hfit
    obtain ⟨hdots,-⟩ := entry_spec dir f.creation f.entry (ho f hf)
    obtain ⟨listing,hl,hfound⟩ := first_found store f hf name val
      ((eligible_iff _ hdots).mpr hvis) hhit hfit
    exact h name val hval listing hl _ hfound f hf rfl
  · intro h name val hval listing _ d hd f hf hfd
    obtain ⟨hdots,-⟩ := entry_spec dir f.creation f.entry (ho f hf)
    obtain ⟨helig,hhit,hfit⟩ := found_file name val d listing hd
    rw [← hfd] at helig hhit
    exact h f hf ((eligible_iff _ hdots).mp helig) name val hval hhit hfit

/-- With zero bytes in the value, any dot of a file name can be taken for the
end of the name. -/
theorem isolated_iff :
    Isolated (fun _ => True) store ↔ ∀ f ∈ store, Visible f → dot ∉ f.entry := by
  rw [isolated_hits_iff dir store ho]
  constructor
  · intro h f hf hvis hdot
    obtain ⟨-,-,hnul,hlen,-⟩ := entry_spec dir f.creation f.entry (ho f hf)
    have hpath := List.length_pos_iff.mpr dir.path_ne
    obtain ⟨a,b,hab,-⟩ := List.eq_append_cons_of_mem hdot
    have hab0 : 0 ∉ a ∧ 0 ∉ b := by
      rw [hab] at hnul
      simp only [List.mem_append, List.mem_cons, not_or] at hnul
      exact ⟨hnul.1,hnul.2.2⟩
    have htake : (b++[0]).takeWhile (· ≠ 0) = b := by
      have hpos : ∀ c ∈ b, decide (c ≠ 0) = true := by
        intro c hc
        exact decide_eq_true (fun h => hab0.2 (h ▸ hc))
      rw [List.takeWhile_append_of_pos hpos]
      simp
    have hhit : Hit ⟨a,hab0.1⟩ (b++[0]) f.entry := by
      rw [hit_nul_iff _ _ (by simp) _ hnul, htake]
      exact hab
    have hfit : a.length+(b++[0]).length+3 ≤ uuidSize := by
      have hentry := congrArg List.length hab
      simp only [uuidSize, List.length_append, List.length_cons, List.length_nil] at hentry ⊢
      omega
    have huuid := (h f hf hvis ⟨a,hab0.1⟩ (b++[0]) trivial hhit hfit).2
    have hzero : 0 ∈ f.creation.uuid := huuid ▸ List.mem_append_right _ (List.mem_singleton.mpr rfl)
    exact (uuidText_plain _ _ _ hzero).1 rfl
  · intro h f hf hvis name val _ hhit _
    obtain ⟨-,-,hnul,-⟩ := entry_spec dir f.creation f.entry (ho f hf)
    exfalso
    apply h f hf hvis
    by_cases h0 : 0 ∈ val
    · rw [(hit_nul_iff name val h0 _ hnul).mp hhit]
      simp
    · apply ((hit_plain_iff name val h0 _).mp hhit).subset
      simp [fields]

/-- Without zero bytes the dots in front of the identifier have to come from
the name of the session. -/
theorem isolated_plain_iff :
    Isolated (fun val => 0 ∉ val) store ↔
      ∀ f ∈ store, Visible f → f.entry.count dot < 2 ∨
        (dot ∉ f.creation.name.bytes ∧ slash ∉ f.creation.name.bytes) := by
  rw [isolated_hits_iff dir store ho]
  constructor
  · intro h f hf hvis
    obtain ⟨-,hslash,hnul,hlen,-⟩ := entry_spec dir f.creation f.entry (ho f hf)
    by_cases hc : f.entry.count dot < 2
    · exact .inl hc
    · right
      obtain ⟨a,b,ha,-,hpre⟩ := two_fields f.entry (not_lt.mp hc)
      have hsub : ∀ x, x ∈ a ∨ x ∈ b → x ∈ f.entry := by
        intro x hx
        apply hpre.subset
        simp only [fields, List.mem_append, List.mem_cons]
        tauto
      have ha0 : 0 ∉ a := fun hx => hnul (hsub 0 (.inl hx))
      have hb0 : 0 ∉ b := fun hx => hnul (hsub 0 (.inr hx))
      have hhit : Hit ⟨a,ha0⟩ b f.entry := (hit_plain_iff ⟨a,ha0⟩ b hb0 _).mpr hpre
      have hfit : a.length+b.length+3 ≤ uuidSize := by
        have hle := hpre.length_le
        rw [fields_length] at hle
        simp only [uuidSize]
        omega
      have hname := (h f hf hvis ⟨a,ha0⟩ b hb0 hhit hfit).1
      rw [hname]
      exact ⟨ha,fun hx => hslash (hsub slash (.inl hx))⟩
  · intro h f hf hvis name val h0 hhit _
    obtain ⟨-,-,-,-,hpre⟩ := entry_spec dir f.creation f.entry (ho f hf)
    have hfields := (hit_plain_iff name val h0 _).mp hhit
    have hcount := hfields.sublist.count_le dot
    rw [count_fields] at hcount
    rcases h f hf hvis with hfew | ⟨hdot,hslash⟩
    · omega
    · have hdet := fields_determined f.creation.name.bytes f.creation.uuid
        (intText f.creation.expires) name.bytes val hdot
        (fun hx => (uuidText_plain _ _ _ hx).2.1 rfl) (fun hx => (intText_plain _ _ hx).2.1 rfl)
        (hfields.trans (hpre hslash))
      exact ⟨(text_ext hdet.1).symm,hdet.2.symm⟩

end Isolation

/-- A lookup finds only the session it asks for exactly under these conditions
on the files that are looked at: for arbitrary cookies no file name has a dot,
for cookies without zero bytes a file name with two dots comes from a session
whose name has neither dot nor slash. -/
theorem session_isolated_iff (dir : StoreDir) (calls : List Creation) :
    (Isolated (fun _ => True) (created dir calls) ↔
      ∀ f ∈ created dir calls, Visible f → dot ∉ f.entry) ∧
    (Isolated (fun val => 0 ∉ val) (created dir calls) ↔
      ∀ f ∈ created dir calls, Visible f → f.entry.count dot < 2 ∨
        (dot ∉ f.creation.name.bytes ∧ slash ∉ f.creation.name.bytes)) :=
  ⟨isolated_iff dir _ (created_opened dir calls),
    isolated_plain_iff dir _ (created_opened dir calls)⟩

/-- The session `a.b` of one client, found by a request for the session `a`
with the cookie `b`. -/
theorem dotted_name_confused :
    let dir := flatDir ⟨[47,115],by decide⟩ (by decide)
    let c : Creation := ⟨⟨[97,46,98],by decide⟩,⟨[118],by decide⟩,0,(1,2),true,1⟩
    let entry : List UInt8 := [97,46,98,46,49,45,50,46,48]
    created dir [c] = [⟨entry,c,[118]⟩] ∧
      lookupEntry ⟨[97],by decide⟩ (some [98]) (some [⟨entry,true⟩]) = .ok (some entry) ∧
      ¬Isolated (fun val => 0 ∉ val) (created dir [c]) := by
  have hfound : lookupEntry ⟨[97],by decide⟩ (some [98])
      (some [⟨[97,46,98,46,49,45,50,46,48],true⟩]) =
      .ok (some [97,46,98,46,49,45,50,46,48]) := by
    rw [lookupEntry_ok _ _ (by decide)]
    rfl
  have hstore : created (flatDir ⟨[47,115],by decide⟩ (by decide))
      [⟨⟨[97,46,98],by decide⟩,⟨[118],by decide⟩,0,(1,2),true,1⟩] =
      [⟨[97,46,98,46,49,45,50,46,48],
        ⟨⟨[97,46,98],by decide⟩,⟨[118],by decide⟩,0,(1,2),true,1⟩,[118]⟩] := rfl
  refine ⟨hstore,hfound,?_⟩
  rw [hstore]
  intro h
  have hname := (h ⟨[97],by decide⟩ [98] (by decide)
    [⟨[97,46,98,46,49,45,50,46,48],true⟩] (List.Perm.refl _) _ hfound _
    (List.mem_singleton.mpr rfl) rfl).1
  revert hname
  decide

end Duda.SessionIsolation
