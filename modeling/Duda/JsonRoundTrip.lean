import Duda.JsonNumber
import Duda.JsonString
import Mathlib.Data.List.DropRight

/-!
# Documents are read back

The value of an item is what it stands for in JSON. An item whose numbers are whole and
whose strings are there is printed inside of the space that is computed for it, with or
without formatting, and the parser makes items of the same value from the text.
-/

set_option autoImplicit false

namespace Duda.JsonRoundTrip
open Duda.Binary64 Duda.CString Duda.Decimal Duda.Json Duda.JsonNumber Duda.JsonString
open Duda.MachineInt

section Values

/-- The values of JSON. -/
inductive Value where
  | null
  | bool (b : Bool)
  | number (d : Double)
  | string (s : Text)
  | array (elements : List Value)
  | object (members : List (Text × Value))

def emptyText : Text := ⟨[],by simp⟩

mutual

def valueOf : Item → Value
  | ⟨type,valuestring,_,valuedouble,_,child⟩ =>
    match type with
    | .NULL => .null
    | .False => .bool false
    | .True => .bool true
    | .Number => .number valuedouble
    | .String => .string (valuestring.getD emptyText)
    | .Array => .array (valuesOf child)
    | .Object => .object (membersOf child)

def valuesOf : List Item → List Value
  | [] => []
  | item::items => valueOf item::valuesOf items

def membersOf : List Item → List (Text × Value)
  | [] => []
  | item::items => (item.string.getD emptyText,valueOf item)::membersOf items

end

variable (P : Platform)

mutual

/-- The items that have a text of their own. -/
def Printable : Item → Prop
  | ⟨type,valuestring,valueint,valuedouble,_,child⟩ =>
    match type with
    | .Number => (∃ z : ℤ, |z| ≤ 2^53 ∧ valuedouble = ofInt z) ∧ valueint = toInt P valuedouble
    | .String => valuestring ≠ none
    | .Array => AllPrintable child
    | .Object => AllNamed child
    | _ => True

def AllPrintable : List Item → Prop
  | [] => True
  | item::items => Printable item ∧ AllPrintable items

def AllNamed : List Item → Prop
  | [] => True
  | item::items => item.string ≠ none ∧ Printable item ∧ AllNamed items

end

def numberText : Double → List UInt8
  | .finite q _ => signed ⌊q⌋
  | _ => []

def arrayText (fmt : Bool) (entries : List (List UInt8)) : List UInt8 :=
  91::((if fmt then [44,32] else [44]).intercalate entries++[93])

def objectText (depth : ℕ) (fmt : Bool) (members : List Member) : List UInt8 :=
  123::((if fmt then [10] else [])++membersText depth fmt members++
    (if fmt then List.replicate (depth-1) 9 else [])++[125])

mutual

def render : Item → ℕ → Bool → List UInt8
  | ⟨type,valuestring,_,valuedouble,_,child⟩, depth, fmt =>
    match type with
    | .NULL => nullText
    | .False => falseText
    | .True => trueText
    | .Number => numberText valuedouble
    | .String => quoted (valuestring.getD emptyText)
    | .Array => arrayText fmt (renderAll child (depth+1) fmt)
    | .Object => objectText (depth+1) fmt (renderMembers child (depth+1) fmt)

def renderAll : List Item → ℕ → Bool → List (List UInt8)
  | [], _, _ => []
  | item::items, depth, fmt => render item depth fmt::renderAll items depth fmt

def renderMembers : List Item → ℕ → Bool → List Member
  | [], _, _ => []
  | item::items, depth, fmt =>
    ⟨quoted (item.string.getD emptyText),render item depth fmt⟩::renderMembers items depth fmt

end

end Values

section Sizes

theorem intercalate_length (sep : List UInt8) (entries : List (List UInt8)) :
    (sep.intercalate entries).length+(if entries = [] then 0 else sep.length) =
      (entries.map fun entry => entry.length+sep.length).sum := by
  induction entries with
  | nil => rfl
  | cons entry entries ih =>
    cases entries with
    | nil => simp
    | cons next entries =>
      rw [List.intercalate_cons_cons, List.map_cons, List.sum_cons, ← ih]
      simp only [List.length_append, reduceCtorEq, if_false]
      omega

theorem sum_more (f : List UInt8 → ℕ) (entries : List (List UInt8)) :
    (entries.map fun entry => f entry+1).sum = (entries.map f).sum+entries.length := by
  induction entries with
  | nil => rfl
  | cons entry entries ih =>
    simp only [List.map_cons, List.sum_cons, ih, List.length_cons]
    omega

theorem printArray_text (fmt : Bool) (entries : List (List UInt8))
    (h : 2*(arrayText fmt entries).length+8 < 2^31) :
    printArray fmt entries = .ok (arrayText fmt entries) := by
  obtain ⟨sep,hsep,h1,h2⟩ : ∃ sep : List UInt8, (if fmt then [44,32] else [44]) = sep ∧
      1 ≤ sep.length ∧ (if fmt then 3 else 2) = sep.length+1 := by
    cases fmt
    · exact ⟨[44],rfl,le_refl 1,rfl⟩
    · exact ⟨[44,32],rfl,Nat.le_succ 1,rfl⟩
  have hcount : entries.length ≤ (entries.map fun entry => entry.length+sep.length).sum := by
    rw [← List.length_map (f := fun entry : List UInt8 => entry.length+sep.length)]
    exact List.length_le_sum_of_one_le _ fun n hn => by
      obtain ⟨entry,_,rfl⟩ := List.mem_map.1 hn
      omega
  have hlen := intercalate_length sep entries
  have hsum := sum_more (fun entry => entry.length+sep.length) entries
  have htext : (arrayText fmt entries).length = (sep.intercalate entries).length+2 := by
    rw [arrayText, hsep]
    simp
  have hsize : sep.length ≤ 2 := by
    rw [← hsep]
    cases fmt <;> simp
  rw [htext] at h
  have hi : i32 (5+(entries.map fun entry => entry.length+(sep.length+1)).sum) =
      5+(entries.map fun entry => entry.length+(sep.length+1)).sum := by
    simp only [← Nat.add_assoc, hsum]
    exact_mod_cast i32_natCast (5+((entries.map fun entry => entry.length+sep.length).sum+
      entries.length)) (by split_ifs at hlen <;> omega)
  unfold printArray
  simp only [h2]
  rw [hi, ← arrayText]
  apply compose_fits
  rw [htext]
  simp only [← Nat.add_assoc, hsum]
  split_ifs at hlen <;> omega

theorem membersText_length (depth : ℕ) (fmt : Bool) (members : List Member) :
    (membersText depth fmt members).length+(if members = [] then 0 else 1) =
      (members.map fun m => m.entry.length+m.name.length+(if fmt then 4+depth else 2)).sum := by
  induction members with
  | nil => rfl
  | cons m members ih =>
    have hm : (m.text depth fmt).length+1+(if fmt then 1 else 0) =
        m.entry.length+m.name.length+(if fmt then 4+depth else 2) := by
      cases fmt <;> simp [Member.text] <;> omega
    have hline : (if fmt then [10] else [] : List UInt8).length = if fmt then 1 else 0 := by
      cases fmt <;> rfl
    rw [List.map_cons, List.sum_cons, ← hm]
    cases members with
    | nil =>
      rw [membersText]
      simp only [List.length_append, hline, reduceCtorEq, if_false, List.map_nil, List.sum_nil]
      omega
    | cons next members =>
      rw [membersText, ← ih]
      · simp only [List.length_append, hline, reduceCtorEq, if_false, List.length_singleton]
        omega
      · simp

theorem printObject_text (depth : ℕ) (fmt : Bool) (members : List Member)
    (h : 2*(objectText (depth+1) fmt members).length+8 < 2^31) :
    printObject (depth+1) fmt members = .ok (objectText (depth+1) fmt members) := by
  have hlen := membersText_length (depth+1) fmt members
  have htext : (objectText (depth+1) fmt members).length =
      (membersText (depth+1) fmt members).length+2+(if fmt then depth+1 else 0) := by
    cases fmt
    · simp [objectText]
    · simp [objectText]
      omega
  unfold printObject
  simp only
  rw [← objectText]
  generalize (members.map fun m => m.entry.length+m.name.length+
    (if fmt then 4+(depth+1) else 2)).sum = sum at hlen ⊢
  generalize (if fmt then depth+1 else 0) = tabs at htext ⊢
  have hsmall : sum ≤ (membersText (depth+1) fmt members).length+1 := by
    rw [← hlen]
    split_ifs <;> omega
  have hi : i32 (7+(tabs : ℤ)+(sum : ℤ)) = 7+tabs+sum := by
    exact_mod_cast i32_natCast (7+tabs+sum) (by omega)
  rw [hi]
  apply compose_fits
  rw [htext]
  split_ifs at hlen <;> omega

end Sizes

section Printing

variable (P : Platform)

theorem numberText_whole {z : ℤ} (h : |z| ≤ 2^53) : numberText (ofInt z) = signed z := by
  rw [ofInt_finite h, numberText, Int.floor_intCast]

theorem printNumber_text {z : ℤ} (h : |z| ≤ 2^53) :
    printNumber P (toInt P (ofInt z)) (ofInt z) = .ok (numberText (ofInt z)) := by
  have hrange := abs_le.1 h
  rw [numberText_whole h, ofInt_finite h, printNumber_whole P (int_finite h) rfl]
  apply compose_fits
  split_ifs with hin
  · have := signed_length_le (z := z) (k := 10) (by norm_num) (by omega) (by omega)
    omega
  · have := signed_length_le (z := z) (k := 16) (by norm_num) (by omega) (by omega)
    omega

theorem intercalate_entry (sep : List UInt8) {entry : List UInt8} {entries : List (List UInt8)}
    (h : entry ∈ entries) : entry.length ≤ (sep.intercalate entries).length := by
  induction entries with
  | nil => simp at h
  | cons first entries ih =>
    cases entries with
    | nil =>
      rw [List.mem_singleton] at h
      rw [List.intercalate_singleton, h]
    | cons next entries =>
      rw [List.intercalate_cons_cons, List.length_append, List.length_append]
      rcases List.mem_cons.1 h with rfl | hlater
      · omega
      · have := ih hlater
        omega

theorem arrayText_entry (fmt : Bool) {entry : List UInt8} {entries : List (List UInt8)}
    (h : entry ∈ entries) : entry.length ≤ (arrayText fmt entries).length := by
  have hin := intercalate_entry (if fmt then [44,32] else [44]) h
  rw [arrayText, List.length_cons, List.length_append]
  omega

theorem membersText_member (depth : ℕ) (fmt : Bool) {m : Member} {members : List Member}
    (h : m ∈ members) :
    m.name.length+m.entry.length ≤ (membersText depth fmt members).length := by
  have hlen := membersText_length depth fmt members
  have hsum := List.single_le_sum (l := members.map fun m => m.entry.length+m.name.length+
    (if fmt then 4+depth else 2)) (by simp) _ (List.mem_map_of_mem h)
  split_ifs at hlen hsum <;> omega

theorem objectText_member (depth : ℕ) (fmt : Bool) {m : Member} {members : List Member}
    (h : m ∈ members) :
    m.name.length+m.entry.length ≤ (objectText depth fmt members).length := by
  have hin := membersText_member depth fmt h
  rw [objectText, List.length_cons, List.length_append, List.length_append, List.length_append]
  omega

mutual

/-- An item is printed as its text. -/
theorem printValue_render : ∀ (item : Item) (depth : ℕ) (fmt : Bool), Printable P item →
    2*(render item depth fmt).length+8 < 2^31 →
    printValue P item depth fmt = .ok (render item depth fmt)
  | ⟨type,valuestring,valueint,valuedouble,_,child⟩, depth, fmt, hp, hl => by
    cases type with
    | NULL => rfl
    | False => rfl
    | True => rfl
    | Number =>
      obtain ⟨⟨z,hz,rfl⟩,rfl⟩ := hp
      exact printNumber_text P hz
    | String =>
      obtain ⟨str,rfl⟩ := Option.ne_none_iff_exists'.1 hp
      simp only [render, Option.getD_some] at hl
      exact printString_quoted str (by omega)
    | Array =>
      simp only [render] at hl
      have hall := printEntries_render child (depth+1) fmt hp fun entry he => by
        have := arrayText_entry fmt he
        omega
      rw [printValue, hall]
      exact printArray_text fmt _ hl
    | Object =>
      simp only [render] at hl
      have hall := printMembers_render child (depth+1) fmt hp fun m hm => by
        have := objectText_member (depth+1) fmt hm
        omega
      rw [printValue, hall]
      exact printObject_text depth fmt _ hl

theorem printEntries_render : ∀ (items : List Item) (depth : ℕ) (fmt : Bool),
    AllPrintable P items → (∀ entry ∈ renderAll items depth fmt, 2*entry.length+8 < 2^31) →
    printEntries P items depth fmt = .ok (renderAll items depth fmt)
  | [], _, _, _, _ => rfl
  | item::items, depth, fmt, hp, hl => by
    rw [renderAll, List.forall_mem_cons] at hl
    rw [printEntries, printValue_render item depth fmt hp.1 hl.1,
      printEntries_render items depth fmt hp.2 hl.2]
    rfl

theorem printMembers_render : ∀ (items : List Item) (depth : ℕ) (fmt : Bool),
    AllNamed P items →
    (∀ m ∈ renderMembers items depth fmt, 2*(m.name.length+m.entry.length)+8 < 2^31) →
    printMembers P items depth fmt = .ok (renderMembers items depth fmt)
  | [], _, _, _, _ => rfl
  | item::items, depth, fmt, hp, hl => by
    rw [renderMembers, List.forall_mem_cons] at hl
    obtain ⟨name,hname⟩ := Option.ne_none_iff_exists'.1 hp.1
    rw [hname, Option.getD_some] at hl
    simp only at hl
    rw [printMembers, hname, printString_quoted name (by omega),
      printValue_render item depth fmt hp.2.1 (by omega),
      printMembers_render items depth fmt hp.2.2 hl.2, renderMembers, hname]
    rfl

end

end Printing

section Parsing

variable (P : Platform)

mutual

/-- The item that the parser makes from the text of an item. -/
def reread : Item → Item
  | ⟨type,valuestring,_,valuedouble,_,child⟩ =>
    match type with
    | .NULL => { newItem with type := .NULL }
    | .False => { newItem with type := .False }
    | .True => { newItem with type := .True, valueint := 1 }
    | .Number => cjsonCreateNumber P valuedouble
    | .String => { newItem with type := .String, valuestring := valuestring }
    | .Array => { newItem with type := .Array, child := rereadAll child }
    | .Object => { newItem with type := .Object, child := rereadNamed child }

def rereadAll : List Item → List Item
  | [] => []
  | item::items => reread item::rereadAll items

def rereadNamed : List Item → List Item
  | [] => []
  | item::items => { reread item with string := item.string }::rereadNamed items

end

mutual

theorem valueOf_reread : ∀ item : Item, valueOf (reread P item) = valueOf item
  | ⟨type,valuestring,_,valuedouble,_,child⟩ => by
    cases type with
    | NULL => rfl
    | False => rfl
    | True => rfl
    | Number => rfl
    | String => rfl
    | Array =>
      simp only [reread, valueOf]
      rw [valuesOf_reread child]
    | Object =>
      simp only [reread, valueOf]
      rw [membersOf_reread child]

theorem valuesOf_reread : ∀ items : List Item, valuesOf (rereadAll P items) = valuesOf items
  | [] => rfl
  | item::items => by
    rw [rereadAll, valuesOf, valuesOf, valueOf_reread item, valuesOf_reread items]

theorem membersOf_reread : ∀ items : List Item,
    membersOf (rereadNamed P items) = membersOf items
  | [] => rfl
  | item::items => by
    have hname : valueOf { reread P item with string := item.string } =
        valueOf (reread P item) := by
      cases reread P item
      rfl
    rw [rereadNamed, membersOf, membersOf, hname, valueOf_reread item, membersOf_reread items]

end

def Blank (ws : List UInt8) : Prop := ∀ c ∈ ws, c.toNat ≤ 32

theorem skip_dark {c : UInt8} (p : List UInt8) (h : 32 < c.toNat) : skip (c::p) = c::p := by
  simp [skip, h]

theorem skip_blank {ws : List UInt8} (p : List UInt8) (h : Blank ws) : skip (ws++p) = skip p := by
  induction ws with
  | nil => rfl
  | cons c ws ih =>
    rw [Blank, List.forall_mem_cons] at h
    have hc : skip (c::(ws++p)) = skip (ws++p) := by simp [skip, h.1]
    rw [List.cons_append, hc, ih h.2]

theorem stops_dark {c : UInt8} (p : List UInt8) (h : c = 44 ∨ c = 93 ∨ c = 125 ∨ c.toNat ≤ 32) :
    Stops (c::p) := by
  intro d hd
  simp only [List.head?_cons, Option.mem_def, Option.some.injEq] at hd
  subst hd
  rcases h with rfl | rfl | rfl | h
  · decide
  · decide
  · decide
  · refine ⟨fun hdigit => ?_,?_,?_,?_⟩
    · rw [IsDigit] at hdigit
      omega
    all_goals
      rintro rfl
      simp at h

theorem stops_blank {ws : List UInt8} (p : List UInt8) (h : Blank ws) : Stops (ws++125::p) := by
  cases ws with
  | nil => exact stops_dark p (.inr (.inr (.inl rfl)))
  | cons c ws => exact stops_dark _ (.inr (.inr (.inr (h c (by simp)))))

variable (k : ℕ) (item : Item) (depth : ℕ) (fmt : Bool)

theorem render_head (h : Printable P item) :
    ∃ c t, render item depth fmt = c::t ∧ 32 < c.toNat ∧ c ≠ 93 ∧ c ≠ 125 := by
  obtain ⟨type,valuestring,valueint,valuedouble,string,child⟩ := item
  cases type with
  | NULL => exact ⟨_,_,rfl,by decide⟩
  | False => exact ⟨_,_,rfl,by decide⟩
  | True => exact ⟨_,_,rfl,by decide⟩
  | Number =>
    obtain ⟨⟨z,hz,rfl⟩,_⟩ := h
    simp only [render, numberText_whole hz]
    unfold signed
    split_ifs
    · exact ⟨45,_,rfl,by decide⟩
    · obtain ⟨c,t,ht⟩ := List.exists_cons_of_ne_nil (decimal_ne_nil z.natAbs)
      have hc : IsDigit c := decimal_isDigit z.natAbs c (by rw [ht]; simp)
      rw [IsDigit] at hc
      refine ⟨c,t,ht,by omega,?_,?_⟩
      all_goals
        rintro rfl
        simp at hc
  | String => exact ⟨34,_,rfl,by decide⟩
  | Array => exact ⟨91,_,rfl,by decide⟩
  | Object => exact ⟨123,_,rfl,by decide⟩

theorem skip_render (h : Printable P item) {ws : List UInt8} (hw : Blank ws) (p : List UInt8) :
    skip (ws++(render item depth fmt++p)) = render item depth fmt++p := by
  obtain ⟨c,t,ht,hc,_⟩ := render_head P item depth fmt h
  rw [skip_blank _ hw, ht, List.cons_append, skip_dark _ hc]

theorem parseValue_null (rest : List UInt8) :
    parseValue P (k+1) (nullText++rest) = .ok { newItem with type := .NULL } rest := by
  rw [parseValue.eq_def]
  simp only
  rw [if_pos (List.prefix_append _ _)]
  rfl

theorem parseValue_false (rest : List UInt8) :
    parseValue P (k+1) (falseText++rest) = .ok { newItem with type := .False } rest := by
  rw [parseValue.eq_def]
  simp only
  rw [if_neg (by simp [nullText, falseText]), if_pos (List.prefix_append _ _)]
  rfl

theorem parseValue_true (rest : List UInt8) :
    parseValue P (k+1) (trueText++rest) =
      .ok { newItem with type := .True, valueint := 1 } rest := by
  rw [parseValue.eq_def]
  simp only
  rw [if_neg (by simp [nullText, trueText]), if_neg (by simp [falseText, trueText]),
    if_pos (List.prefix_append _ _)]
  rfl

theorem parseValue_number {z : ℤ} (rest : List UInt8) (hz : |z| ≤ 2^53) (hr : Stops rest) :
    parseValue P (k+1) (signed z++rest) = .ok (cjsonCreateNumber P (ofInt z)) rest := by
  have hhead : ∃ c t, signed z = c::t ∧ (c = 45 ∨ IsDigit c) := by
    unfold signed
    split_ifs
    · exact ⟨45,_,rfl,.inl rfl⟩
    · obtain ⟨c,t,ht⟩ := List.exists_cons_of_ne_nil (decimal_ne_nil z.natAbs)
      exact ⟨c,t,ht,.inr (decimal_isDigit z.natAbs c (by rw [ht]; simp))⟩
  obtain ⟨c,t,ht,hc⟩ := hhead
  have hother : (c ≠ 110 ∧ c ≠ 102 ∧ c ≠ 116) ∧ c ≠ 34 := by
    refine ⟨⟨?_,?_,?_⟩,?_⟩
    all_goals
      rintro rfl
      revert hc
      decide
  have hnumber := parseNumber_signed P z rest hz hr
  rw [ht, List.cons_append] at hnumber ⊢
  rw [parseValue_other P k c _ hother.1, if_neg hother.2, if_pos hc, hnumber]

theorem parseValue_string (str : Text) (rest : List UInt8) (h : (quoted str).length < 2^31) :
    parseValue P (k+1) (quoted str++rest) =
      .ok { newItem with type := .String, valuestring := some str } rest := by
  have hread := quoted_read str rest h
  rw [quoted, List.cons_append] at hread ⊢
  rw [parseValue_other P k 34 _ (by decide), if_pos rfl, hread]
  rfl

theorem opened_empty (close : UInt8) (children : List UInt8 → Parsed (List Item))
    {p rest : List UInt8} (h : skip p = close::rest) : opened close children p = .ok [] rest := by
  rw [opened, h]
  exact if_pos rfl

theorem opened_children {close c : UInt8} (children : List UInt8 → Parsed (List Item))
    {p t : List UInt8} (h : skip p = c::t) (hc : c ≠ close) :
    opened close children p = children (c::t) := by
  rw [opened, h]
  exact if_neg hc

theorem followed_close {close : UInt8} (child : Item) (more : List UInt8 → Parsed (List Item))
    {p rest : List UInt8} (h : skip p = close::rest) (hc : close ≠ 44) :
    followed close child more p = .ok [child] rest := by
  rw [followed, h]
  simp only [if_neg hc, if_true]

theorem followed_comma {close : UInt8} (child : Item) (more : List UInt8 → Parsed (List Item))
    (p : List UInt8) {children : List Item} {rest : List UInt8} (h : more p = .ok children rest) :
    followed close child more (44::p) = .ok (child::children) rest := by
  rw [followed, skip_dark p (by decide)]
  simp only [if_true, h]
  rfl

theorem named_read (value : List UInt8 → Parsed Item) {ws ws' : List UInt8} (name : Text)
    (p : List UInt8) {child : Item} {rest : List UInt8} (hw : Blank ws) (hw' : Blank ws')
    (hl : (quoted name).length < 2^31) (hp : skip p = p) (hv : value p = .ok child rest) :
    named value (ws++(quoted name++58::(ws'++p))) =
      .ok { child with string := some name } rest := by
  have hskip : skip (ws++(quoted name++58::(ws'++p))) = quoted name++58::(ws'++p) := by
    rw [skip_blank _ hw, quoted, List.cons_append, skip_dark _ (by decide)]
  rw [named, hskip, quoted_read name _ hl, Parsed.bind, skip_dark _ (by decide)]
  simp only [if_true]
  rw [skip_blank _ hw', hp, hv]
  rfl

def gap (fmt : Bool) : List UInt8 := if fmt then [32] else []

def entriesText (fmt : Bool) : List (List UInt8) → List UInt8
  | [] => []
  | [entry] => entry
  | entry::entries => entry++44::(gap fmt++entriesText fmt entries)

theorem entriesText_cons (entry next : List UInt8) (entries : List (List UInt8)) :
    entriesText fmt (entry::next::entries) =
      entry++44::(gap fmt++entriesText fmt (next::entries)) := rfl

theorem intercalate_entries (entries : List (List UInt8)) :
    (if fmt then [44,32] else [44]).intercalate entries = entriesText fmt entries := by
  induction entries with
  | nil => rfl
  | cons entry entries ih =>
    cases entries with
    | nil => exact List.intercalate_singleton
    | cons next entries =>
      rw [List.intercalate_cons_cons, ih, entriesText_cons]
      cases fmt <;> simp [gap]

theorem gap_blank : Blank (gap fmt) := by
  cases fmt <;> simp [gap, Blank]

def newline (fmt : Bool) : List UInt8 := if fmt then [10] else []

def indent (depth : ℕ) (fmt : Bool) : List UInt8 := if fmt then List.replicate depth 9 else []

def tab (fmt : Bool) : List UInt8 := if fmt then [9] else []

theorem objectText_eq (members : List Member) :
    objectText (depth+1) fmt members =
      123::(newline fmt++(membersText (depth+1) fmt members++(indent depth fmt++[125]))) := by
  simp [objectText, newline, indent]

theorem member_text (m : Member) (depth : ℕ) (fmt : Bool) :
    m.text depth fmt = indent depth fmt++(m.name++58::(tab fmt++m.entry)) := by
  simp [Member.text, indent, tab]

theorem membersText_one (m : Member) :
    membersText depth fmt [m] = m.text depth fmt++newline fmt := rfl

theorem membersText_cons (m next : Member) (members : List Member) :
    membersText depth fmt (m::next::members) =
      m.text depth fmt++44::(newline fmt++membersText depth fmt (next::members)) := by
  rw [membersText]
  · simp [newline]
  · simp

theorem tab_blank : Blank (tab fmt) := by
  cases fmt <;> simp [tab, Blank]

theorem newline_blank : Blank (newline fmt) := by
  cases fmt <;> simp [newline, Blank]

theorem indent_blank : Blank (indent depth fmt) := by
  cases fmt <;> simp [indent, Blank]

theorem blank_append {a b : List UInt8} (ha : Blank a) (hb : Blank b) : Blank (a++b) := by
  intro c hc
  rcases List.mem_append.1 hc with h | h
  · exact ha c h
  · exact hb c h

theorem entriesText_head (items : List Item) (depth : ℕ) (fmt : Bool) (h : Printable P item) :
    ∃ c t, entriesText fmt (renderAll (item::items) depth fmt) = c::t ∧
      32 < c.toNat ∧ c ≠ 93 ∧ c ≠ 125 := by
  obtain ⟨c,t,ht,hc⟩ := render_head P item depth fmt h
  cases items with
  | nil => exact ⟨c,t,ht,hc⟩
  | cons next items =>
    rw [renderAll, renderAll, entriesText_cons, ht]
    exact ⟨c,_,rfl,hc⟩

theorem membersText_head (items : List Item) (depth : ℕ) (fmt : Bool) :
    ∃ t, membersText depth fmt (renderMembers (item::items) depth fmt) =
      indent depth fmt++34::t := by
  cases items with
  | nil =>
    rw [renderMembers, renderMembers, membersText_one, member_text]
    simp only [quoted]
    exact ⟨_,by simp only [List.cons_append, List.append_assoc]; rfl⟩
  | cons next items =>
    rw [renderMembers, renderMembers, membersText_cons, member_text]
    simp only [quoted]
    exact ⟨_,by simp only [List.cons_append, List.append_assoc]; rfl⟩

theorem member_length (m : Member) (depth : ℕ) (fmt : Bool) :
    m.name.length+m.entry.length+1 ≤ (m.text depth fmt).length := by
  rw [member_text]
  simp only [List.length_append, List.length_cons]
  omega

theorem member_read (value : List UInt8 → Parsed Item) {ws p : List UInt8} (hw : Blank ws)
    (hname : item.string ≠ none) (hp : Printable P item)
    (hl : (quoted (item.string.getD emptyText)).length < 2^31)
    (hv : value (render item depth fmt++p) = .ok (reread P item) p) :
    named value (ws++(Member.text ⟨quoted (item.string.getD emptyText),render item depth fmt⟩
      depth fmt++p)) = .ok { reread P item with string := item.string } p := by
  obtain ⟨name,hn⟩ := Option.ne_none_iff_exists'.1 hname
  have hskip : skip (render item depth fmt++p) = render item depth fmt++p := by
    have h := skip_render P item depth fmt hp (show Blank [] by simp [Blank]) p
    rwa [List.nil_append] at h
  have hread := named_read value name _ (blank_append hw (indent_blank depth fmt)) (tab_blank fmt)
    (by rwa [hn, Option.getD_some] at hl) hskip hv
  rw [hn, Option.getD_some, member_text]
  simpa only [List.append_assoc, List.cons_append] using hread

theorem skip_skip (p : List UInt8) : skip (skip p) = skip p := List.dropWhile_idempotent _ _

theorem parseMembers_skip (p : List UInt8) : parseMembers P k (skip p) = parseMembers P k p := by
  cases k with
  | zero => rfl
  | succ k => rw [parseMembers, parseMembers, named, named, skip_skip]

mutual

/-- The text of an item is read as an item of the same value. -/
theorem parseValue_render : ∀ (item : Item) (depth : ℕ) (fmt : Bool) (k : ℕ) (rest : List UInt8),
    Printable P item → 2*(render item depth fmt).length ≤ k →
    (render item depth fmt).length < 2^31 → Stops rest →
    parseValue P k (render item depth fmt++rest) = .ok (reread P item) rest
  | ⟨type,valuestring,valueint,valuedouble,string,child⟩, depth, fmt, k, rest, hp, hk, hl, hr => by
    obtain ⟨c,t,ht,hc⟩ := render_head P _ depth fmt hp
    obtain ⟨k,rfl⟩ : ∃ n, k = n+1 :=
      Nat.exists_eq_succ_of_ne_zero (by rw [ht, List.length_cons] at hk; omega)
    clear ht hc
    cases type with
    | NULL => exact parseValue_null P k rest
    | False => exact parseValue_false P k rest
    | True => exact parseValue_true P k rest
    | Number =>
      obtain ⟨⟨z,hz,rfl⟩,_⟩ := hp
      simp only [render, numberText_whole hz]
      exact parseValue_number P k rest hz hr
    | String =>
      obtain ⟨str,rfl⟩ := Option.ne_none_iff_exists'.1 hp
      exact parseValue_string P k str rest hl
    | Array =>
      simp only [render, arrayText, intercalate_entries, List.length_cons, List.length_append]
        at hk hl ⊢
      rw [List.cons_append, List.append_assoc, List.singleton_append,
        parseValue_other P k 91 _ (by decide), if_neg (by decide), if_neg (by decide), if_pos rfl]
      cases child with
      | nil =>
        rw [renderAll, entriesText, List.nil_append,
          opened_empty 93 _ (skip_dark rest (by decide))]
        rfl
      | cons item items =>
        have hall := parseElements_render (item::items) (depth+1) fmt k [] rest (by simp)
          (by simp [Blank]) hp (by omega) (by omega)
        obtain ⟨c,t,ht,hdark,h93,_⟩ := entriesText_head P item items (depth+1) fmt hp.1
        rw [List.nil_append, ht, List.cons_append] at hall
        rw [ht, List.cons_append, opened_children _ (skip_dark _ hdark) h93, hall]
        rfl
    | Object =>
      simp only [render, objectText_eq, List.length_cons, List.length_append] at hk hl ⊢
      rw [List.cons_append, parseValue_other P k 123 _ (by decide), if_neg (by decide),
        if_neg (by decide), if_neg (by decide), if_pos rfl]
      simp only [List.append_assoc, List.singleton_append]
      cases child with
      | nil =>
        have hskip : skip (newline fmt++(indent depth fmt++125::rest)) = 125::rest := by
          rw [skip_blank _ (newline_blank fmt), skip_blank _ (indent_blank depth fmt),
            skip_dark _ (by decide)]
        rw [renderMembers, membersText, List.nil_append, opened_empty 125 _ hskip]
        rfl
      | cons item items =>
        obtain ⟨t,ht⟩ := membersText_head item items (depth+1) fmt
        have hall := parseMembers_render (item::items) (depth+1) fmt k [] (indent depth fmt) rest
          (by simp) (by simp [Blank]) (indent_blank depth fmt) hp (by omega) (by omega)
        have hskip : ∀ ws, Blank ws → skip (ws++(membersText (depth+1) fmt
            (renderMembers (item::items) (depth+1) fmt)++(indent depth fmt++125::rest))) =
              34::(t++(indent depth fmt++125::rest)) := by
          intro ws hw
          rw [skip_blank _ hw, ht, List.append_assoc, skip_blank _ (indent_blank (depth+1) fmt),
            List.cons_append, skip_dark _ (by decide)]
        rw [← parseMembers_skip, hskip [] (by simp [Blank])] at hall
        rw [opened_children _ (hskip _ (newline_blank fmt)) (by decide), hall]
        rfl

theorem parseElements_render : ∀ (items : List Item) (depth : ℕ) (fmt : Bool) (k : ℕ)
    (ws rest : List UInt8), items ≠ [] → Blank ws → AllPrintable P items →
    2*(entriesText fmt (renderAll items depth fmt)).length+1 ≤ k →
    (entriesText fmt (renderAll items depth fmt)).length < 2^31 →
    parseElements P k (ws++(entriesText fmt (renderAll items depth fmt)++93::rest)) =
      .ok (rereadAll P items) rest
  | [], _, _, _, _, _, hne, _, _, _, _ => absurd rfl hne
  | [item], depth, fmt, k, ws, rest, _, hw, hp, hk, hl => by
    obtain ⟨k,rfl⟩ : ∃ n, k = n+1 := Nat.exists_eq_succ_of_ne_zero (by omega)
    rw [renderAll, renderAll, entriesText] at hk hl ⊢
    rw [parseElements, skip_render P item depth fmt hp.1 hw,
      parseValue_render item depth fmt k (93::rest) hp.1 (by omega) hl
        (stops_dark rest (.inr (.inl rfl))), Parsed.bind,
      followed_close _ _ (skip_dark rest (by decide)) (by decide)]
    rfl
  | item::next::items, depth, fmt, k, ws, rest, _, hw, hp, hk, hl => by
    obtain ⟨k,rfl⟩ : ∃ n, k = n+1 := Nat.exists_eq_succ_of_ne_zero (by omega)
    rw [renderAll, renderAll, entriesText_cons, ← renderAll] at hk hl ⊢
    simp only [List.length_append, List.length_cons] at hk hl
    have hmore := parseElements_render (next::items) depth fmt k (gap fmt) rest (by simp)
      (gap_blank fmt) hp.2 (by omega) (by omega)
    rw [parseElements, List.append_assoc, List.cons_append, List.append_assoc,
      skip_render P item depth fmt hp.1 hw,
      parseValue_render item depth fmt k _ hp.1 (by omega) (by omega) (stops_dark _ (.inl rfl)),
      Parsed.bind, followed_comma _ _ _ hmore]
    rfl

theorem parseMembers_render : ∀ (items : List Item) (depth : ℕ) (fmt : Bool) (k : ℕ)
    (ws tail rest : List UInt8), items ≠ [] → Blank ws → Blank tail → AllNamed P items →
    2*(membersText depth fmt (renderMembers items depth fmt)).length+1 ≤ k →
    (membersText depth fmt (renderMembers items depth fmt)).length < 2^31 →
    parseMembers P k (ws++(membersText depth fmt (renderMembers items depth fmt)++
      (tail++125::rest))) = .ok (rereadNamed P items) rest
  | [], _, _, _, _, _, _, hne, _, _, _, _, _ => absurd rfl hne
  | [item], depth, fmt, k, ws, tail, rest, _, hw, ht, hp, hk, hl => by
    obtain ⟨k,rfl⟩ : ∃ n, k = n+1 := Nat.exists_eq_succ_of_ne_zero (by omega)
    have hend : Blank (newline fmt++tail) := blank_append (newline_blank fmt) ht
    rw [renderMembers, renderMembers, membersText_one, List.length_append] at hk hl
    have hlen := member_length ⟨quoted (item.string.getD emptyText),render item depth fmt⟩ depth fmt
    simp only at hlen
    have hread := member_read P item depth fmt (parseValue P k) hw hp.1 hp.2.1 (by omega)
      (parseValue_render item depth fmt k (newline fmt++tail++125::rest) hp.2.1 (by omega)
        (by omega) (stops_blank rest hend))
    rw [renderMembers, renderMembers, membersText_one, parseMembers, List.append_assoc,
      ← List.append_assoc (newline fmt), hread, Parsed.bind,
      followed_close _ _ ((skip_blank _ hend).trans (skip_dark rest (by decide))) (by decide)]
    rfl
  | item::next::items, depth, fmt, k, ws, tail, rest, _, hw, ht, hp, hk, hl => by
    obtain ⟨k,rfl⟩ : ∃ n, k = n+1 := Nat.exists_eq_succ_of_ne_zero (by omega)
    rw [renderMembers, renderMembers, membersText_cons, ← renderMembers] at hk hl ⊢
    simp only [List.length_append, List.length_cons] at hk hl
    have hlen := member_length ⟨quoted (item.string.getD emptyText),render item depth fmt⟩ depth fmt
    simp only at hlen
    have hmore := parseMembers_render (next::items) depth fmt k (newline fmt) tail rest (by simp)
      (newline_blank fmt) ht hp.2.2 (by omega) (by omega)
    have hread := member_read P item depth fmt (parseValue P k) hw hp.1 hp.2.1 (by omega)
      (parseValue_render item depth fmt k (44::(newline fmt++(membersText depth fmt
        (renderMembers (next::items) depth fmt)++(tail++125::rest)))) hp.2.1 (by omega) (by omega)
        (stops_dark _ (.inl rfl)))
    rw [parseMembers, List.append_assoc, List.cons_append, List.append_assoc, hread, Parsed.bind,
      followed_comma _ _ _ hmore]
    rfl

end

end Parsing

section Documents

variable (P : Platform)

theorem signed_nulFree (z : ℤ) : 0 ∉ signed z := by
  intro h
  have hdigit : ∀ c ∈ signed z, c = 45 ∨ IsDigit c := by
    unfold signed
    split_ifs
    · exact List.forall_mem_cons.2 ⟨.inl rfl,fun c hc => .inr (decimal_isDigit _ c hc)⟩
    · exact fun c hc => .inr (decimal_isDigit _ c hc)
  exact absurd (hdigit 0 h) (by decide)

theorem quoted_nulFree (str : Text) : 0 ∉ quoted str := by
  have hchar : ∀ c ∈ str.bytes, 0 ∉ printedChar c := by
    intro c hc h0
    have hne : c ≠ 0 := fun h => str.nulFree (h ▸ hc)
    have hhex : ∀ n < 16, CType.hexDigit n ≠ 0 := by
      intro n hn h
      have hv := CType.hexValue_hexDigit hn
      rw [h] at hv
      exact absurd hv (by simp [CType.hexValue])
    unfold printedChar at h0
    split_ifs at h0
    · exact hne (List.mem_singleton.1 h0).symm
    · cases he : escapeLetter c with
      | some letter =>
        rw [he] at h0
        simp [(escapeLetter_back he).2.1.symm] at h0
      | none =>
        rw [he] at h0
        have hlt := c.toNat_lt
        have h1 := hhex (c.toNat/16) (by omega)
        have h2 := hhex (c.toNat%16) (by omega)
        simp [h1.symm, h2.symm] at h0
  intro h
  simp only [quoted, List.mem_cons, List.mem_append, List.mem_flatMap] at h
  rcases h with h | ⟨c,hc,h⟩ | h
  · exact absurd h (by decide)
  · exact hchar c hc h
  · exact absurd h (by decide)

theorem entriesText_nulFree (fmt : Bool) (entries : List (List UInt8))
    (h : ∀ entry ∈ entries, 0 ∉ entry) : 0 ∉ entriesText fmt entries := by
  induction entries with
  | nil => simp [entriesText]
  | cons entry entries ih =>
    rw [List.forall_mem_cons] at h
    cases entries with
    | nil => exact h.1
    | cons next entries =>
      have hgap : 0 ∉ gap fmt := by cases fmt <;> simp [gap]
      rw [entriesText_cons]
      simp [h.1, hgap, ih h.2]

theorem membersText_nulFree (depth : ℕ) (fmt : Bool) (members : List Member)
    (h : ∀ m ∈ members, 0 ∉ m.name ∧ 0 ∉ m.entry) : 0 ∉ membersText depth fmt members := by
  have hline : 0 ∉ newline fmt := by cases fmt <;> simp [newline]
  have htext : ∀ m ∈ members, 0 ∉ m.text depth fmt := by
    intro m hm
    have hindent : 0 ∉ indent depth fmt ∧ 0 ∉ tab fmt := by cases fmt <;> simp [indent, tab]
    rw [member_text]
    simp [hindent, h m hm]
  clear h
  induction members with
  | nil => simp [membersText]
  | cons m members ih =>
    rw [List.forall_mem_cons] at htext
    cases members with
    | nil =>
      rw [membersText_one]
      simp [htext.1, hline]
    | cons next members =>
      rw [membersText_cons]
      simp [htext.1, hline, ih htext.2]

mutual

theorem render_nulFree : ∀ (item : Item) (depth : ℕ) (fmt : Bool), Printable P item →
    0 ∉ render item depth fmt
  | ⟨type,valuestring,_,valuedouble,_,child⟩, depth, fmt, hp => by
    cases type with
    | NULL => exact (by decide : 0 ∉ nullText)
    | False => exact (by decide : 0 ∉ falseText)
    | True => exact (by decide : 0 ∉ trueText)
    | Number =>
      obtain ⟨⟨z,hz,rfl⟩,_⟩ := hp
      simp only [render, numberText_whole hz]
      exact signed_nulFree z
    | String => exact quoted_nulFree _
    | Array =>
      have hall := entriesText_nulFree fmt _ (renderAll_nulFree child (depth+1) fmt hp)
      simp [render, arrayText, intercalate_entries, hall]
    | Object =>
      have hall := membersText_nulFree (depth+1) fmt _
        (renderMembers_nulFree child (depth+1) fmt hp)
      have hline : 0 ∉ newline fmt ∧ 0 ∉ indent depth fmt := by
        cases fmt <;> simp [newline, indent]
      simp [render, objectText_eq, hall, hline]

theorem renderAll_nulFree : ∀ (items : List Item) (depth : ℕ) (fmt : Bool),
    AllPrintable P items → ∀ entry ∈ renderAll items depth fmt, 0 ∉ entry
  | [], _, _, _ => by simp [renderAll]
  | item::items, depth, fmt, hp => by
    rw [renderAll, List.forall_mem_cons]
    exact ⟨render_nulFree item depth fmt hp.1,renderAll_nulFree items depth fmt hp.2⟩

theorem renderMembers_nulFree : ∀ (items : List Item) (depth : ℕ) (fmt : Bool),
    AllNamed P items → ∀ m ∈ renderMembers items depth fmt, 0 ∉ m.name ∧ 0 ∉ m.entry
  | [], _, _, _ => by simp [renderMembers]
  | item::items, depth, fmt, hp => by
    rw [renderMembers, List.forall_mem_cons]
    exact ⟨⟨quoted_nulFree _,render_nulFree item depth fmt hp.2.1⟩,
      renderMembers_nulFree items depth fmt hp.2.2⟩

end

/-- A document that is printed, with or without formatting, is read back with its value. -/
theorem document_read_back (item : Item) (fmt : Bool) (hp : Printable P item)
    (hl : 2*(render item 0 fmt).length+8 < 2^31) :
    ∃ (text : Text) (back : Item),
      (if fmt then cjsonPrint P item else cjsonPrintUnformatted P item) = .ok text.bytes ∧
      cjsonParse P text = .ok back [] ∧ valueOf back = valueOf item := by
  have hprint := printValue_render P item 0 fmt hp hl
  have hskip := skip_render P item 0 fmt hp (show Blank [] by simp [Blank]) []
  have hparse := parseValue_render P item 0 fmt (2*(render item 0 fmt).length+2) [] hp (by omega)
    (by omega) (by simp [Stops])
  rw [List.append_nil] at hparse hskip
  rw [List.nil_append] at hskip
  refine ⟨⟨render item 0 fmt,render_nulFree P item 0 fmt hp⟩,reread P item,?_,?_,
    valueOf_reread P item⟩
  · cases fmt
    · exact hprint
    · exact hprint
  · unfold cjsonParse
    simp only [hskip]
    exact hparse

theorem sample_name_nulFree : 0 ∉ [(97 : UInt8)] := by decide

def sampleItem : Item :=
  { createItem .Object with child := [{ createItem .Array with
      string := some ⟨[97],sample_name_nulFree⟩
      child := [cjsonCreateNumber samplePlatform (ofInt (-7)),createItem .True,
        cjsonCreateString ⟨[34,10],by decide⟩] }] }

theorem sample_read_back : ∃ (text : Text) (back : Item),
    cjsonPrint samplePlatform sampleItem = .ok text.bytes ∧
      cjsonParse samplePlatform text = .ok back [] ∧ valueOf back = valueOf sampleItem := by
  refine document_read_back samplePlatform sampleItem true ?_ ?_
  · refine ⟨by simp,⟨⟨⟨-7,by norm_num,rfl⟩,rfl⟩,trivial,?_,trivial⟩,trivial⟩
    simp [cjsonCreateString, Printable]
  · have hnumber : numberText (ofInt (-7)) = [45,55] := by
      rw [numberText_whole (by norm_num)]
      simp [signed, decimal]
      rfl
    simp [sampleItem, createItem, cjsonCreateNumber, cjsonCreateString, newItem, render, renderAll,
      renderMembers, objectText, arrayText, membersText, Member.text, hnumber, quoted, trueText,
      printedChar, escapeLetter]

end Documents

end Duda.JsonRoundTrip
