import Duda.CheckedMemory
import Duda.Cookie
import Duda.DelimitedFields
import Duda.Router
import Duda.Runs
import Mathlib.Data.List.TakeWhile

/-!
# Sessions as files

A session is a file of the store directory. Its name is the name of the
session, the identifier of the client and the expiry, joined by dots, as much
of it as fits into a path buffer. A session is looked up by the beginning
`name.cookie.` of a file name.
-/

set_option autoImplicit false

namespace Duda.Session
open Duda.CString Duda.CheckedMemory Duda.Cookie Duda.DelimitedFields Duda.MachineInt Duda.Router
open Duda.Runs

def dot : UInt8 := 46

/-- `SESSION_UUID_SIZE`. -/
def uuidSize : ℕ := 128

/-- `SESSION_KEY`. -/
def sessionKey : List UInt8 := [68,85,68,65,95,83,69,83,83,73,79,78]

def digitChar (d : ℕ) : UInt8 := if d < 10 then UInt8.ofNat (48+d) else UInt8.ofNat (87+d)

/-- The digits of a number; the fuel bounds their count. -/
def numeral (base : ℕ) : ℕ → ℕ → List UInt8
  | 0, _ => []
  | fuel+1, n =>
    (if n < base then [] else numeral base fuel (n/base))++[digitChar (n % base)]

/-- The conversion `%x`. -/
def hexText (n : ℕ) : List UInt8 := numeral 16 (n+1) n

/-- The conversion `%d`. -/
def intText (x : ℤ) : List UInt8 :=
  if x < 0 then 45::numeral 10 (x.natAbs+1) x.natAbs else numeral 10 (x.natAbs+1) x.natAbs

def uuidText (a b : ℕ) : List UInt8 := (hexText a++45::hexText b).take (uuidSize-1)

/-- The name of a file in a directory. -/
def PlainName (s : List UInt8) : Prop := s ≠ [] ∧ slash ∉ s ∧ s ≠ [dot] ∧ s ≠ [dot,dot]

instance (s : List UInt8) : Decidable (PlainName s) := inferInstanceAs (Decidable (_ ∧ _))

/-- The directory of the store. A path is resolved to the file it names in the
directory: a plain name stands for itself, and a longer way into the directory
goes through the path of the store and ends with the name of the file. -/
structure StoreDir where
  path : Text
  path_ne : path.bytes ≠ []
  resolve : List UInt8 → Option (List UInt8)
  plain : ∀ s, PlainName s → resolve (path.bytes++slash::s) = some s
  inside : ∀ p s, resolve p = some s → PlainName s ∧
    ∃ mid, p = path.bytes++slash::(mid++s) ∧ (mid = [] ∨ mid.getLast? = some slash)

/-- A directory into which no longer way leads. -/
def flatDir (path : Text) (path_ne : path.bytes ≠ []) : StoreDir where
  path := path
  path_ne := path_ne
  resolve p :=
    if path.bytes++[slash] <+: p ∧ PlainName (p.drop (path.bytes.length+1)) then
      some (p.drop (path.bytes.length+1))
    else none
  plain := by
    intro s hs
    have hdrop : (path.bytes++slash::s).drop (path.bytes.length+1) = s := by
      rw [List.drop_append]
      simp
    rw [hdrop, if_pos ⟨⟨s,by simp⟩,hs⟩]
  inside := by
    intro p s h
    split_ifs at h with hp
    obtain ⟨⟨t,rfl⟩,hs⟩ := hp
    have hdrop : (path.bytes++[slash]++t).drop (path.bytes.length+1) = t := by
      rw [List.drop_append_of_le_length (by simp), List.drop_of_length_le (by simp)]
      rfl
    rw [hdrop] at h hs
    cases h
    exact ⟨hs,[],by simp,.inl rfl⟩

/-- A call of `duda_session_create`: its arguments, the two random numbers,
whether the file opens, and what the write of the value returns. -/
structure Creation where
  name : Text
  value : Text
  expires : ℤ
  rand : ℕ × ℕ
  opened : Bool
  written : ℤ

def Creation.uuid (c : Creation) : List UInt8 := uuidText c.rand.1 c.rand.2

def Creation.fileName (c : Creation) : List UInt8 :=
  fields dot c.name.bytes c.uuid++intText c.expires

/-- A file of the store, with the call that created it. -/
structure SessionFile where
  entry : List UInt8
  creation : Creation
  content : List UInt8

/-- `file_to_buffer` of the server, which is not part of this program: the
content of the file in a new buffer, nothing for a file that does not open. For
an empty file it may give nothing as well. -/
structure FileReader where
  toBuffer : Option (List UInt8) → Option (List UInt8)
  missing : toBuffer none = none
  whole : ∀ content, content ≠ [] → toBuffer (some content) = some content
  empty : toBuffer (some []) = none ∨ toBuffer (some []) = some []

namespace FileReader

variable (reader : FileReader)

/-- The reader gives this value back from the file that holds it. -/
def Gives (value : List UInt8) : Prop := value = [] → reader.toBuffer (some []) = some []

theorem toBuffer_iff (file : Option (List UInt8)) (value : List UInt8) :
    reader.toBuffer file = some value ↔ file = some value ∧ reader.Gives value := by
  cases file with
  | none => simp [reader.missing]
  | some content =>
    by_cases hc : content = []
    · subst hc
      rcases reader.empty with h | h
      · simp only [h, Gives, reduceCtorEq, Option.some.injEq, false_iff, not_and]
        rintro rfl himp
        exact himp rfl
      · simp [h, Gives]
    · simp only [reader.whole content hc, Option.some.injEq, Gives, iff_self_and]
      rintro rfl rfl
      exact absurd rfl hc

end FileReader

section Store

variable (dir : StoreDir)

/-- `snprintf(session, SESSION_UUID_SIZE, "%s/%s.%s.%d", ...)`. -/
def sessionPath (c : Creation) : List UInt8 :=
  (dir.path.bytes++slash::c.fileName).take (uuidSize-1)

/-- What is in a file after the value was written over its old content. -/
def overwrite (old : List UInt8) (c : Creation) : List UInt8 :=
  c.value.bytes.take c.written.toNat++old.drop (min c.written.toNat c.value.bytes.length)

/-- An opened file: a new one, or one that existed. It is not truncated. -/
def putFile (d : List UInt8) (c : Creation) (store : List SessionFile) : List SessionFile :=
  if d ∈ store.map SessionFile.entry then
    store.map fun f => if f.entry = d then { f with content := overwrite f.content c } else f
  else store++[⟨d,c,overwrite [] c⟩]

/-- `duda_session_create`. -/
def sessionCreate (store : List SessionFile) (c : Creation) : List SessionFile × ℤ :=
  if c.opened then
    (match dir.resolve (sessionPath dir c) with
      | none => store
      | some d => putFile d c store,
      if c.written = -1 then -1 else 0)
  else (store,-1)

/-- An entry that `readdir` returns. -/
structure Dirent where
  d_name : List UInt8
  isReg : Bool
  deriving DecidableEq, Repr

/-- The bytes that `strncpy` writes. -/
def strncpyBytes (val : List UInt8) : List UInt8 :=
  val.takeWhile (· ≠ 0)++List.replicate (val.length-(val.takeWhile (· ≠ 0)).length) 0

/-- What `snprintf` returns for `"%s."`. -/
def nameLen (name : Text) : ℤ :=
  if name.bytes.length+1 < 2^31 then name.bytes.length+1 else -1

/-- The buffer after `memset` and `snprintf`. -/
def nameBuffer (name : Text) : Vector UInt8 uuidSize :=
  Vector.ofFn fun i => cstr ((name.bytes++[dot]).take (uuidSize-1)) i

/-- The buffer with `name.cookie.`, and its length. -/
def composeName (name : Text) (val : List UInt8) :
    Except Access (Vector UInt8 uuidSize × ℤ) :=
  let ret := nameLen name
  (fill (strncpyBytes val) (u64 ret) val.length 0 (nameBuffer name)).bind fun buf =>
    let buf_len := i32 (ret+val.length)
    (store buf (u64 buf_len) dot).bind fun buf =>
      (store buf (u64 (buf_len+1)) 0).map fun buf => (buf,buf_len+1)

/-- The entry that the loop over the directory looks at. -/
def Eligible (ent : Dirent) : Prop :=
  ¬(cstr ent.d_name 0 = dot ∧ ent.d_name ≠ [dot,dot]) ∧ ent.isReg = true

instance (ent : Dirent) : Decidable (Eligible ent) := inferInstanceAs (Decidable (_ ∧ _))

def findEntry (buf : ℕ → UInt8) (buf_len : ℕ) : List Dirent → Option (List UInt8)
  | [] => none
  | ent::rest =>
    if Eligible ent then
      if strncmpZero (cstr ent.d_name) buf buf_len then some ent.d_name
      else findEntry buf buf_len rest
    else findEntry buf buf_len rest

/-- The part that both lookups share: composing the beginning and searching
the directory, if it opens. -/
def lookupEntry (name : Text) (cookie : Option (List UInt8)) (listing : Option (List Dirent)) :
    Except Access (Option (List UInt8)) :=
  match cookie, listing with
  | some val, some entries =>
    (composeName name val).map fun (buf,buf_len) =>
      findEntry (cstr buf.toList) buf_len.toNat entries
  | _, _ => .ok none

/-- `_duda_session_get_path`. -/
def sessionGetPath (name : Text) (cookie : Option (List UInt8))
    (listing : Option (List Dirent)) : Except Access (Option (List UInt8)) :=
  (lookupEntry name cookie listing).map fun found =>
    found.map fun d => (dir.path.bytes++slash::d).take (uuidSize-1)

/-- `duda_session_isset`. -/
def sessionIsset (name : Text) (cookie : Option (List UInt8)) (listing : Option (List Dirent)) :
    Except Access ℤ :=
  (lookupEntry name cookie listing).map fun found => if found.isSome then 0 else -1

/-- `duda_session_get`. -/
def sessionGet (reader : FileReader) (store : List SessionFile) (name : Text)
    (cookie : Option (List UInt8)) (listing : Option (List Dirent)) :
    Except Access (Option (List UInt8)) :=
  (sessionGetPath dir name cookie listing).map fun found =>
    found.bind fun path => reader.toBuffer ((dir.resolve path).bind fun d =>
      (store.find? (fun f => f.entry = d)).map SessionFile.content)

/-- `duda_session_destroy`. -/
def sessionDestroy (store : List SessionFile) (name : Text) (cookie : Option (List UInt8))
    (listing : Option (List Dirent)) : Except Access (List SessionFile × ℤ) :=
  (sessionGetPath dir name cookie listing).map fun found =>
    match found with
    | none => (store,-1)
    | some path => (store.filter (fun f => some f.entry ≠ dir.resolve path),0)

end Store

/-- The regular files of the listing are the files of the store. -/
def ListsFiles (store : List SessionFile) (listing : List Dirent) : Prop :=
  ((listing.filter Dirent.isReg).map Dirent.d_name).Perm (store.map SessionFile.entry)

section Numerals

theorem digitChar_plain (d : ℕ) (h : d < 16) :
    digitChar d ≠ 0 ∧ digitChar d ≠ dot ∧ digitChar d ≠ slash := by
  have hall : ∀ i : Fin 16, digitChar i ≠ 0 ∧ digitChar i ≠ dot ∧ digitChar i ≠ slash := by decide
  exact hall ⟨d,h⟩

theorem numeral_plain (base : ℕ) (hb : 0 < base) (h16 : base ≤ 16) (fuel n : ℕ) :
    ∀ c ∈ numeral base fuel n, c ≠ 0 ∧ c ≠ dot ∧ c ≠ slash := by
  induction fuel generalizing n with
  | zero => simp [numeral]
  | succ fuel ih =>
    intro c hc
    rw [numeral] at hc
    rcases List.mem_append.mp hc with hc | hc
    · split_ifs at hc
      · cases hc
      · exact ih (n/base) c hc
    · rw [List.mem_singleton.mp hc]
      exact digitChar_plain _ (lt_of_lt_of_le (Nat.mod_lt n hb) h16)

theorem intText_plain (x : ℤ) : ∀ c ∈ intText x, c ≠ 0 ∧ c ≠ dot ∧ c ≠ slash := by
  intro c hc
  rw [intText] at hc
  have hnum := numeral_plain 10 (by decide) (by decide) (x.natAbs+1) x.natAbs c
  split_ifs at hc
  · rcases List.mem_cons.mp hc with rfl | hc
    · decide
    · exact hnum hc
  · exact hnum hc

theorem uuidText_plain (a b : ℕ) : ∀ c ∈ uuidText a b, c ≠ 0 ∧ c ≠ dot ∧ c ≠ slash := by
  intro c hc
  have hnum := fun n => numeral_plain 16 (by decide) (by decide) (n+1) n c
  rcases List.mem_append.mp (List.mem_of_mem_take hc) with hc | hc
  · exact hnum a hc
  · rcases List.mem_cons.mp hc with rfl | hc
    · decide
    · exact hnum b hc

end Numerals

section Compose

variable (name : Text) (val : List UInt8)

/-- The file name starts with the name and the value, as `strncmp` sees them. -/
def Hit (d : List UInt8) : Prop :=
  strncmpZero (cstr d) (cstr (fields dot name.bytes (strncpyBytes val)))
    (name.bytes.length+val.length+2) = true

instance (d : List UInt8) : Decidable (Hit name val d) := inferInstanceAs (Decidable (_ = true))

theorem strncpyBytes_length : (strncpyBytes val).length = val.length := by
  have h := (List.takeWhile_prefix (· ≠ (0:UInt8)) (l := val)).length_le
  rw [strncpyBytes, List.length_append, List.length_replicate]
  omega

theorem compose_positions (h : name.bytes.length+val.length+3 ≤ uuidSize) :
    u64 (nameLen name) = name.bytes.length+1 ∧
      i32 (nameLen name+val.length) = ((name.bytes.length+val.length+1:ℕ):ℤ) := by
  simp only [uuidSize] at h
  have hlen : nameLen name = ((name.bytes.length+1:ℕ):ℤ) := by
    rw [nameLen, if_pos (by omega)]
    omega
  rw [hlen, u64_natCast _ (by omega), show ((name.bytes.length+1:ℕ):ℤ)+val.length =
    ((name.bytes.length+val.length+1:ℕ):ℤ) by omega, i32_natCast _ (by omega)]
  exact ⟨rfl,rfl⟩

theorem nameBuffer_take (h : name.bytes.length+3 ≤ uuidSize) :
    (nameBuffer name).toList.take (name.bytes.length+1) = name.bytes++[dot] := by
  have hshort : (name.bytes++[dot]).take (uuidSize-1) = name.bytes++[dot] := by
    rw [List.take_of_length_le]
    rw [List.length_append, List.length_singleton]
    omega
  apply List.ext_getElem
  · simp
    omega
  · intro i h1 h2
    rw [List.getElem_take]
    simp only [nameBuffer, hshort, cstr, Vector.getElem_toList, Vector.getElem_ofFn]
    rw [List.getD_eq_getElem?_getD, List.getElem?_eq_getElem h2, Option.getD_some]

theorem composeName_room (r : Vector UInt8 uuidSize × ℤ) (h : composeName name val = .ok r) :
    name.bytes.length+val.length+3 ≤ uuidSize := by
  obtain ⟨buf,hfill,h⟩ := bind_ok h
  obtain ⟨buf',hdot,h⟩ := bind_ok h
  obtain ⟨buf'',hend,-⟩ := map_ok h
  have hcopy := (fill_ok_iff _ _ _ _ _).mp ⟨buf,hfill⟩
  rw [strncpyBytes_length] at hcopy
  have h1 : u64 (i32 (nameLen name+val.length)) < uuidSize := by
    by_contra hn
    simp [store, hn] at hdot
  have h2 : u64 (i32 (nameLen name+val.length)+1) < uuidSize := by
    by_contra hn
    simp [store, hn] at hend
  simp only [uuidSize] at hcopy h1 h2 ⊢
  rw [nameLen] at hcopy h1 h2
  split_ifs at hcopy h1 h2 with hl
  · have hsum : name.bytes.length+1+val.length < 2^31 := by
      rcases hcopy with hz | ⟨-,hc⟩
      · omega
      · rw [show (name.bytes.length:ℤ)+1 = ((name.bytes.length+1:ℕ):ℤ) by omega,
          u64_natCast _ (by omega)] at hc
        omega
    rw [show (name.bytes.length:ℤ)+1+val.length = ((name.bytes.length+1+val.length:ℕ):ℤ) by omega,
      i32_natCast _ hsum, ← Nat.cast_succ, u64_natCast _ (by omega)] at h2
    omega
  · exfalso
    rcases hcopy with hz | ⟨-,hc⟩
    · rw [hz] at h1
      exact absurd h1 (by decide)
    · simp only [u64] at hc
      omega

theorem composeName_ok (hfit : name.bytes.length+val.length+3 ≤ uuidSize) :
    ∃ r, composeName name val = .ok r := by
  obtain ⟨hoff,hbuf⟩ := compose_positions name val hfit
  simp only [uuidSize] at hfit
  obtain ⟨buf,hb⟩ := (fill_ok_iff (strncpyBytes val) (name.bytes.length+1) val.length 0
    (nameBuffer name)).mpr (.inr ⟨by rw [strncpyBytes_length]; omega,
      by simp only [uuidSize]; omega⟩)
  have h1 : u64 ((name.bytes.length+val.length+1:ℕ):ℤ) < uuidSize := by
    rw [u64_natCast _ (by omega)]
    simp only [uuidSize]
    omega
  have h2 : u64 (((name.bytes.length+val.length+1:ℕ):ℤ)+1) < uuidSize := by
    rw [← Nat.cast_succ, u64_natCast _ (by omega)]
    simp only [uuidSize]
    omega
  simp only [composeName, hoff, hb, Except.bind, hbuf, store_ok h1, store_ok h2, Except.map]
  exact ⟨_,rfl⟩

/-- Composing stays inside the buffer exactly when name, value, the two dots
and the terminator fit. -/
theorem composeName_ok_iff :
    (∃ r, composeName name val = .ok r) ↔ name.bytes.length+val.length+3 ≤ uuidSize :=
  ⟨fun ⟨r,h⟩ => composeName_room name val r h,composeName_ok name val⟩

/-- The buffer then holds the name and the value, each with its dot. -/
theorem composeName_spec (buf : Vector UInt8 uuidSize) (buf_len : ℤ)
    (h : composeName name val = .ok (buf,buf_len)) :
    buf_len = ((name.bytes.length+val.length+2:ℕ):ℤ) ∧
      buf.toList.take (name.bytes.length+val.length+2) =
        fields dot name.bytes (strncpyBytes val) := by
  have hfit := (composeName_ok_iff name val).mp ⟨_,h⟩
  have hname : name.bytes.length+3 ≤ uuidSize := by omega
  obtain ⟨hoff,hbuf⟩ := compose_positions name val hfit
  obtain ⟨b,hfill,h⟩ := bind_ok h
  obtain ⟨b',hdot,h⟩ := bind_ok h
  obtain ⟨b'',hend,h⟩ := map_ok h
  simp only [uuidSize] at hfit
  rw [hoff] at hfill
  rw [hbuf, u64_natCast _ (by omega)] at hdot
  rw [hbuf, ← Nat.cast_succ, u64_natCast _ (by omega)] at hend
  rw [store_ok (by simp only [uuidSize]; omega)] at hdot hend
  cases hdot
  cases hend
  cases h
  refine ⟨by rw [hbuf]; omega,?_⟩
  have hall : (strncpyBytes val).take val.length = strncpyBytes val :=
    List.take_of_length_le (strncpyBytes_length val).le
  have htext := fill_take (strncpyBytes val) (name.bytes.length+1) val.length 0 (nameBuffer name) b
    (by rw [strncpyBytes_length]; omega) (by simp only [uuidSize]; omega) hfill
  rw [add_zero, List.drop_zero, hall, nameBuffer_take name hname] at htext
  rw [set_take _ _ _ _ _ (by omega), set_take_succ,
    show name.bytes.length+val.length+1 = name.bytes.length+1+val.length by omega, htext]
  simp [fields]

theorem strncpyBytes_plain (h0 : 0 ∉ val) : strncpyBytes val = val := by
  have hall : val.takeWhile (· ≠ 0) = val := by
    rw [List.takeWhile_eq_self_iff]
    intro c hc
    exact decide_eq_true (fun h => h0 (h ▸ hc))
  rw [strncpyBytes, hall, Nat.sub_self, List.replicate_zero, List.append_nil]

/-- A value without a zero byte is matched as it is. -/
theorem hit_plain_iff (h0 : 0 ∉ val) (d : List UInt8) :
    Hit name val d ↔ fields dot name.bytes val <+: d := by
  have hnul : 0 ∉ fields dot name.bytes val := by
    simp only [fields, List.mem_append, List.mem_cons, List.not_mem_nil, or_false, not_or]
    exact ⟨name.nulFree,by decide,h0,by decide⟩
  have hlen : (fields dot name.bytes val).length = name.bytes.length+val.length+2 :=
    fields_length name.bytes val
  rw [Hit, strncpyBytes_plain val h0, ← hlen]
  exact cstr_starts_iff d ⟨_,hnul⟩

/-- A zero byte in the value ends the comparison: the whole file name is
compared with what stands in front of it. -/
theorem hit_nul_iff (h0 : 0 ∈ val) (d : List UInt8) (hd : 0 ∉ d) :
    Hit name val d ↔ d = name.bytes++dot::val.takeWhile (· ≠ 0) := by
  obtain ⟨a,b,hval,ha⟩ := List.eq_append_cons_of_mem h0
  have htake : val.takeWhile (· ≠ 0) = a := by
    have hpos : ∀ c ∈ a, decide (c ≠ 0) = true := by
      intro c hc
      exact decide_eq_true (fun h => ha (h ▸ hc))
    rw [hval, List.takeWhile_append_of_pos hpos]
    simp
  have hlen : val.length = a.length+b.length+1 := by
    rw [hval, List.length_append, List.length_cons]
    omega
  have hsplit : fields dot name.bytes (strncpyBytes val) =
      (name.bytes++dot::a)++(List.replicate (b.length+1) 0++[dot]) := by
    rw [strncpyBytes, htake, hlen, show a.length+b.length+1-a.length = b.length+1 by omega]
    simp [fields]
  rw [Hit, htake, hsplit]
  apply strncmp_terminated _ _ _ _ hd
  · simp only [List.mem_append, List.mem_cons, not_or]
    exact ⟨name.nulFree,by decide,ha⟩
  · intro i hi
    by_cases hin : i < (name.bytes++dot::a).length
    · simp only [cstr, List.getD_eq_getElem?_getD, List.getElem?_append_left hin]
    · have he : i = (name.bytes++dot::a).length := by omega
      rw [he]
      simp [cstr, List.replicate_succ]
  · rw [List.length_append, List.length_cons]
    omega

/-- The first entry that is looked at and starts like the session. -/
def findHit (entries : List Dirent) : Option (List UInt8) :=
  (entries.find? (fun ent => Eligible ent ∧ Hit name val ent.d_name)).map Dirent.d_name

theorem findEntry_eq (buf : ℕ → UInt8)
    (hb : ∀ i < name.bytes.length+val.length+2,
      buf i = cstr (fields dot name.bytes (strncpyBytes val)) i) (entries : List Dirent) :
    findEntry buf (name.bytes.length+val.length+2) entries = findHit name val entries := by
  induction entries with
  | nil => rfl
  | cons ent rest ih =>
    have hcmp : strncmpZero (cstr ent.d_name) buf (name.bytes.length+val.length+2) = true ↔
        Hit name val ent.d_name := by
      rw [strncmp_congr _ _ _ _ hb, Hit]
    rw [findEntry, findHit, List.find?_cons]
    by_cases he : Eligible ent
    · rw [if_pos he]
      by_cases hh : Hit name val ent.d_name
      · rw [if_pos (hcmp.mpr hh), decide_eq_true ⟨he,hh⟩]
        rfl
      · rw [if_neg (fun h => hh (hcmp.mp h)), ih, decide_eq_false (fun h => hh h.2)]
        rfl
    · rw [if_neg he, ih, decide_eq_false (fun h => he h.1)]
      rfl

/-- Where the name and the value fit, the lookup searches the directory for
the first hit; otherwise it writes beyond the buffer. -/
theorem lookupEntry_ok (h : name.bytes.length+val.length+3 ≤ uuidSize) (entries : List Dirent) :
    lookupEntry name (some val) (some entries) = .ok (findHit name val entries) := by
  obtain ⟨⟨buf,buf_len⟩,hc⟩ := (composeName_ok_iff name val).mpr h
  obtain ⟨hlen,htext⟩ := composeName_spec name val buf buf_len hc
  rw [lookupEntry, hc]
  show Except.ok (findEntry (cstr buf.toList) buf_len.toNat entries) = _
  rw [hlen, Int.toNat_natCast, findEntry_eq]
  intro i hi
  rw [← htext, cstr, cstr, List.getD_eq_getElem?_getD, List.getD_eq_getElem?_getD,
    List.getElem?_take_of_lt hi]

theorem lookupEntry_ok_iff (cookie : Option (List UInt8)) (listing : Option (List Dirent)) :
    (∃ r, lookupEntry name cookie listing = .ok r) ↔
      ∀ val ∈ cookie, listing.isSome = true → name.bytes.length+val.length+3 ≤ uuidSize := by
  cases cookie with
  | none => simp [lookupEntry]
  | some val =>
    cases listing with
    | none => simp [lookupEntry]
    | some entries =>
      constructor
      · rintro ⟨r,hr⟩ v hv -
        obtain ⟨c,hc,-⟩ := map_ok hr
        rw [← Option.some.inj hv]
        exact (composeName_ok_iff name val).mp ⟨c,hc⟩
      · intro h
        exact ⟨_,lookupEntry_ok name val (h val rfl rfl) entries⟩

end Compose

/-- Both lookups write only inside their buffer exactly when there is nothing
to compose or the name and the value leave room for the dots and the
terminator. -/
theorem session_buffer_iff (dir : StoreDir) (mk : MkSearch) (header : Option Header) (name : Text)
    (listing : Option (List Dirent)) :
    ((∃ r, sessionGetPath dir name (cookieValue mk header sessionKey) listing = .ok r) ∧
      ∃ r, sessionIsset name (cookieValue mk header sessionKey) listing = .ok r) ↔
    ∀ val ∈ cookieValue mk header sessionKey, listing.isSome = true →
      name.bytes.length+val.length+3 ≤ uuidSize := by
  rw [sessionGetPath, sessionIsset, map_ok_iff, map_ok_iff, and_self, lookupEntry_ok_iff]

/-- A name of 125 bytes and a cookie of one byte, in an empty directory. -/
theorem session_buffer_overrun :
    let header : Header := ⟨cstr (sessionKey++[equals,120]),14⟩
    let mk : MkSearch := ⟨fun _ _ => some 0,fun _ _ _ => some 12⟩
    let name : Text := ⟨List.replicate 125 97,by simp⟩
    cookieValue mk (some header) sessionKey = some [120] ∧
      ¬∃ r, sessionIsset name (cookieValue mk (some header) sessionKey) (some []) = .ok r := by
  refine ⟨by decide,?_⟩
  rw [sessionIsset, map_ok_iff, lookupEntry_ok_iff]
  intro h
  have hfit := h [120] (by decide) rfl
  simp [uuidSize] at hfit

end Duda.Session
