import Duda.CheckedMemory
import Duda.MachineInt
import Duda.MonkeyString

/-!
# The query string table

`duda_qs_parse` is a character-level state machine over the query string. It
writes keys and values into a table of 32 entries through an index that
nothing bounds. The parser is compared with what it is meant to compute, the
parameters of the pieces between ampersands, so that the number of parameters
decides which entry the last write goes to.
-/

set_option autoImplicit false

namespace Duda.QueryString
open Duda.CheckedMemory Duda.CString Duda.MachineInt Duda.MonkeyString

def qsEntriesSize : ℕ := 32

def amp : UInt8 := 0x26

def equals : UInt8 := 0x3d

/-- `mk_ptr_t`, as an offset into the query string. -/
structure MkPtr where
  data : ℕ
  len : ℕ
  deriving DecidableEq, Repr

structure QsEntry where
  key : MkPtr
  value : MkPtr
  deriving DecidableEq, Repr

structure QsMap where
  count : ℤ
  entries : Vector QsEntry 32

/-- The variables of the parser's loop. -/
structure Scan where
  count : ℕ
  key : Option ℕ
  val : Option ℕ
  entries : Vector QsEntry 32

/-- The end of a parameter at position `i`: the pending value is stored and
the index advances. -/
def endParam (i : ℕ) (s : Scan) : Except Access Scan :=
  match s.key, s.val with
  | some _, some v =>
    match modify s.entries s.count (fun e => { e with value := ⟨v+1,i-v-1⟩ }) with
    | .error e => .error e
    | .ok entries => .ok { s with entries := entries, count := s.count+1 }
  | _, _ => .ok s

def scanChar (i : ℕ) (c : UInt8) (s : Scan) : Except Access Scan :=
  if c = amp then
    match endParam i s with
    | .error e => .error e
    | .ok s => .ok { s with key := none, val := none }
  else if c = equals then
    match s.key, s.val with
    | some k, none =>
      match modify s.entries s.count (fun e => { e with key := ⟨k,i-k⟩ }) with
      | .error e => .error e
      | .ok entries => .ok { s with entries := entries, val := if c ≠ 0x20 then some i else none }
    | _, _ => .ok s
  else
    match s.key with
    | none => .ok { s with key := some i }
    | some _ => .ok s

/-- The loop from position `i` on, with the tail case after it. -/
def scanFrom : List UInt8 → ℕ → Scan → Except Access Scan
  | [], i, s => endParam i s
  | c::cs, i, s =>
    match scanChar i c s with
    | .error e => .error e
    | .ok s => scanFrom cs (i+1) s

/-- The bytes that the loop visits: the length is taken as an `int`. -/
def visited (data : List UInt8) : List UInt8 := data.take (i32 data.length).toNat

def qsParse (query : Option (List UInt8)) (qs : QsMap) : Except Access (ℤ × QsMap) :=
  match query with
  | none => .ok (-1,qs)
  | some data =>
    match scanFrom (visited data) 0 ⟨0,none,none,qs.entries⟩ with
    | .error e => .error e
    | .ok s => .ok (s.count,⟨s.count,s.entries⟩)

def ptrText (data : List UInt8) (p : MkPtr) : List UInt8 := slice (offset (cstr data) p.data) p.len

def qsCount (qs : QsMap) : ℤ := qs.count

def copyValue (mk : MkString) (data : List UInt8) (p : MkPtr) : List UInt8 :=
  mk.copySubstr (offset (cstr data) p.data) 0 (i32 p.len)

/-- The length of the key is kept in an `unsigned int`. -/
def qsGet (mk : MkString) (data : List UInt8) (qs : QsMap) (key : List UInt8) :
    Except Access (Option (List UInt8)) :=
  if qs.count ≤ 0 then .ok none
  else
    match findLoop (fun e => e.key.len = u32 key.length &&
        strncmpZero (offset (cstr data) e.key.data) (cstr key) (u32 key.length))
        qs.entries qs.count.toNat 0 with
    | .error e => .error e
    | .ok r => .ok (r.map (fun e => copyValue mk data e.value))

def qsGetId (mk : MkString) (data : List UInt8) (qs : QsMap) (idx : ℤ) :
    Except Access (Option (List UInt8)) :=
  if idx < 0 ∨ qs.count ≤ 0 then .ok none
  else if idx ≥ qs.count then .ok none
  else
    match load qs.entries idx.toNat with
    | .error e => .error e
    | .ok e => .ok (some (copyValue mk data e.value))

def qsCmp (data : List UInt8) (qs : QsMap) (key value : List UInt8) : Except Access ℤ :=
  if qs.count ≤ 0 then .ok (-1)
  else
    match findLoop (fun e =>
        strncmpZero (offset (cstr data) e.key.data) (cstr key) e.key.len &&
        strncmpZero (offset (cstr data) e.value.data) (cstr value) e.value.len)
        qs.entries qs.count.toNat 0 with
    | .error e => .error e
    | .ok r => .ok (if r.isSome then 0 else -1)

/-- The parameter of a piece between ampersands: leading equal signs are
dropped, the next equal sign ends the key. -/
def piece (p : List UInt8) : Option (List UInt8 × List UInt8) :=
  let q := p.dropWhile (· == equals)
  if equals ∈ q then some (q.takeWhile (· != equals),(q.dropWhile (· != equals)).tail) else none

def params (text : List UInt8) : List (List UInt8 × List UInt8) :=
  (text.splitOn amp).filterMap piece

def entryText (text : List UInt8) (e : QsEntry) : List UInt8 × List UInt8 :=
  (ptrText text e.key,ptrText text e.value)

theorem ptr_middle (pre mid post : List UInt8) :
    ptrText (pre++mid++post) ⟨pre.length,mid.length⟩ = mid := by
  apply List.ext_getElem
  · simp [ptrText, slice]
  · intro i h1 h2
    simp [ptrText, slice, offset, cstr, List.getElem?_append, h2]

theorem drop_lead (es r : List UInt8) (he : ∀ c ∈ es, c = equals) :
    (es++r).dropWhile (· == equals) = r.dropWhile (· == equals) := by
  apply List.dropWhile_append_of_pos
  intro c hc
  simp [he c hc]

theorem drop_key (k r : List UInt8) (hk : k ≠ []) (hne : equals ∉ k) :
    (k++r).dropWhile (· == equals) = k++r := by
  cases k with
  | nil => exact absurd rfl hk
  | cons c k =>
    have hc : c ≠ equals := fun h => hne (by simp [h])
    simp [hc]

/-- How far the parser is inside the current piece, with the two pointers that
say so: only equal signs so far, in the key, or past the key's equal sign. -/
inductive Phase (st : ℕ) : List UInt8 → Option ℕ → Option ℕ → Prop
  | skip (es : List UInt8) (he : ∀ c ∈ es, c = equals) : Phase st es none none
  | inKey (es k : List UInt8) (he : ∀ c ∈ es, c = equals) (hk : k ≠ []) (hne : equals ∉ k) :
      Phase st (es++k) (some (st+es.length)) none
  | inValue (es k v : List UInt8) (he : ∀ c ∈ es, c = equals) (hk : k ≠ []) (hne : equals ∉ k) :
      Phase st (es++k++equals::v) (some (st+es.length)) (some (st+es.length+k.length))

theorem piece_skip (es : List UInt8) (he : ∀ c ∈ es, c = equals) : piece es = none := by
  have h := drop_lead es [] he
  simp only [List.append_nil, List.dropWhile_nil] at h
  simp [piece, h]

theorem piece_key (es k : List UInt8) (he : ∀ c ∈ es, c = equals) (hk : k ≠ [])
    (hne : equals ∉ k) : piece (es++k) = none := by
  have h := drop_key k [] hk hne
  rw [List.append_nil] at h
  simp [piece, drop_lead es k he, h, hne]

theorem piece_value (es k v : List UInt8) (he : ∀ c ∈ es, c = equals) (hk : k ≠ [])
    (hne : equals ∉ k) : piece (es++k++equals::v) = some (k,v) := by
  have hall : ∀ c ∈ k, (c != equals) = true := by
    intro c hc
    exact bne_iff_ne.mpr (fun h => hne (h ▸ hc))
  rw [List.append_assoc]
  simp [piece, drop_lead es _ he, drop_key k _ hk hne, List.takeWhile_append_of_pos hall,
    List.dropWhile_append_of_pos hall]

theorem split_clean (cur rest : List UInt8) (h : amp ∉ cur) :
    ∃ v ps, (cur++rest).splitOn amp = (cur++v)::ps := by
  induction cur with
  | nil =>
    obtain ⟨v,ps,hv⟩ := List.exists_cons_of_ne_nil (List.splitOn_ne_nil amp rest)
    exact ⟨v,ps,by simpa using hv⟩
  | cons c cur ih =>
    obtain ⟨v,ps,hv⟩ := ih (fun hm => h (by simp [hm]))
    have hc : (c == amp) = false := by simpa using fun hm : c = amp => h (by simp [hm])
    refine ⟨v,ps,?_⟩
    rw [List.cons_append, List.splitOn_cons_eq_if_modifyHead, hc, hv]
    rfl

theorem params_clean (cur : List UInt8) (h : amp ∉ cur) : params cur = (piece cur).toList := by
  rw [params, List.splitOn_eq_singleton h]
  cases hp : piece cur <;> simp [hp]

theorem params_amp (cur rest : List UInt8) (h : amp ∉ cur) :
    params (cur++amp::rest) = (piece cur).toList++params rest := by
  rw [params, List.splitOn_append_cons_self, List.filterMap_append]
  rw [show (cur.splitOn amp).filterMap piece = params cur from rfl, params_clean cur h]
  rfl

def Stored (text : List UInt8) (entries : Vector QsEntry 32)
    (ps : List (List UInt8 × List UInt8)) : Prop :=
  ∀ j (h : j < ps.length), ∃ hj : j < 32, entryText text entries[j] = ps[j]

theorem stored_length {text : List UInt8} {entries : Vector QsEntry 32}
    {ps : List (List UInt8 × List UInt8)} (h : Stored text entries ps) : ps.length ≤ 32 := by
  by_contra hc
  obtain ⟨hj,_⟩ := h 32 (by omega)
  omega

/-- A write at the index `ps.length` leaves the stored parameters alone. -/
theorem stored_set {text : List UInt8} {entries : Vector QsEntry 32}
    {ps : List (List UInt8 × List UInt8)} (h : Stored text entries ps) (e : QsEntry)
    (hlt : ps.length < 32) : Stored text (entries.set ps.length e) ps := by
  intro j hj
  obtain ⟨hj',he⟩ := h j hj
  exact ⟨hj',by rw [Vector.getElem_set_ne _ _ (by omega)]; exact he⟩

theorem stored_push {text : List UInt8} {entries : Vector QsEntry 32}
    {ps : List (List UInt8 × List UInt8)} (h : Stored text entries ps) (e : QsEntry)
    (hlt : ps.length < 32) :
    Stored text (entries.set ps.length e) (ps++[entryText text e]) := by
  intro j hj
  rw [List.length_append, List.length_singleton] at hj
  by_cases hlast : j = ps.length
  · subst hlast
    exact ⟨hlt,by simp⟩
  · obtain ⟨hj',he⟩ := stored_set h e hlt j (by omega)
    exact ⟨hj',by rw [he, List.getElem_append_left]⟩

/-- The loop variables after `pre` and the part `cur` of the current piece:
`done` lists the parameters of the finished pieces. -/
structure Tracks (text pre cur : List UInt8) (done : List (List UInt8 × List UInt8))
    (s : Scan) : Prop where
  clean : amp ∉ cur
  phase : Phase pre.length cur s.key s.val
  count : s.count = done.length
  stored : Stored text s.entries done
  pending : ∀ k v, s.key = some k → s.val = some v →
    ∃ h : s.count < 32, s.entries[s.count].key = ⟨k,v-k⟩

theorem end_param (text pre cur rest : List UInt8) (done : List (List UInt8 × List UInt8))
    (s : Scan) (ht : Tracks text pre cur done s) (htext : text = pre++cur++rest) :
    ∃ t, endParam (pre.length+cur.length) s = .ok t ∧
      t.count = (done++(piece cur).toList).length ∧
      Stored text t.entries (done++(piece cur).toList) := by
  obtain ⟨_,hphase,hcount,hstored,hpending⟩ := ht
  obtain ⟨count,key,val,entries⟩ := s
  simp only at *
  cases hphase with
  | skip es he =>
    rw [piece_skip _ he]
    exact ⟨_,rfl,by simpa using hcount,by simpa using hstored⟩
  | inKey es k he hk hne =>
    rw [piece_key es k he hk hne]
    exact ⟨_,rfl,by simpa using hcount,by simpa using hstored⟩
  | inValue es k v he hk hne =>
    obtain ⟨hlt,hkey⟩ := hpending _ _ rfl rfl
    subst hcount
    rw [piece_value es k v he hk hne]
    simp only [endParam, modify_ok hlt]
    refine ⟨_,rfl,by simp,?_⟩
    have hl : pre.length+(es++k++equals::v).length-(pre.length+es.length+k.length)-1 =
        v.length := by
      simp only [List.length_append, List.length_cons]
      omega
    rw [hl]
    have hp := stored_push hstored
      { entries[done.length] with value := ⟨pre.length+es.length+k.length+1,v.length⟩ } hlt
    have hk' := ptr_middle (pre++es) k (equals::v++rest)
    have hv' := ptr_middle (pre++es++k++[equals]) v rest
    have htk : pre++es++k++(equals::v++rest) = text := by simp [htext]
    have htv : pre++es++k++[equals]++v++rest = text := by simp [htext]
    rw [htk] at hk'
    rw [htv] at hv'
    simp only [List.length_append, List.length_singleton] at hk' hv'
    simp only [entryText, hkey, Nat.add_sub_cancel_left, hk', hv'] at hp
    simpa [hkey] using hp

/-- What the scan must come to for the parameters `ps` of the whole text. -/
def Outcome (text : List UInt8) (ps : List (List UInt8 × List UInt8))
    (r : Except Access Scan) : Prop :=
  (ps.length ≤ 32 → ∃ s, r = .ok s ∧ s.count = ps.length ∧ Stored text s.entries ps) ∧
  (32 < ps.length → r = .error (.write 32))

/-- Reading the key's equal sign when the table is full. -/
theorem full_table (es k rest : List UInt8) (done : List (List UInt8 × List UInt8))
    (he : ∀ c ∈ es, c = equals) (hk : k ≠ []) (hne : equals ∉ k) (hclean : amp ∉ es++k)
    (hfull : 32 ≤ done.length) :
    32 < (done++params (es++k++equals::rest)).length := by
  have hc : amp ∉ es++k++[equals] := by
    simp only [List.mem_append, List.mem_singleton, not_or] at *
    exact ⟨hclean,by decide⟩
  obtain ⟨v,ps,hv⟩ := split_clean (es++k++[equals]) rest hc
  have hs : es++k++equals::rest = es++k++[equals]++rest := by simp
  have hp : piece (es++k++[equals]++v) = some (k,v) := by
    have := piece_value es k v he hk hne
    simpa using this
  rw [hs, params, hv, List.filterMap_cons_some hp]
  simp only [List.length_append, List.length_cons]
  omega

theorem clean_snoc (cur : List UInt8) (c : UInt8) (h : amp ∉ cur) (hc : c ≠ amp) :
    amp ∉ cur++[c] := by
  simp only [List.mem_append, List.mem_singleton, not_or]
  exact ⟨h,fun he => hc he.symm⟩

theorem scan_other (text pre cur : List UInt8) (done : List (List UInt8 × List UInt8))
    (s : Scan) (c : UInt8) (hamp : c ≠ amp) (heq : c ≠ equals)
    (ht : Tracks text pre cur done s) :
    ∃ t, scanChar (pre.length+cur.length) c s = .ok t ∧ Tracks text pre (cur++[c]) done t := by
  obtain ⟨hclean,hphase,hcount,hstored,hpending⟩ := ht
  have hclean' := clean_snoc cur c hclean hamp
  obtain ⟨count,key,val,entries⟩ := s
  simp only at *
  cases hphase with
  | skip _ he =>
    simp only [scanChar, if_neg hamp, if_neg heq]
    refine ⟨_,rfl,hclean',?_,hcount,hstored,by simp⟩
    exact Phase.inKey cur [c] he (by simp) (by simpa using fun h => heq h.symm)
  | inKey es k he hk hne =>
    simp only [scanChar, if_neg hamp, if_neg heq]
    refine ⟨_,rfl,hclean',?_,hcount,hstored,by simp⟩
    rw [List.append_assoc]
    apply Phase.inKey es (k++[c]) he (by simp)
    simp only [List.mem_append, List.mem_singleton, not_or]
    exact ⟨hne,fun h => heq h.symm⟩
  | inValue es k v he hk hne =>
    simp only [scanChar, if_neg hamp, if_neg heq]
    refine ⟨_,rfl,hclean',?_,hcount,hstored,hpending⟩
    simpa using @Phase.inValue pre.length es k (v++[c]) he hk hne

/-- An equal sign stores the key it ends; when the table is full that is the
write that leaves it. -/
theorem scan_equals (text pre cur rest : List UInt8) (done : List (List UInt8 × List UInt8))
    (s : Scan) (ht : Tracks text pre cur done s) :
    (∃ t, scanChar (pre.length+cur.length) equals s = .ok t ∧
      Tracks text pre (cur++[equals]) done t) ∨
    (scanChar (pre.length+cur.length) equals s = .error (.write 32) ∧
      32 < (done++params (cur++equals::rest)).length) := by
  have hamp : equals ≠ amp := by decide
  have hspace : equals ≠ 0x20 := by decide
  obtain ⟨hclean,hphase,hcount,hstored,hpending⟩ := ht
  have hclean' := clean_snoc cur equals hclean hamp
  obtain ⟨count,key,val,entries⟩ := s
  simp only at *
  cases hphase with
  | skip _ he =>
    left
    simp only [scanChar, if_neg hamp, if_true]
    refine ⟨_,rfl,hclean',Phase.skip _ ?_,hcount,hstored,by simp⟩
    intro d hd
    rcases List.mem_append.mp hd with hd | hd
    · exact he d hd
    · exact List.mem_singleton.mp hd
  | inKey es k he hk hne =>
    simp only [scanChar, if_neg hamp, if_true]
    by_cases hlt : count < 32
    · left
      subst hcount
      have hi : pre.length+(es++k).length = pre.length+es.length+k.length := by simp; omega
      simp only [modify_ok hlt, if_pos hspace, hi]
      refine ⟨_,rfl,hclean',?_,rfl,stored_set hstored _ hlt,?_⟩
      · simpa using @Phase.inValue pre.length es k [] he hk hne
      · intro k' v' hk' hv'
        cases hk'
        cases hv'
        exact ⟨hlt,by simp⟩
    · right
      have hfull : done.length = 32 := by
        have := stored_length hstored
        omega
      have hover := full_table es k rest done he hk hne hclean (by omega)
      rw [hfull] at hcount
      subst hcount
      exact ⟨by rw [modify_overrun hlt],hover⟩
  | inValue es k v he hk hne =>
    left
    simp only [scanChar, if_neg hamp, if_true]
    refine ⟨_,rfl,hclean',?_,hcount,hstored,hpending⟩
    simpa using @Phase.inValue pre.length es k (v++[equals]) he hk hne

/-- The whole scan, by induction on the bytes still to read. What follows them
in the text is not visited. -/
theorem scan_within (text pre cur rest tail : List UInt8)
    (done : List (List UInt8 × List UInt8)) (s : Scan) (ht : Tracks text pre cur done s)
    (htext : text = pre++cur++(rest++tail)) :
    Outcome text (done++params (cur++rest)) (scanFrom rest (pre.length+cur.length) s) := by
  induction rest generalizing pre cur done s with
  | nil =>
    obtain ⟨t,hok,hcount,hstored⟩ := end_param text pre cur tail done s ht htext
    rw [List.append_nil, params_clean cur ht.clean]
    exact ⟨fun _ => ⟨t,hok,hcount,hstored⟩,fun h => absurd (stored_length hstored) (by omega)⟩
  | cons c rest ih =>
    by_cases hamp : c = amp
    · subst hamp
      obtain ⟨t,hok,hcount,hstored⟩ := end_param text pre cur (amp::rest++tail) done s ht htext
      rw [params_amp cur rest ht.clean, ← List.append_assoc]
      simp only [scanFrom, scanChar, if_true, hok]
      have hlen : pre.length+cur.length+1 = (pre++cur++[amp]).length+([]:List UInt8).length := by
        simp
        omega
      rw [hlen]
      apply ih (pre++cur++[amp]) []
      · exact ⟨by simp,Phase.skip [] (by simp),hcount,hstored,by simp⟩
      · simp [htext]
    · have hstep : (∃ t, scanChar (pre.length+cur.length) c s = .ok t ∧
            Tracks text pre (cur++[c]) done t) ∨
          (scanChar (pre.length+cur.length) c s = .error (.write 32) ∧
            32 < (done++params (cur++c::rest)).length) := by
        by_cases heq : c = equals
        · subst heq
          exact scan_equals text pre cur rest done s ht
        · exact Or.inl (scan_other text pre cur done s c hamp heq ht)
      rcases hstep with ⟨t,hok,ht'⟩ | ⟨herr,hover⟩
      · simp only [scanFrom, hok]
        have h := ih pre (cur++[c]) done t ht' (by simp [htext])
        simpa [Nat.add_assoc] using h
      · simp only [scanFrom, herr]
        exact ⟨fun h => absurd h (by omega),fun _ => rfl⟩

theorem scan_spec (text pre cur rest : List UInt8) (done : List (List UInt8 × List UInt8))
    (s : Scan) (ht : Tracks text pre cur done s) (htext : text = pre++cur++rest) :
    Outcome text (done++params (cur++rest)) (scanFrom rest (pre.length+cur.length) s) :=
  scan_within text pre cur rest [] done s ht (by rw [List.append_nil, htext])

theorem parse_spec (data : List UInt8) (qs : QsMap) :
    ((params (visited data)).length ≤ 32 → ∃ m, qsParse (some data) qs = .ok (m.count,m) ∧
      m.count = (params (visited data)).length ∧
      Stored (visited data) m.entries (params (visited data))) ∧
    (32 < (params (visited data)).length → qsParse (some data) qs = .error (.write 32)) := by
  simp only [qsParse]
  generalize visited data = text
  have h := scan_spec text [] [] text [] ⟨0,none,none,qs.entries⟩
    ⟨by simp,Phase.skip [] (by simp),rfl,fun j hj => absurd hj (by simp),by simp⟩ (by simp)
  simp only [List.nil_append, List.length_nil, Nat.add_zero] at h
  constructor
  · intro hle
    obtain ⟨s,hok,hcount,hstored⟩ := h.1 hle
    exact ⟨⟨s.count,s.entries⟩,by simp [hok],by simp [hcount],hstored⟩
  · intro hlt
    simp [h.2 hlt]

theorem readers_inside (mk : MkString) (data : List UInt8) (qs : QsMap) (h : qs.count ≤ 32) :
    (∀ key, ∃ r, qsGet mk data qs key = .ok r) ∧ (∀ idx, ∃ r, qsGetId mk data qs idx = .ok r) ∧
      ∀ key value, ∃ r, qsCmp data qs key value = .ok r := by
  have hfind : ∀ p, ∃ r, findLoop p qs.entries qs.count.toNat 0 = .ok r :=
    fun p => findLoop_ok p qs.entries _ 0 (by omega)
  refine ⟨fun key => ?_,fun idx => ?_,fun key value => ?_⟩
  · unfold qsGet
    split_ifs
    · exact ⟨_,rfl⟩
    · obtain ⟨r,hr⟩ := hfind (fun e => e.key.len = u32 key.length &&
        strncmpZero (offset (cstr data) e.key.data) (cstr key) (u32 key.length))
      exact ⟨_,by rw [hr]⟩
  · unfold qsGetId
    split_ifs with h1 h2
    · exact ⟨_,rfl⟩
    · exact ⟨_,rfl⟩
    · rw [load_ok (show idx.toNat < 32 by omega)]
      exact ⟨_,rfl⟩
  · unfold qsCmp
    split_ifs
    · exact ⟨_,rfl⟩
    · obtain ⟨r,hr⟩ := hfind (fun e =>
        strncmpZero (offset (cstr data) e.key.data) (cstr key) e.key.len &&
        strncmpZero (offset (cstr data) e.value.data) (cstr value) e.value.len)
      exact ⟨_,by rw [hr]⟩

/-- Parsing writes inside the table, leaves a count within it and so keeps the
readers inside. -/
def StaysInside (mk : MkString) (data : List UInt8) (qs : QsMap) : Prop :=
  ∃ n m, qsParse (some data) qs = .ok (n,m) ∧ m.count ≤ qsEntriesSize ∧
    (∀ key, ∃ r, qsGet mk data m key = .ok r) ∧ (∀ idx, ∃ r, qsGetId mk data m idx = .ok r) ∧
    ∀ key value, ∃ r, qsCmp data m key value = .ok r

/-- Every access stays inside the table exactly when the query string has at
most as many parameters as the table has entries. -/
theorem parse_inside_iff (mk : MkString) (data : List UInt8) (qs : QsMap) :
    StaysInside mk data qs ↔ (params (visited data)).length ≤ qsEntriesSize := by
  obtain ⟨hle,hgt⟩ := parse_spec data qs
  constructor
  · rintro ⟨n,m,hok,_⟩
    by_contra hc
    rw [hgt (by unfold qsEntriesSize at hc; omega)] at hok
    cases hok
  · intro h
    obtain ⟨m,hok,hcount,_⟩ := hle h
    have hc : m.count ≤ 32 := by
      rw [hcount]
      exact_mod_cast h
    exact ⟨m.count,m,hok,hc,readers_inside mk data m hc⟩

def noEntries : QsMap := ⟨0,Vector.replicate 32 ⟨⟨0,0⟩,⟨0,0⟩⟩⟩

/-- Thirty-three times `a=b`. -/
def manyParams : List UInt8 :=
  (List.replicate 32 [0x61,equals,0x62,amp]).flatten++[0x61,equals,0x62]

theorem parse_overruns : qsParse (some manyParams) noEntries = .error (.write 32) ∧
    ∀ mk, ¬ StaysInside mk manyParams noEntries := by
  have h : qsParse (some manyParams) noEntries = .error (.write 32) :=
    (parse_spec manyParams noEntries).2 (by decide +kernel)
  refine ⟨h,?_⟩
  rintro mk ⟨n,m,hok,_⟩
  rw [h] at hok
  cases hok

end Duda.QueryString
