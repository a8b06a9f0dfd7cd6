import Duda.QueryString

/-!
# What the query string table holds and how it is read

The table after a parse is the list of parameters of the bytes that were
visited. `duda_qs_get` compares whole keys, `duda_qs_cmp` only as many bytes
as the entry has, so that an entry passes for every text that it starts.
-/

set_option autoImplicit false

namespace Duda.QueryTable
open Duda.CheckedMemory Duda.CString Duda.MachineInt Duda.MonkeyString Duda.QueryString

def tableTexts (data : List UInt8) (m : QsMap) : List (List UInt8 × List UInt8) :=
  (m.entries.toList.take m.count.toNat).map (entryText data)

/-- The parse returns the number of the parameters and stores them. -/
def Parses (data : List UInt8) (qs : QsMap) (ps : List (List UInt8 × List UInt8)) : Prop :=
  ∃ m, qsParse (some data) qs = .ok (ps.length,m) ∧ m.count = ps.length ∧ tableTexts data m = ps

/-- `k1=v1&...&kn=vn`. -/
def joinPairs (pairs : List (List UInt8 × List UInt8)) : List UInt8 :=
  [amp].intercalate (pairs.map (fun kv => kv.1++equals::kv.2))

def Separable (kv : List UInt8 × List UInt8) : Prop :=
  kv.1 ≠ [] ∧ amp ∉ kv.1 ∧ equals ∉ kv.1 ∧ amp ∉ kv.2

section Parsing

variable (data : List UInt8) (qs : QsMap)

theorem stored_texts (m : QsMap) (ps : List (List UInt8 × List UInt8))
    (hcount : m.count = ps.length) (h : Stored data m.entries ps) : tableTexts data m = ps := by
  have hlen := stored_length h
  apply List.ext_getElem
  · simp only [tableTexts, hcount, List.length_map, List.length_take, Vector.length_toList]
    omega
  · intro i h1 h2
    obtain ⟨_,he⟩ := h i h2
    simpa [tableTexts] using he

theorem parse_table :
    ((params (visited data)).length ≤ 32 → Parses data qs (params (visited data))) ∧
    (32 < (params (visited data)).length → ∃ e, qsParse (some data) qs = .error e) := by
  have hdata : data = visited data++data.drop (i32 data.length).toNat :=
    (List.take_append_drop _ data).symm
  have h := scan_within data [] [] (visited data) _ [] ⟨0,none,none,qs.entries⟩
    ⟨by simp,Phase.skip [] (by simp),rfl,fun j hj => absurd hj (by simp),by simp⟩ hdata
  simp only [List.nil_append, List.length_nil, Nat.add_zero] at h
  constructor
  · intro hle
    obtain ⟨s,hok,hcount,hstored⟩ := h.1 hle
    refine ⟨⟨s.count,s.entries⟩,?_,by rw [hcount],?_⟩
    · simp only [qsParse, hok, hcount]
    · exact stored_texts data _ _ (by rw [hcount]) hstored
  · intro hlt
    exact ⟨_,by rw [qsParse, h.2 hlt]⟩

theorem parsed_table (m : QsMap) (n : ℤ) (h : qsParse (some data) qs = .ok (n,m)) :
    m.count ≤ 32 ∧ tableTexts data m = params (visited data) := by
  obtain ⟨hle,hgt⟩ := parse_table data qs
  by_cases hfit : (params (visited data)).length ≤ 32
  · obtain ⟨m',hok,hcount,htexts⟩ := hle hfit
    have hm : m' = m := congrArg Prod.snd (Except.ok.inj (hok.symm.trans h))
    rw [← hm, hcount]
    exact ⟨by exact_mod_cast hfit,htexts⟩
  · obtain ⟨e,he⟩ := hgt (by omega)
    rw [he] at h
    cases h

theorem parses_iff (ps : List (List UInt8 × List UInt8)) (hps : ps.length ≤ 32) :
    Parses data qs ps ↔ params (visited data) = ps := by
  constructor
  · rintro ⟨m,hok,_,htexts⟩
    rw [← (parsed_table data qs m _ hok).2, htexts]
  · intro h
    have hparse := (parse_table data qs).1
    rw [h] at hparse
    exact hparse hps

theorem visited_length : (visited data).length < 2^31 := by
  have h : i32 data.length < 2^31 := by
    simp only [i32, u32]
    split_ifs <;> omega
  rw [visited, List.length_take]
  omega

theorem splitOn_length (sep : UInt8) (text t : List UInt8) (h : t ∈ text.splitOn sep) :
    t.length ≤ text.length := by
  induction text generalizing t with
  | nil =>
    rw [List.splitOn_nil, List.mem_singleton] at h
    rw [h]
  | cons c text ih =>
    obtain ⟨p,ps,hp⟩ := List.exists_cons_of_ne_nil (List.splitOn_ne_nil sep text)
    rw [List.splitOn_cons_eq_if_modifyHead, hp] at h
    rw [hp] at ih
    split_ifs at h
    · rcases List.mem_cons.1 h with rfl | h
      · exact Nat.zero_le _
      · exact (ih t h).trans (Nat.le_succ _)
    · rw [List.modifyHead_cons, List.mem_cons] at h
      rcases h with rfl | h
      · exact Nat.succ_le_succ (ih p List.mem_cons_self)
      · exact (ih t (List.mem_cons_of_mem p h)).trans (Nat.le_succ _)

theorem params_value_length (text : List UInt8) (p : List UInt8 × List UInt8)
    (hp : p ∈ params text) : p.2.length ≤ text.length := by
  rw [params, List.mem_filterMap] at hp
  obtain ⟨t,ht,hpiece⟩ := hp
  have hvalue : p.2.length ≤ t.length := by
    rw [piece] at hpiece
    split_ifs at hpiece
    rw [Option.some.injEq] at hpiece
    rw [← hpiece]
    exact ((List.tail_sublist _).trans ((List.dropWhile_sublist _).trans
      (List.dropWhile_sublist _))).length_le
  exact hvalue.trans (splitOn_length amp text t ht)

theorem visited_short (h : data.length < 2^31) : visited data = data := by
  rw [visited, i32_natCast _ h, Int.toNat_natCast, List.take_length]

theorem params_join (pairs : List (List UInt8 × List UInt8)) (h : ∀ kv ∈ pairs, Separable kv) :
    params (joinPairs pairs) = pairs := by
  by_cases hnil : pairs = []
  · subst hnil
    rfl
  · have hclean : ∀ t ∈ pairs.map (fun kv => kv.1++equals::kv.2), amp ∉ t := by
      intro t ht
      obtain ⟨kv,hkv,rfl⟩ := List.mem_map.mp ht
      obtain ⟨_,hk,_,hv⟩ := h kv hkv
      simp only [List.mem_append, List.mem_cons, not_or]
      exact ⟨hk,by decide,hv⟩
    have hpiece : ∀ kv ∈ pairs, piece (kv.1++equals::kv.2) = some kv := by
      intro kv hkv
      obtain ⟨hne,_,hk,_⟩ := h kv hkv
      exact piece_value [] kv.1 kv.2 (by simp) hne hk
    rw [params, joinPairs, List.splitOn_intercalate amp hclean (by simpa using hnil),
      List.filterMap_map]
    exact (List.filterMap_congr hpiece).trans List.filterMap_some

end Parsing

/-- The table holds the parameters of the query string exactly when the bytes
that are visited have the same parameters, as they have below 2^31 bytes; and
the text of separable pairs has these pairs as its parameters. -/
theorem parse_splits_iff (data : List UInt8) (qs : QsMap)
    (h : (params data).length ≤ qsEntriesSize) :
    (Parses data qs (params data) ↔ params (visited data) = params data) ∧
    (data.length < 2^31 → Parses data qs (params data)) ∧
    ∀ pairs : List (List UInt8 × List UInt8), (∀ kv ∈ pairs, Separable kv) →
      data = joinPairs pairs → (Parses data qs pairs ↔ params (visited data) = params data) := by
  have hiff := parses_iff data qs _ h
  refine ⟨hiff,?_,?_⟩
  · intro hlen
    rw [hiff, visited_short data hlen]
  · rintro pairs hpairs rfl
    rw [params_join pairs hpairs] at hiff ⊢
    exact hiff

/-- `a=1&=b&c` holds one parameter. -/
theorem parse_splits_small :
    Parses [0x61,equals,0x31,amp,equals,0x62,amp,0x63] noEntries [([0x61],[0x31])] :=
  (parse_splits_iff [0x61,equals,0x31,amp,equals,0x62,amp,0x63] noEntries
    (by decide)).2.1 (by decide)

theorem single_params (v : List UInt8) (hv : amp ∉ v) :
    params (0x61::equals::v) = [([0x61],v)] := by
  have h := params_join [([0x61],v)] (by
    intro kv hkv
    rw [List.mem_singleton.mp hkv]
    exact ⟨by simp,by simp [amp],by simp [equals],hv⟩)
  simpa [joinPairs, List.intercalate] using h

/-- At 2^31 bytes the length is a negative `int`, and nothing is visited. -/
theorem parse_unvisited (data : List UInt8) (qs : QsMap) (h : data.length = 2^31) :
    qsParse (some data) qs = .ok (0,⟨0,qs.entries⟩) := by
  have hneg : (i32 (2^31:ℕ)).toNat = 0 := by decide
  have hvisited : visited data = [] := by rw [visited, h, hneg, List.take_zero]
  rw [qsParse, hvisited]
  rfl

/-- The only parameter of `a=bb...` is not seen. -/
theorem long_value_lost : ∃ v : List UInt8, params (0x61::equals::v) = [([0x61],v)] ∧
    qsParse (some (0x61::equals::v)) noEntries = .ok (0,noEntries) := by
  refine ⟨List.replicate (2^31-2) 0x62,single_params _ ?_,parse_unvisited _ _ ?_⟩
  · intro h
    exact absurd (List.eq_of_mem_replicate h) (by decide)
  · rw [List.length_cons, List.length_cons, List.length_replicate]
    omega

/-- What passes for a text in `duda_qs_cmp`: a text that it starts, or with a
zero byte inside, one that it is up to there. -/
def Covers (e k : List UInt8) : Prop := e <+: k ∨ k++[0] <+: e

/-- Some entry passes both comparisons. -/
def Passes (ps : List (List UInt8 × List UInt8)) (key value : List UInt8) : Prop :=
  ∃ p ∈ ps, Covers p.1 key ∧ Covers p.2 value

/-- The bytes of a key that `duda_qs_get` compares. -/
def comparedKey (key : List UInt8) : List UInt8 := key.take (u32 key.length)

section Reading

variable (data : List UInt8) (m : QsMap) (hm : m.count ≤ 32)

theorem no_texts (h : m.count ≤ 0) : tableTexts data m = [] := by
  rw [tableTexts, show m.count.toNat = 0 by omega]
  rfl

theorem covers_entry (p : MkPtr) (k : Text) :
    strncmpZero (offset (cstr data) p.data) (cstr k.bytes) p.len = true ↔
      Covers (ptrText data p) k.bytes :=
  strncmp_bounded k.bytes _ p.len k.nulFree

include hm in
theorem cmp_spec (key value : Text) :
    qsCmp data m key.bytes value.bytes = .ok 0 ↔
      Passes (tableTexts data m) key.bytes value.bytes := by
  by_cases hc : m.count ≤ 0
  · simp [qsCmp, hc, Passes, no_texts data m hc]
  · rw [qsCmp, if_neg hc, findLoop_find _ _ _ _ (by omega)]
    simp only [List.drop_zero, Except.ok.injEq]
    have hsome : ∀ o : Option QsEntry, (if o.isSome then (0:ℤ) else -1) = 0 ↔ o.isSome = true := by
      intro o
      cases o <;> simp
    rw [hsome, List.find?_isSome]
    simp only [Bool.and_eq_true, covers_entry, Passes, tableTexts, List.mem_map]
    constructor
    · rintro ⟨e,he,hk,hv⟩
      exact ⟨_,⟨e,he,rfl⟩,hk,hv⟩
    · rintro ⟨_,⟨e,he,rfl⟩,hk,hv⟩
      exact ⟨e,he,hk,hv⟩

theorem comparedKey_length (key : List UInt8) :
    (comparedKey key).length = u32 key.length := by
  have hle : u32 key.length ≤ key.length := by
    rw [u32]
    omega
  rw [comparedKey, List.length_take, Nat.min_eq_left hle]

/-- Keys are compared over the length that both have. -/
theorem key_entry (e : QsEntry) (key : Text) :
    (e.key.len = u32 key.bytes.length ∧
      strncmpZero (offset (cstr data) e.key.data) (cstr key.bytes) (u32 key.bytes.length) = true) ↔
      ptrText data e.key = comparedKey key.bytes := by
  have hlen := comparedKey_length key.bytes
  have hcut : strncmpZero (offset (cstr data) e.key.data) (cstr key.bytes)
      (u32 key.bytes.length) =
      strncmpZero (offset (cstr data) e.key.data) (cstr (comparedKey key.bytes))
        (u32 key.bytes.length) := by
    apply strncmp_congr
    intro i hi
    simp only [cstr, comparedKey, List.getD_eq_getElem?_getD, List.getElem?_take_of_lt hi]
  have htext := strncmp_text ⟨comparedKey key.bytes,fun h => key.nulFree (List.mem_of_mem_take h)⟩
    (offset (cstr data) e.key.data)
  simp only [hlen] at htext
  rw [hcut, htext, ptrText]
  constructor
  · rintro ⟨hl,hs⟩
    rw [hl, hs]
  · intro hs
    have hl : e.key.len = u32 key.bytes.length := by rw [← hlen, ← hs, slice_length]
    exact ⟨hl,by rw [← hl, hs]⟩

theorem copyValue_text (mk : MkString) (p : MkPtr) (h : p.len < 2^31) :
    copyValue mk data p = ptrText data p := by
  rw [copyValue, i32_natCast _ h, copySubstr_first]
  rfl

include hm in
theorem get_spec (mk : MkString) (hlen : ∀ p ∈ tableTexts data m, p.2.length < 2^31) (key : Text) :
    qsGet mk data m key.bytes = .ok (((tableTexts data m).find?
      (fun p => p.1 = comparedKey key.bytes)).map Prod.snd) := by
  by_cases hc : m.count ≤ 0
  · simp [qsGet, hc, no_texts data m hc]
  · have htest : (fun e : QsEntry => (e.key.len = u32 key.bytes.length &&
        strncmpZero (offset (cstr data) e.key.data) (cstr key.bytes) (u32 key.bytes.length))) =
        (fun p : List UInt8 × List UInt8 => decide (p.1 = comparedKey key.bytes)) ∘
          entryText data := by
      funext e
      rw [Bool.eq_iff_iff, Bool.and_eq_true, decide_eq_true_eq, key_entry data e key]
      exact ⟨decide_eq_true,of_decide_eq_true⟩
    rw [qsGet, if_neg hc, htest, findLoop_find _ _ _ _ (by omega), tableTexts, List.find?_map]
    simp only [List.drop_zero, Option.map_map]
    refine congrArg Except.ok (Option.map_congr fun e he => ?_)
    have hmem : entryText data e ∈ tableTexts data m :=
      List.mem_map_of_mem (List.mem_of_find?_eq_some he)
    have hshort := hlen _ hmem
    rw [entryText, ptrText, ptrText, slice_length] at hshort
    exact copyValue_text data mk e.value hshort

end Reading

theorem find_unique (ps : List (List UInt8 × List UInt8)) (k v : List UInt8)
    (h : (ps.map Prod.fst).Nodup) :
    (ps.find? (fun p => p.1 = k)).map Prod.snd = some v ↔ (k,v) ∈ ps := by
  induction ps with
  | nil => simp
  | cons p ps ih =>
    rw [List.map_cons, List.nodup_cons] at h
    rw [List.find?_cons, List.mem_cons]
    by_cases hp : p.1 = k
    · have hrest : (k,v) ∉ ps := fun hm => h.1 (hp ▸ List.mem_map_of_mem hm)
      simp only [hp, decide_true, Option.map_some, Option.some.injEq, hrest, or_false]
      constructor
      · intro hv
        rw [← hp, ← hv]
      · intro hv
        rw [← hv]
    · have hhead : (k,v) ≠ p := fun he => hp (by rw [← he])
      simp only [hp, decide_false, hhead, false_or]
      exact ih h.2

theorem equal_passes (ps : List (List UInt8 × List UInt8)) (key value : List UInt8)
    (h : (key,value) ∈ ps) : Passes ps key value :=
  ⟨_,h,.inl List.prefix_rfl,.inl List.prefix_rfl⟩

/-- `duda_qs_cmp` answers for the entries that are equal exactly when no other
entry passes in their place, and it agrees with `duda_qs_get` exactly when an
entry passes if and only if the compared key has the value. -/
theorem cmp_exact_iff (mk : MkString) (data : List UInt8) (qs m : QsMap) (n : ℤ)
    (key value : Text) (hparse : qsParse (some data) qs = .ok (n,m)) :
    ((qsCmp data m key.bytes value.bytes = .ok 0 ↔
        (key.bytes,value.bytes) ∈ tableTexts data m) ↔
      (Passes (tableTexts data m) key.bytes value.bytes →
        (key.bytes,value.bytes) ∈ tableTexts data m)) ∧
    (((tableTexts data m).map Prod.fst).Nodup →
      ((qsCmp data m key.bytes value.bytes = .ok 0 ↔
          qsGet mk data m key.bytes = .ok (some value.bytes)) ↔
        (Passes (tableTexts data m) key.bytes value.bytes ↔
          (comparedKey key.bytes,value.bytes) ∈ tableTexts data m))) := by
  obtain ⟨hm,htexts⟩ := parsed_table data qs m n hparse
  have hlen : ∀ p ∈ tableTexts data m, p.2.length < 2^31 := by
    intro p hp
    rw [htexts] at hp
    exact (params_value_length _ p hp).trans_lt (visited_length data)
  rw [cmp_spec data m hm key value, get_spec data m hm mk hlen key]
  constructor
  · constructor
    · exact fun h => h.mp
    · exact fun h => ⟨h,equal_passes _ _ _⟩
  · intro hnodup
    rw [Except.ok.injEq, find_unique _ _ _ hnodup]

/-- In `k=ab` the pair is found. -/
theorem cmp_exact_pair : ∃ m, qsParse (some [0x6b,equals,0x61,0x62]) noEntries = .ok (1,m) ∧
    qsCmp [0x6b,equals,0x61,0x62] m [0x6b] [0x61,0x62] = .ok 0 := by
  refine ⟨_,rfl,?_⟩
  have h := (cmp_exact_iff plainString [0x6b,equals,0x61,0x62] noEntries _ 1 ⟨[0x6b],by simp⟩
    ⟨[0x61,0x62],by simp⟩ rfl).1
  exact (h.mpr (fun _ => by decide +kernel)).mpr (by decide +kernel)

/-- In `k=ab` the key `k` has another value than `abc`, but the comparison
succeeds. -/
theorem cmp_prefix_passes :
    ∃ m, qsParse (some [0x6b,equals,0x61,0x62]) noEntries = .ok (1,m) ∧
      qsCmp [0x6b,equals,0x61,0x62] m [0x6b] [0x61,0x62,0x63] = .ok 0 ∧
      tableTexts [0x6b,equals,0x61,0x62] m = [([0x6b],[0x61,0x62])] ∧
      ∀ mk, qsGet mk [0x6b,equals,0x61,0x62] m [0x6b] = .ok (some [0x61,0x62]) := by
  refine ⟨_,rfl,by rfl,by rfl,fun mk => ?_⟩
  rw [get_spec _ _ (by decide) mk (by decide +kernel) ⟨[0x6b],by simp⟩]
  rfl

end Duda.QueryTable
