import Duda.Cookie

/-!
# Which cookie is found

The header is a list of pairs. `duda_cookie_get` takes the first place where
the key occurs as a string, in a name, in a value or behind the header, and
from there the next equals sign. The value that it yields is the one of the
pair with this name exactly when that sign is the sign of the pair.
-/

set_option autoImplicit false

namespace Duda.CookieLookup
open Duda.CString Duda.MachineInt Duda.Cookie

def space : UInt8 := 32

/-- The text stands at the position of a C string. -/
def OccursAt (data : ℕ → UInt8) (text : List UInt8) (p : ℕ) : Prop :=
  0 ∉ slice data p ∧ slice (offset data p) text.length = text

def First (data : ℕ → UInt8) (text : List UInt8) (p : ℕ) : Prop :=
  OccursAt data text p ∧ ∀ q < p, ¬OccursAt data text q

/-- The searches return the first occurrence, the bounded one within its bound. -/
structure FirstOccurrence (mk : MkSearch) : Prop where
  search : ∀ data text p, mk.strSearch data text = some p ↔ First data text p
  searchN : ∀ data text (n : ℤ) (p : ℕ), mk.strSearchN data text n = some p ↔
    First data text p ∧ (p+text.length:ℤ) ≤ n

structure CookiePair where
  name : List UInt8
  value : List UInt8
  name_ok : equals ∉ name ∧ semicolon ∉ name ∧ space ∉ name
  value_ok : semicolon ∉ value

def pairText (p : CookiePair) : List UInt8 := p.name++equals::p.value

/-- `n1=v1; n2=v2; ...` -/
def cookieText (pairs : List CookiePair) : List UInt8 :=
  [semicolon,space].intercalate (pairs.map pairText)

/-- The header in memory, with anything behind it. -/
def cookieHeader (pairs : List CookiePair) (rest : ℕ → UInt8) : Header :=
  ⟨layout (cookieText pairs) rest,(cookieText pairs).length⟩

/-- The position of the equals sign of the first pair with the name, and its
value. -/
def pairAt (key : List UInt8) : List CookiePair → ℕ → Option (ℕ × List UInt8)
  | [], _ => none
  | p::pairs, off =>
    if p.name = key then some (off+p.name.length,p.value)
    else pairAt key pairs (off+(pairText p).length+2)

/-- The equals sign that follows the first occurrence of the key is at `e`. -/
def SignAt (data : ℕ → UInt8) (len : ℤ) (key : List UInt8) (e : ℕ) : Prop :=
  ∃ p q, First data key p ∧ First (offset data p) [equals] q ∧ p+q = e ∧ (e:ℤ) < len

instance (data : ℕ → UInt8) (text : List UInt8) : DecidablePred (OccursAt data text) :=
  fun p => inferInstanceAs (Decidable (0 ∉ slice data p ∧ slice (offset data p) _ = text))

instance (data : ℕ → UInt8) (text : List UInt8) (p : ℕ) : Decidable (First data text p) :=
  inferInstanceAs (Decidable (OccursAt data text p ∧ ∀ q < p, ¬OccursAt data text q))

theorem first_unique (data : ℕ → UInt8) (text : List UInt8) (p p' : ℕ) (h : First data text p)
    (h' : First data text p') : p = p' := by
  rcases Nat.lt_trichotomy p p' with hlt | heq | hgt
  · exact absurd h.1 (h'.2 p hlt)
  · exact heq
  · exact absurd h'.1 (h.2 p' hgt)

theorem sign_unique (data : ℕ → UInt8) (len : ℤ) (key : List UInt8) (e e' : ℕ)
    (h : SignAt data len key e) (h' : SignAt data len key e') : e = e' := by
  obtain ⟨p,q,hp,hq,rfl,_⟩ := h
  obtain ⟨p',q',hp',hq',rfl,_⟩ := h'
  obtain rfl := first_unique _ _ _ _ hp hp'
  rw [first_unique _ _ _ _ hq hq']

section Search

variable (mk : MkSearch) (hmk : FirstOccurrence mk) (data : ℕ → UInt8) (len : ℕ) (key : List UInt8)

include hmk in
/-- What is returned is the value behind the sign, up to a semicolon. -/
theorem cookieGet_some (s l : ℕ) :
    cookieGet mk (some ⟨data,len⟩) key = some (s,l) ↔
      ∃ e, SignAt data (i32 len) key e ∧
        s = e+1 ∧ l = valueLen data (e+1) (i32 len-(e+1:ℕ)).toNat := by
  simp only [cookieGet, Option.bind_some, Option.bind_eq_some_iff, Option.map_eq_some_iff,
    hmk.search, hmk.searchN, Prod.mk.injEq, List.length_singleton]
  constructor
  · rintro ⟨p,hp,q,⟨hq,hle⟩,rfl,rfl⟩
    refine ⟨p+q,⟨p,q,hp,hq,rfl,by push_cast at hle ⊢; omega⟩,by omega,?_⟩
    rw [Nat.add_assoc]
  · rintro ⟨_,⟨p,q,hp,hq,rfl,hlt⟩,rfl,rfl⟩
    refine ⟨p,hp,q,⟨hq,by push_cast at hlt ⊢; omega⟩,by omega,?_⟩
    rw [Nat.add_assoc]

include hmk in
theorem cookieGet_none :
    cookieGet mk (some ⟨data,len⟩) key = none ↔ ∀ e, ¬SignAt data (i32 len) key e := by
  have hsome := cookieGet_some mk hmk data len key
  constructor
  · intro h e he
    rw [(hsome _ _).mpr ⟨e,he,rfl,rfl⟩] at h
    cases h
  · intro h
    cases hget : cookieGet mk (some ⟨data,len⟩) key with
    | none => rfl
    | some r =>
      obtain ⟨e,he,_⟩ := (hsome r.1 r.2).mp hget
      exact absurd he (h e)

theorem valueLen_le (i k : ℕ) : valueLen data i k ≤ k := by
  induction k generalizing i with
  | zero => exact le_rfl
  | succ k ih =>
    rw [valueLen]
    split_ifs
    · exact Nat.zero_le _
    · exact Nat.succ_le_succ (ih (i+1))

theorem i32_le (n : ℕ) : i32 n ≤ n := by
  simp only [i32, u32]
  split_ifs <;> omega

include hmk in
theorem slice_inside_header (s l : ℕ) (h : cookieGet mk (some ⟨data,len⟩) key = some (s,l)) :
    s+l ≤ len := by
  obtain ⟨e,⟨_,_,_,_,_,hlt⟩,rfl,rfl⟩ := (cookieGet_some mk hmk data len key s l).mp h
  have hle := valueLen_le data (e+1) (i32 len-(e+1:ℕ)).toNat
  have hlen := i32_le len
  omega

end Search

section Pairs

theorem valueLen_value (pre v post : List UInt8) (rest : ℕ → UInt8) (hv : semicolon ∉ v)
    (hpost : post = [] ∨ ∃ r, post = semicolon::r) :
    valueLen (layout (pre++(v++post)) rest) pre.length (v++post).length = v.length := by
  induction v generalizing pre with
  | nil =>
    rcases hpost with rfl | ⟨r,rfl⟩
    · rfl
    · simp [valueLen, layout]
  | cons c v ih =>
    have hc : layout (pre++(c::v++post)) rest pre.length = c := by simp [layout]
    have hne : c ≠ semicolon := fun h => hv (by simp [h])
    have hrest := ih (pre++[c]) (fun h => hv (by simp [h]))
    have htext : pre++[c]++(v++post) = pre++(c::v++post) := by simp
    rw [htext, List.length_append, List.length_singleton] at hrest
    rw [List.cons_append, List.length_cons, valueLen, ← List.cons_append, hc, if_neg hne, hrest,
      List.length_cons]

theorem pairAt_text (key : List UInt8) (pairs : List CookiePair) (off e : ℕ) (v : List UInt8)
    (h : pairAt key pairs off = some (e,v)) :
    ∃ pre post, cookieText pairs = pre++equals::(v++post) ∧ e = off+pre.length ∧
      semicolon ∉ v ∧ (post = [] ∨ ∃ r, post = semicolon::r) := by
  induction pairs generalizing off with
  | nil => cases h
  | cons p pairs ih =>
    rw [pairAt] at h
    have htail : ∃ post, cookieText (p::pairs) = pairText p++post ∧
        (post = [] ∨ ∃ r, post = semicolon::r) ∧
        (pairs ≠ [] → post = semicolon::space::cookieText pairs) := by
      cases pairs with
      | nil => exact ⟨[],by simp [cookieText],.inl rfl,fun hne => absurd rfl hne⟩
      | cons q pairs =>
        exact ⟨_,by simp [cookieText],.inr ⟨_,rfl⟩,fun _ => rfl⟩
    obtain ⟨post,htext,hpost,hmore⟩ := htail
    split_ifs at h with hname
    · cases h
      exact ⟨p.name,post,by rw [htext, pairText, List.append_assoc, List.cons_append],rfl,
        p.value_ok,hpost⟩
    · obtain ⟨pre',post',htext',he,hv,hpost'⟩ := ih _ h
      have hne : pairs ≠ [] := by
        rintro rfl
        cases h
      refine ⟨pairText p++semicolon::space::pre',post',?_,?_,hv,hpost'⟩
      · rw [htext, hmore hne, htext']
        simp
      · rw [he]
        simp
        omega

theorem pairAt_value (key : List UInt8) (pairs : List CookiePair) (off : ℕ) :
    (pairAt key pairs off).map Prod.snd =
      (pairs.find? (fun p => p.name = key)).map CookiePair.value := by
  induction pairs generalizing off with
  | nil => rfl
  | cons p pairs ih =>
    rw [pairAt, List.find?_cons]
    by_cases hname : p.name = key
    · simp [hname]
    · simp only [hname, decide_false]
      exact ih _

end Pairs

/-- The sign that the search leads to is the one of the pair with the name; if
there is none, the search leads to no sign. -/
def LeadsToPair (header : Header) (pairs : List CookiePair) (key : List UInt8) : Prop :=
  ∀ e, SignAt header.data header.len key e ↔ ∃ v, pairAt key pairs 0 = some (e,v)

theorem leads_of_sign (header : Header) (pairs : List CookiePair) (key : List UInt8) (e : ℕ)
    (v : List UInt8) (hpair : pairAt key pairs 0 = some (e,v)) :
    LeadsToPair header pairs key ↔ SignAt header.data header.len key e := by
  constructor
  · exact fun h => (h e).mpr ⟨v,hpair⟩
  · intro h e'
    rw [hpair]
    constructor
    · intro h'
      rw [sign_unique _ _ _ _ _ h h']
      exact ⟨v,rfl⟩
    · rintro ⟨v',hv⟩
      cases hv
      exact h

section Header

variable (mk : MkSearch) (hmk : FirstOccurrence mk) (pairs : List CookiePair) (rest : ℕ → UInt8)
  (key : List UInt8)

theorem value_read (e : ℕ) (v : List UInt8) (hpair : pairAt key pairs 0 = some (e,v)) :
    valueLen (layout (cookieText pairs) rest) (e+1) ((cookieText pairs).length-(e+1)) = v.length ∧
      slice (offset (layout (cookieText pairs) rest) (e+1)) v.length = v := by
  obtain ⟨pre,post,htext,he,hv,hpost⟩ := pairAt_text key pairs 0 e v hpair
  have hsplit : cookieText pairs = (pre++[equals])++(v++post) := by
    rw [htext]
    simp
  have hpre : e+1 = (pre++[equals]).length := by
    rw [he]
    simp
  have hleft : (cookieText pairs).length-(e+1) = (v++post).length := by
    rw [hsplit, hpre, List.length_append, Nat.add_sub_cancel_left]
  rw [hleft, hpre, hsplit]
  exact ⟨valueLen_value _ v post rest hv hpost,slice_layout _ v post rest⟩

include hmk in
theorem get_pair_iff (hlen : (cookieText pairs).length < 2^31) :
    cookieGet mk (some (cookieHeader pairs rest)) key =
        (pairAt key pairs 0).map (fun r => (r.1+1,r.2.length)) ↔
      LeadsToPair (cookieHeader pairs rest) pairs key := by
  have hsome := cookieGet_some mk hmk (layout (cookieText pairs) rest) (cookieText pairs).length key
  have hnone := cookieGet_none mk hmk (layout (cookieText pairs) rest) (cookieText pairs).length key
  rw [i32_natCast _ hlen] at hsome hnone
  cases hpair : pairAt key pairs 0 with
  | none =>
    rw [LeadsToPair, hpair]
    simpa [cookieHeader] using hnone
  | some r =>
    rw [leads_of_sign _ _ _ r.1 r.2 hpair, Option.map_some, cookieHeader, hsome]
    constructor
    · rintro ⟨e,he,hs,_⟩
      rw [Nat.add_right_cancel hs]
      exact he
    · intro h
      have hread := (value_read pairs rest key r.1 r.2 hpair).1
      refine ⟨r.1,h,rfl,?_⟩
      rw [← hread]
      congr 1
      omega

include hmk in
theorem value_of_pair (hlen : (cookieText pairs).length < 2^31)
    (h : LeadsToPair (cookieHeader pairs rest) pairs key) :
    cookieValue mk (some (cookieHeader pairs rest)) key =
      (pairs.find? (fun p => p.name = key)).map CookiePair.value := by
  have hget := (get_pair_iff mk hmk pairs rest key hlen).mpr h
  rw [cookieValue, Option.bind_some, hget, ← pairAt_value key pairs 0]
  cases hpair : pairAt key pairs 0 with
  | none => rfl
  | some r =>
    simp only [Option.map_some, Option.some.injEq]
    exact (value_read pairs rest key r.1 r.2 hpair).2

end Header

/-- In a header below 2^31 bytes the pair with the name is found exactly when
the search leads to its sign, and its value is then returned. The slice lies
inside the header in any case. -/
theorem cookie_get_iff (mk : MkSearch) (hmk : FirstOccurrence mk) (pairs : List CookiePair)
    (rest : ℕ → UInt8) (key : List UInt8) :
    ((cookieText pairs).length < 2^31 →
      (cookieGet mk (some (cookieHeader pairs rest)) key =
          (pairAt key pairs 0).map (fun r => (r.1+1,r.2.length)) ↔
        LeadsToPair (cookieHeader pairs rest) pairs key) ∧
      (LeadsToPair (cookieHeader pairs rest) pairs key →
        cookieValue mk (some (cookieHeader pairs rest)) key =
          (pairs.find? (fun p => p.name = key)).map CookiePair.value)) ∧
    ∀ s l, cookieGet mk (some (cookieHeader pairs rest)) key = some (s,l) →
      s+l ≤ (cookieHeader pairs rest).len :=
  ⟨fun hlen => ⟨get_pair_iff mk hmk pairs rest key hlen,value_of_pair mk hmk pairs rest key hlen⟩,
    slice_inside_header mk hmk _ _ key⟩

section Searches

open Classical in
/-- Searches that return the first occurrence. -/
noncomputable def firstSearch : MkSearch where
  strSearch data text := if h : ∃ p, OccursAt data text p then some (Nat.find h) else none
  strSearchN data text n := if h : ∃ p, OccursAt data text p then
    if (Nat.find h+text.length:ℤ) ≤ n then some (Nat.find h) else none else none

theorem find_first (data : ℕ → UInt8) (text : List UInt8) (p : ℕ)
    (h : ∃ p, OccursAt data text p) : Nat.find h = p ↔ First data text p :=
  Nat.find_eq_iff h

theorem firstSearch_first : FirstOccurrence firstSearch := by
  constructor
  · intro data text p
    by_cases h : ∃ p, OccursAt data text p
    · simp only [firstSearch, dif_pos h, Option.some.injEq, find_first]
    · have hno : ¬First data text p := fun hp => h ⟨p,hp.1⟩
      simp [firstSearch, dif_neg h, hno]
  · intro data text n p
    by_cases h : ∃ p, OccursAt data text p
    · rw [← find_first data text p h]
      simp only [firstSearch, dif_pos h]
      split_ifs with hle
      · rw [Option.some.injEq]
        exact ⟨fun hp => ⟨hp,hp ▸ hle⟩,fun hp => hp.1⟩
      · refine iff_of_false (by simp) ?_
        rintro ⟨rfl,hp⟩
        exact hle hp
    · have hno : ¬First data text p := fun hp => h ⟨p,hp.1⟩
      simp [firstSearch, dif_neg h, hno]

end Searches

/-- The pair `b=2`. -/
def pairB : CookiePair := ⟨[98],[50],by decide,by decide⟩

/-- The pair `ab=1`. -/
def pairAB : CookiePair := ⟨[97,98],[49],by decide,by decide⟩

/-- In `b=2; ab=1` the value of `b` is found. -/
theorem cookie_get_first :
    cookieValue firstSearch (some (cookieHeader [pairB,pairAB] (fun _ => 0))) [98] = some [50] := by
  have h := (cookie_get_iff firstSearch firstSearch_first [pairB,pairAB] (fun _ => 0) [98]).1
    (by decide)
  refine h.2 ((leads_of_sign _ _ _ 1 [50] (by decide)).mpr ⟨0,1,?_⟩)
  decide

/-- In `ab=1; b=2` the key `b` is found inside the name `ab`. -/
theorem cookie_inside_name :
    cookieGet firstSearch (some (cookieHeader [pairAB,pairB] (fun _ => 0))) [98] = some (3,1) ∧
    cookieValue firstSearch (some (cookieHeader [pairAB,pairB] (fun _ => 0))) [98] = some [49] ∧
    ([pairAB,pairB].find? (fun p => p.name = [98])).map CookiePair.value = some [50] := by
  have h : cookieGet firstSearch (some (cookieHeader [pairAB,pairB] (fun _ => 0))) [98] =
      some (3,1) :=
    (cookieGet_some firstSearch firstSearch_first _ _ [98] 3 1).mpr ⟨2,⟨1,1,by decide⟩,by decide⟩
  exact ⟨h,by rw [cookieValue, Option.bind_some, h]; rfl,rfl⟩

end Duda.CookieLookup
