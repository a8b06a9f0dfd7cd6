import Duda.JsonString

/-!
# Texts that the parser survives

Where every escape of a code point has its four digits, no backslash ends the text and no
exponent has more than nine digits, nothing is read behind the terminator and nothing is
written outside of a string, however malformed the text is. The parser ends, and a
failure leaves the error pointer inside of the text.
-/

set_option autoImplicit false

namespace Duda.JsonSafety
open Duda.Binary64 Duda.CString Duda.CType Duda.Decimal Duda.Json Duda.JsonString
open Duda.JsonString.Piece

section Texts

/-- What the parser relies on without a check. -/
structure Safe (p : List UInt8) : Prop where
  escapes : ∀ t, 92::t <:+ p → t ≠ []
  digits : ∀ t, 92::117::t <:+ p → ∃ ds rest, Four ds ∧ t = ds++rest
  exponents : ∀ e sign ds, e::(sign++ds) <:+: p → e = 101 ∨ e = 69 →
    sign = [] ∨ sign = [43] ∨ sign = [45] → (∀ c ∈ ds, IsDigit c) → ds.length ≤ 9
  short : p.length+1 < 2^31

theorem Safe.suffix {p q : List UInt8} (h : Safe p) (hs : q <:+ p) : Safe q :=
  ⟨fun t ht => h.escapes t (ht.trans hs),fun t ht => h.digits t (ht.trans hs),
    fun e sign ds he => h.exponents e sign ds (he.trans hs.isInfix),
    (Nat.add_le_add_right hs.length_le 1).trans_lt h.short⟩

theorem Safe.tail {c : UInt8} {p : List UInt8} (h : Safe (c::p)) : Safe p :=
  h.suffix (List.suffix_cons c p)

/-- A result that stays inside of the text, and takes some of it. -/
def Inside {α : Type} (p : List UInt8) : Parsed α → Prop
  | .fault => False
  | .null ep => ep <:+ p
  | .ok _ rest => rest <:+ p ∧ rest.length < p.length

theorem Inside.suffix {α : Type} {p q : List UInt8} {r : Parsed α} (h : Inside q r)
    (hs : q <:+ p) : Inside p r := by
  cases r with
  | fault => exact h
  | null ep => exact h.trans hs
  | ok a rest => exact ⟨h.1.trans hs,h.2.trans_le hs.length_le⟩

theorem Inside.bind {α β : Type} {p : List UInt8} {r : Parsed α} {f : α → List UInt8 → Parsed β}
    (h : Inside p r)
    (hf : ∀ a rest, rest <:+ p → rest.length < p.length → Inside p (f a rest)) :
    Inside p (r.bind f) := by
  cases r with
  | fault => exact h
  | null ep => exact h
  | ok a rest => exact hf a rest h.1 h.2

theorem inside_cons {α : Type} (a : α) {c : UInt8} {p rest : List UInt8} (h : rest <:+ p) :
    Inside (c::p) (.ok a rest) :=
  ⟨h.trans (List.suffix_cons c p),Nat.lt_succ_of_le h.length_le⟩

theorem skip_suffix (p : List UInt8) : skip p <:+ p := List.dropWhile_suffix _

end Texts

section Strings

theorem countLoop_some {p : List UInt8} (h : Safe p) :
    ∃ n, countLoop p = some n ∧ n ≤ p.length := by
  induction p using countLoop.induct with
  | case1 => exact ⟨0,rfl,le_rfl⟩
  | case2 p => exact ⟨0,countLoop_ends (.inl rfl),Nat.zero_le _⟩
  | case3 _ => exact absurd rfl (h.escapes [] (List.suffix_refl _))
  | case4 d p _ ih =>
    obtain ⟨n,hn,hl⟩ := ih h.tail.tail
    exact ⟨1+n,by rw [countLoop_escape, hn]; rfl,by simp only [List.length_cons]; omega⟩
  | case5 c p hc h92 ih =>
    obtain ⟨n,hn,hl⟩ := ih h.tail
    exact ⟨1+n,by rw [countLoop_plain p ⟨hc,h92⟩, hn]; rfl,by rw [List.length_cons]; omega⟩

/-- An escape of a code point, and the one behind it that it may take along, write less than
is counted for them. -/
theorem unicode_inside {size n : ℕ} (st : Decoding) (ds t : List UInt8) (hd : Four ds)
    (hs : Safe t) (hn : countLoop t = some n) (hl : st.out.length+(n+5) < size) :
    ∃ next u m, Json.unicode size st (ds++t) = some (next,u) ∧ u <:+ t ∧
      countLoop u = some m ∧ next.out.length+m < size := by
  have hscan := scanHex_four t hd
  have hadv := advance_append ds t hd.1
  have hroom : ∀ uc, (st.out++encoded uc).length+n < size := fun uc => by
    have := encodedLen_range uc
    rw [List.length_append, encoded_length]
    omega
  by_cases hlow : (0xDC00 ≤ hexRun 0 ds ∧ hexRun 0 ds ≤ 0xDFFF) ∨ hexRun 0 ds = 0
  · refine ⟨{ st with uc := some (hexRun 0 ds) },t,n,?_,List.suffix_refl t,hn,by simp only; omega⟩
    simp [Json.unicode, hscan, hlow, hadv]
  by_cases hhigh : 0xD800 ≤ hexRun 0 ds ∧ hexRun 0 ds ≤ 0xDBFF
  · have hunicode : Json.unicode size st (ds++t) = surrogate size st (hexRun 0 ds) (ds++t) := by
      simp only [Json.unicode, hscan, Option.some_or, Option.bind_eq_bind, Option.bind_some,
        if_neg hlow, if_pos hhigh]
    rw [hunicode, surrogate, hadv]
    simp only [Option.bind_eq_bind, Option.bind_some]
    by_cases hnext : t.head? = some 92 ∧ t.tail.head? = some 117
    · obtain ⟨v,rfl⟩ : ∃ v, t = 92::117::v := by
        cases t with
        | nil => simp at hnext
        | cons a t =>
          cases t with
          | nil => simp at hnext
          | cons b v => exact ⟨v,by simpa using hnext⟩
      obtain ⟨ls,u,hls,rfl⟩ := hs.digits v (List.suffix_refl _)
      have hscan2 := scanHex_four u hls
      have hadv2 : advance 6 (92::117::(ls++u)) = some u :=
        advance_append (92::117::ls) u (by simp [hls.1])
      have hu : u <:+ 92::117::(ls++u) := ⟨92::117::ls,rfl⟩
      rw [countLoop_unicode ls u hls.2] at hn
      obtain ⟨m,hm,rfl⟩ := Option.map_eq_some_iff.1 hn
      simp only [List.head?_cons, List.tail_cons, and_self, if_true, List.drop_succ_cons,
        List.drop_zero, hscan2, Option.some_or, Option.bind_some, hadv2]
      split_ifs with hout
      · exact ⟨_,u,m,rfl,hu,hm,by simp only; omega⟩
      · obtain ⟨next,hfits,hwritten⟩ := transcode_fits { st with uc2 := some (hexRun 0 ls) }
          ((Nat.le_add_right _ _).trans (hroom (combined (hexRun 0 ds) (hexRun 0 ls))).le)
        rw [combined] at hfits
        refine ⟨next,u,m,by rw [hfits]; rfl,hu,hm,?_⟩
        have := hroom (combined (hexRun 0 ds) (hexRun 0 ls))
        rw [hwritten]
        simp only
        omega
    · rw [if_neg hnext]
      exact ⟨_,t,n,rfl,List.suffix_refl t,hn,by simp only; omega⟩
  · obtain ⟨next,hfits,hwritten⟩ := transcode_fits st
      ((Nat.le_add_right _ _).trans (hroom (hexRun 0 ds)).le)
    refine ⟨next,t,n,?_,List.suffix_refl t,hn,by rw [hwritten]; exact hroom _⟩
    simp only [Json.unicode, hscan, Option.some_or, Option.bind_eq_bind, Option.bind_some,
      if_neg hlow, if_neg hhigh, hfits, hadv]

theorem unescape_inside {size n : ℕ} (st : Decoding) (c : UInt8) (p : List UInt8)
    (hs : Safe (92::c::p)) (hn : countLoop (92::c::p) = some n) (hl : st.out.length+n < size) :
    ∃ next u m, unescape size st (c::p) = some (next,u) ∧ u <:+ p ∧
      countLoop u = some m ∧ next.out.length+m < size := by
  by_cases hc : c = 117
  · subst hc
    obtain ⟨ds,t,hd,rfl⟩ := hs.digits p (List.suffix_refl _)
    have ht : t <:+ ds++t := List.suffix_append ds t
    rw [countLoop_unicode ds t hd.2] at hn
    obtain ⟨m,hm,rfl⟩ := Option.map_eq_some_iff.1 hn
    have hcount : st.out.length+(m+5) < size := by
      rw [hd.1] at hl
      omega
    obtain ⟨next,u,m',hread,hu,hm',hroom⟩ := unicode_inside st ds t hd (hs.tail.tail.suffix ht) hm
      hcount
    exact ⟨next,u,m',by rw [unescape, if_pos rfl, hread],hu.trans ht,hm',hroom⟩
  · rw [countLoop_escape] at hn
    obtain ⟨m,hm,rfl⟩ := Option.map_eq_some_iff.1 hn
    have hput : put size st.out [plainEscape c] = some (st.out++[plainEscape c]) :=
      put_fits (by rw [List.length_append, List.length_singleton]; omega)
    refine ⟨{ st with out := st.out++[plainEscape c] },p,m,?_,List.suffix_refl p,hm,?_⟩
    · rw [unescape, if_neg hc, hput]
      rfl
    · rw [List.length_append, List.length_singleton]
      omega

/-- The second loop never leaves the space that the first one counted. -/
theorem decodeLoop_inside (size k n : ℕ) (st : Decoding) (p : List UInt8) (hs : Safe p)
    (hn : countLoop p = some n) (hl : st.out.length+n < size) (hk : p.length < k) :
    ∃ out rest, decodeLoop size k st p = some (out,rest) ∧ rest <:+ p := by
  induction k generalizing n st p with
  | zero => omega
  | succ k ih =>
    cases p with
    | nil => exact ⟨st.out,[],decodeLoop_ends k st (.inr ⟨rfl,rfl⟩) (by omega),List.suffix_refl []⟩
    | cons c p =>
      rw [List.length_cons] at hk
      by_cases hc : c = 34
      · exact ⟨st.out,p,decodeLoop_ends k st (.inl (by rw [hc])) (by omega),List.suffix_cons c p⟩
      by_cases h92 : c = 92
      · subst h92
        obtain ⟨d,q,rfl⟩ := List.exists_cons_of_ne_nil (hs.escapes p (List.suffix_refl _))
        rw [List.length_cons] at hk
        obtain ⟨next,u,m,hread,hu,hm,hroom⟩ := unescape_inside st d q hs hn hl
        have hafter : u <:+ 92::d::q :=
          hu.trans ((List.suffix_cons d q).trans (List.suffix_cons 92 _))
        obtain ⟨out,rest,hloop,hrest⟩ := ih m next u (hs.suffix hafter) hm hroom
          (by have := hu.length_le; omega)
        refine ⟨out,rest,?_,hrest.trans hafter⟩
        rw [decodeLoop, if_neg hc, if_neg (by simp), hread]
        exact hloop
      · rw [countLoop_plain p ⟨hc,h92⟩] at hn
        obtain ⟨m,hm,rfl⟩ := Option.map_eq_some_iff.1 hn
        have hput : put size st.out [c] = some (st.out++[c]) :=
          put_fits (by rw [List.length_append, List.length_singleton]; omega)
        obtain ⟨out,rest,hloop,hrest⟩ := ih m { st with out := st.out++[c] } p hs.tail hm
          (by rw [List.length_append, List.length_singleton]; omega) (by omega)
        refine ⟨out,rest,?_,hrest.trans (List.suffix_cons c p)⟩
        rw [decodeLoop, if_neg hc, if_pos h92, hput]
        exact hloop

theorem parseString_inside {p : List UInt8} (h : Safe p) : Inside p (parseString p) := by
  cases p with
  | nil => exact List.suffix_refl []
  | cons c p =>
    by_cases hc : c = 34
    · obtain ⟨n,hn,hlen⟩ := countLoop_some h.tail
      have hshort := h.tail.short
      obtain ⟨out,rest,hloop,hrest⟩ := decodeLoop_inside (n+1) (p.length+1) n
        ⟨[],none,none⟩ p h.tail hn (by simp) (by omega)
      rw [parseString, if_pos hc, hn]
      simp only
      rw [if_pos (by omega), hloop, finished]
      exact inside_cons _ hrest
    · rw [parseString, if_neg hc]
      exact List.suffix_refl _

end Strings

section Numbers

theorem digitsLoop_suffix (n : Double) (count : ℤ) (p : List UInt8) :
    (digitsLoop n count p).2.2 <:+ p := by
  induction p generalizing n count with
  | nil => exact List.suffix_refl []
  | cons c p ih =>
    rw [digitsLoop]
    split_ifs
    · exact (ih _ _).trans (List.suffix_cons c p)
    · exact List.suffix_refl _

/-- Nine digits are no more than an `int` holds. -/
theorem exponentLoop_some (j : ℕ) (v : ℤ) (p : List UInt8) (hv : 0 ≤ v ∧ v < 10^j)
    (hj : j+(p.takeWhile (fun c => IsDigit c)).length ≤ 9) :
    ∃ u rest, exponentLoop v p = some (u,rest) ∧ rest <:+ p := by
  induction p generalizing j v with
  | nil => exact ⟨v,[],rfl,List.suffix_refl []⟩
  | cons c p ih =>
    by_cases hc : IsDigit c
    · rw [List.takeWhile_cons_of_pos (by simpa using hc), List.length_cons] at hj
      have hdigit := hc
      rw [IsDigit] at hdigit
      have hpow : (10 : ℤ)^(j+1) ≤ 10^9 := pow_le_pow_right₀ (by norm_num) (by omega)
      have hnext : 0 ≤ v*10+(c.toNat-48 : ℤ) ∧ v*10+(c.toNat-48 : ℤ) < 10^(j+1) := by
        rw [pow_succ]
        omega
      obtain ⟨u,rest,hu,hrest⟩ := ih (j+1) _ hnext (by omega)
      refine ⟨u,rest,?_,hrest.trans (List.suffix_cons c p)⟩
      rw [exponentLoop, if_pos hc, if_pos (by omega), hu]
    · exact ⟨v,c::p,by rw [exponentLoop, if_neg hc],List.suffix_refl _⟩

theorem exponentSign_split (p : List UInt8) :
    ∃ sign, (sign = [] ∨ sign = [43] ∨ sign = [45]) ∧ p = sign++(exponentSign p).2 := by
  cases p with
  | nil => exact ⟨[],.inl rfl,rfl⟩
  | cons c p =>
    rw [exponentSign]
    split_ifs with h43 h45
    · exact ⟨[43],by simp,by rw [h43]; rfl⟩
    · exact ⟨[45],by simp,by rw [h45]; rfl⟩
    · exact ⟨[],by simp,rfl⟩

theorem numberExponent_some {p : List UInt8} (h : Safe p) :
    ∃ u rest, numberExponent p = some (u,rest) ∧ rest <:+ p := by
  cases p with
  | nil => exact ⟨0,[],rfl,List.suffix_refl []⟩
  | cons c p =>
    by_cases hc : c = 101 ∨ c = 69
    · obtain ⟨sign,hsign,hp⟩ := exponentSign_split p
      have hlen := h.exponents c sign ((exponentSign p).2.takeWhile (fun c => IsDigit c))
        (by
          nth_rewrite 2 [hp]
          rw [← List.cons_append, ← List.cons_append]
          exact ((List.prefix_append_right_inj (c::sign)).2 (List.takeWhile_prefix _)).isInfix)
        hc hsign (fun d hd => by simpa using List.mem_takeWhile_imp hd)
      obtain ⟨u,rest,hu,hrest⟩ := exponentLoop_some 0 0 (exponentSign p).2 (by norm_num)
        (by omega)
      have htail : (exponentSign p).2 <:+ p := by
        nth_rewrite 2 [hp]
        exact List.suffix_append _ _
      refine ⟨u*(exponentSign p).1,rest,?_,(hrest.trans htail).trans (List.suffix_cons c p)⟩
      simp only [numberExponent, if_pos hc, hu, Option.map_some]
    · exact ⟨0,c::p,by rw [numberExponent, if_neg hc],List.suffix_refl _⟩

theorem numberFraction_suffix (n : Double) (p : List UInt8) :
    (numberFraction n p).2.2 <:+ p := by
  unfold numberFraction
  split
  · split_ifs
    · exact (digitsLoop_suffix _ _ _).trans (List.suffix_cons _ _)
    · exact List.suffix_refl _
  · exact List.suffix_refl _

theorem number_starts {c : UInt8} (p : List UInt8) (h : c = 45 ∨ IsDigit c) :
    (numberWhole (numberZero (numberSign (c::p)).2)).2 <:+ p := by
  have hwhole : ∀ q, (numberWhole q).2 <:+ q := fun q => by
    cases q with
    | nil => exact List.suffix_refl []
    | cons d q =>
      rw [numberWhole]
      split_ifs
      · exact digitsLoop_suffix _ _ _
      · exact List.suffix_refl _
  have hzero : ∀ q, numberZero q <:+ q := fun q => by
    cases q with
    | nil => exact List.suffix_refl []
    | cons d q =>
      rw [numberZero]
      split_ifs
      · exact List.suffix_cons d q
      · exact List.suffix_refl _
  by_cases h45 : c = 45
  · rw [numberSign, if_pos h45]
    exact (hwhole _).trans (hzero p)
  · have hc := h.resolve_left h45
    rw [numberSign, if_neg h45, numberZero]
    split_ifs with h48
    · exact hwhole p
    · rw [numberWhole, if_pos ⟨hc,h48⟩, digitsLoop, if_pos hc]
      exact digitsLoop_suffix _ _ _

theorem parseNumber_inside (P : Platform) {c : UInt8} {p : List UInt8} (hs : Safe (c::p))
    (h : c = 45 ∨ IsDigit c) : Inside (c::p) (parseNumber P (c::p)) := by
  have hstart := number_starts p h
  have hfraction := (numberFraction_suffix (numberWhole (numberZero (numberSign (c::p)).2)).1
    _).trans hstart
  obtain ⟨u,rest,hu,hrest⟩ := numberExponent_some (hs.tail.suffix hfraction)
  simp only [parseNumber, hu]
  exact inside_cons _ (hrest.trans hfraction)

end Numbers

section Values

variable (P : Platform)

theorem word_inside {word p : List UInt8} (item : Item) (h : word <+: p) (h0 : word ≠ []) :
    Inside p (.ok item (p.drop word.length)) := by
  refine ⟨List.drop_suffix _ _,?_⟩
  have hlen := h.length_le
  have hpos := List.length_pos_of_ne_nil h0
  rw [List.length_drop]
  omega

theorem followed_inside {close : UInt8} (child : Item) {more : List UInt8 → Parsed (List Item)}
    {p rest : List UInt8} (hrest : rest <:+ p) (hlen : rest.length < p.length)
    (hmore : ∀ q, q <:+ p → q.length+2 ≤ p.length → Inside q (more q)) :
    Inside p (followed close child more rest) := by
  have hskip := (skip_suffix rest).trans hrest
  have hskipLen := (skip_suffix rest).length_le
  rw [followed]
  cases h : skip rest with
  | nil => exact List.nil_suffix
  | cons c q =>
    rw [h] at hskip hskipLen
    rw [List.length_cons] at hskipLen
    have hq : q <:+ p := (List.suffix_cons c q).trans hskip
    simp only
    split_ifs
    · refine ((hmore q hq (by omega)).suffix hq).bind fun children u hu hul => ⟨hu,hul⟩
    · exact ⟨hq,by omega⟩
    · exact hskip

theorem opened_inside {close : UInt8} {children : List UInt8 → Parsed (List Item)}
    {p : List UInt8} (c : UInt8) (h : ∀ q, q <:+ p → Inside q (children q)) :
    Inside (c::p) (opened close children p) := by
  have hskip := (skip_suffix p)
  rw [opened]
  cases hq : skip p with
  | nil => exact (h [] List.nil_suffix).suffix List.nil_suffix
  | cons d q =>
    rw [hq] at hskip
    simp only
    split_ifs
    · exact inside_cons _ ((List.suffix_cons d q).trans hskip)
    · exact (h (d::q) hskip).suffix (hskip.trans (List.suffix_cons c p))

theorem named_inside {value : List UInt8 → Parsed Item} {p : List UInt8} (hs : Safe p)
    (h : ∀ q, q <:+ p → Inside q (value q)) : Inside p (named value p) := by
  have hskip := skip_suffix p
  refine ((parseString_inside (hs.suffix hskip)).suffix hskip).bind fun name rest hrest hlen => ?_
  have hafter := (skip_suffix rest).trans hrest
  cases hq : skip rest with
  | nil => exact List.nil_suffix
  | cons c q =>
    rw [hq] at hafter
    simp only
    split_ifs
    · have hvalue := (skip_suffix q).trans ((List.suffix_cons c q).trans hafter)
      exact ((h _ hvalue).suffix hvalue).bind fun child u hu hul => ⟨hu,hul⟩
    · exact hafter

mutual

theorem parseValue_inside : ∀ (k : ℕ) (p : List UInt8), Safe p → 2*p.length+1 ≤ k →
    Inside p (parseValue P k p)
  | 0, p, _, hk => by omega
  | k+1, p, hs, hk => by
    rw [parseValue.eq_def]
    simp only
    split_ifs with hnull hfalse htrue
    · exact word_inside _ hnull (by decide)
    · exact word_inside _ hfalse (by decide)
    · exact word_inside _ htrue (by decide)
    · cases p with
      | nil => exact List.suffix_refl []
      | cons c p =>
        rw [List.length_cons] at hk
        simp only
        split_ifs with hquote hnumber hopen hbrace
        · exact (parseString_inside hs).bind fun out rest hr hl => ⟨hr,hl⟩
        · exact parseNumber_inside P hs hnumber
        · refine (opened_inside c fun q hq => ?_).bind fun child rest hr hl => ⟨hr,hl⟩
          exact parseElements_inside k q (hs.tail.suffix hq) (by have := hq.length_le; omega)
        · refine (opened_inside c fun q hq => ?_).bind fun child rest hr hl => ⟨hr,hl⟩
          exact parseMembers_inside k q (hs.tail.suffix hq) (by have := hq.length_le; omega)
        · exact List.suffix_refl _

theorem parseElements_inside : ∀ (k : ℕ) (p : List UInt8), Safe p → 2*p.length+2 ≤ k →
    Inside p (parseElements P k p)
  | 0, p, _, hk => by omega
  | k+1, p, hs, hk => by
    have hskip := skip_suffix p
    rw [parseElements]
    refine ((parseValue_inside k (skip p) (hs.suffix hskip)
      (by have := hskip.length_le; omega)).suffix hskip).bind fun child rest hr hl => ?_
    exact followed_inside child hr hl fun q hq hlen =>
      parseElements_inside k q (hs.suffix hq) (by omega)

theorem parseMembers_inside : ∀ (k : ℕ) (p : List UInt8), Safe p → 2*p.length+2 ≤ k →
    Inside p (parseMembers P k p)
  | 0, p, _, hk => by omega
  | k+1, p, hs, hk => by
    rw [parseMembers]
    refine (named_inside hs fun q hq => parseValue_inside k q (hs.suffix hq)
      (by have := hq.length_le; omega)).bind fun child rest hr hl => ?_
    exact followed_inside child hr hl fun q hq hlen =>
      parseMembers_inside k q (hs.suffix hq) (by omega)

end

/-- A text that keeps the rules is parsed without a fault, or refused at a place inside of
it. -/
theorem safe_text_parsed (text : Text) (h : Safe text.bytes) :
    (∃ item rest, cjsonParse P text = .ok item rest ∧ rest <:+ text.bytes) ∨
      ∃ ep, cjsonParse P text = .null ep ∧ ep <:+ text.bytes := by
  have hskip := skip_suffix text.bytes
  have hinside := (parseValue_inside P (2*text.bytes.length+2) (skip text.bytes)
    (h.suffix hskip) (by have := hskip.length_le; omega)).suffix hskip
  rw [← cjsonParse] at hinside
  cases hr : cjsonParse P text with
  | fault =>
    rw [hr] at hinside
    exact absurd hinside id
  | null ep =>
    rw [hr] at hinside
    exact .inr ⟨ep,rfl,hinside⟩
  | ok item rest =>
    rw [hr] at hinside
    exact .inl ⟨item,rest,rfl,hinside.1⟩

/-- An array that is not closed, with the escape of an accented letter. -/
theorem open_array_parsed : ∃ text : Text, text.bytes = [91,34,92,117,48,48,101,57,34,120] ∧
    ((∃ item rest, cjsonParse samplePlatform text = .ok item rest ∧ rest <:+ text.bytes) ∨
      ∃ ep, cjsonParse samplePlatform text = .null ep ∧ ep <:+ text.bytes) := by
  have hzero : 0 ∉ [91,34,92,117,48,48,101,57,34,(120 : UInt8)] := by decide
  refine ⟨⟨_,hzero⟩,rfl,safe_text_parsed samplePlatform ⟨_,hzero⟩ ⟨?_,?_,?_,by simp⟩⟩
  · intro t ht
    simp only [List.suffix_cons_iff] at ht
    rintro rfl
    simp at ht
  · intro t ht
    have hshape : t = [48,48,101,57,34,120] := by simpa [List.suffix_cons_iff] using ht
    exact ⟨[48,48,101,57],[34,120],⟨rfl,by simp [HexDigits, hexValue]⟩,hshape⟩
  · intro e sign ds hinfix _ _ _
    have hlen := hinfix.length_le
    simp only [List.length_cons, List.length_append, List.length_nil] at hlen
    omega

end Values

end Duda.JsonSafety
