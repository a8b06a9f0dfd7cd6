import Duda.Json

/-!
# String literals

A literal is a sequence of pieces: characters, escapes, and escapes of code points. The
space that `parse_string` counts is enough for the pieces, and what it writes is the
text they stand for. An escape of a code point that is cut short by the quote takes the
loop past the quote, and the bytes behind it are written outside of the space.
-/

set_option autoImplicit false

namespace Duda.JsonString
open Duda.CString Duda.CType Duda.Json Duda.MachineInt

section Digits

def HexDigits (ds : List UInt8) : Prop := ∀ d ∈ ds, (hexValue d).isSome

theorem hexValue_range {d : UInt8} (h : (hexValue d).isSome) :
    d ≠ 34 ∧ d ≠ 92 ∧ d ≠ 43 ∧ d ≠ 45 ∧ d ≠ 88 ∧ d ≠ 120 ∧ isspace d = false := by
  have hn : (48 ≤ d.toNat ∧ d.toNat < 58) ∨ (97 ≤ d.toNat ∧ d.toNat < 103) ∨
      (65 ≤ d.toNat ∧ d.toNat < 71) := by
    unfold hexValue at h
    split_ifs at h <;> simp_all
  have hne : ∀ c : UInt8, d = c → d.toNat = c.toNat := fun c hc => by rw [hc]
  refine ⟨?_,?_,?_,?_,?_,?_,?_⟩
  · exact fun hc => absurd (hne 34 hc) (by simp; omega)
  · exact fun hc => absurd (hne 92 hc) (by simp; omega)
  · exact fun hc => absurd (hne 43 hc) (by simp; omega)
  · exact fun hc => absurd (hne 45 hc) (by simp; omega)
  · exact fun hc => absurd (hne 88 hc) (by simp; omega)
  · exact fun hc => absurd (hne 120 hc) (by simp; omega)
  · rw [isspace, decide_eq_false_iff_not]
    rintro (hc | hc)
    · exact absurd (hne 32 hc) (by simp; omega)
    · omega

theorem hexValue_lt {d : UInt8} {v : ℕ} (h : hexValue d = some v) : v < 16 := by
  unfold hexValue at h
  split_ifs at h <;> simp only [Option.some.injEq] at h <;> omega

theorem hexRun_append (v : ℕ) (ds t : List UInt8) (hd : HexDigits ds)
    (ht : ∀ c ∈ t.head?, hexValue c = none) : hexRun v (ds++t) = hexRun v ds := by
  induction ds generalizing v with
  | nil =>
    cases t with
    | nil => rfl
    | cons c t => simp [hexRun, ht c (by simp)]
  | cons d ds ih =>
    obtain ⟨x,hx⟩ := Option.isSome_iff_exists.1 (hd d (by simp))
    rw [List.cons_append, hexRun, hexRun, hx]
    exact ih _ fun e he => hd e (List.mem_cons_of_mem d he)

theorem hexRun_lt (v : ℕ) (ds : List UInt8) (hd : HexDigits ds) :
    hexRun v ds < (v+1)*16^ds.length := by
  induction ds generalizing v with
  | nil => simp [hexRun]
  | cons d ds ih =>
    obtain ⟨x,hx⟩ := Option.isSome_iff_exists.1 (hd d (by simp))
    have hlt := hexValue_lt hx
    rw [hexRun, hx, List.length_cons, pow_succ]
    calc hexRun (v*16+x) ds < (v*16+x+1)*16^ds.length :=
          ih _ fun e he => hd e (List.mem_cons_of_mem d he)
      _ ≤ ((v+1)*16)*16^ds.length := Nat.mul_le_mul_right _ (by omega)
      _ = (v+1)*(16^ds.length*16) := by ring

theorem hexField_digits (d : UInt8) (field : List UInt8) (hd : (hexValue d).isSome)
    (hx : field.head? ≠ some 120 ∧ field.head? ≠ some 88) :
    hexField (d::field) = some (hexRun 0 (d::field)) := by
  have hplain : ¬((d::field).head? = some 48 ∧
      ((d::field).tail.head? = some 120 ∨ (d::field).tail.head? = some 88)) := by
    rw [List.tail_cons]
    tauto
  unfold hexField
  rw [if_neg hplain, if_pos (by simpa using hd)]

theorem scanHex_digits (ds t : List UInt8) (hd : HexDigits ds) (h0 : ds ≠ [])
    (h4 : ds.length ≤ 4) (ht : ds.length = 4 ∨ ∃ u, t = 34::u) :
    scanHex (ds++t) = some (hexRun 0 ds) := by
  obtain ⟨d,es,rfl⟩ := List.exists_cons_of_ne_nil h0
  have hr := hexValue_range (hd d (by simp))
  have hspace : (d::es++t).dropWhile isspace = d::es++t := by simp [hr.2.2.2.2.2.2]
  have htake : (d::es++t).take 4 = d::es++t.take (4-(es.length+1)) := by
    rw [List.take_append, List.take_of_length_le h4, List.length_cons]
  have hnext : ∀ c ∈ (t.take (4-(es.length+1))).head?, c = 34 := by
    rcases ht with h | ⟨u,rfl⟩
    · rw [List.length_cons] at h
      simp [h]
    · intro c hc
      cases hn : 4-(es.length+1) with
      | zero => simp [hn] at hc
      | succ n => simpa [hn] using hc.symm
  generalize t.take (4-(es.length+1)) = u at htake hnext
  have hrun : hexRun 0 (d::es++u) = hexRun 0 (d::es) :=
    hexRun_append 0 _ _ hd fun c hc => by rw [hnext c hc]; rfl
  have hx : (es++u).head? ≠ some 120 ∧ (es++u).head? ≠ some 88 := by
    cases es with
    | nil =>
      constructor <;> intro hh <;> have := hnext _ hh <;> revert this <;> decide
    | cons e es =>
      have he := hexValue_range (hd e (by simp))
      simp [he.2.2.2.2.1, he.2.2.2.2.2.1]
  rw [scanHex, hspace, htake, List.cons_append]
  simp only [hr.2.2.1, hr.2.2.2.1, if_false]
  rw [hexField_digits d (es++u) (hd d (by simp)) hx, ← List.cons_append, hrun]

end Digits

section Pieces

/-- The pieces of a literal. The digits of a code point stand for a number of 16 bits. -/
inductive Piece where
  | plain (c : UInt8)
  | escape (c : UInt8)
  | unicode (ds : List UInt8)
  | pair (hs ls : List UInt8)

namespace Piece

def Four (ds : List UInt8) : Prop := ds.length = 4 ∧ HexDigits ds

def Valid : Piece → Prop
  | .plain c => c ≠ 34 ∧ c ≠ 92 ∧ c ≠ 0
  | .escape c => c ≠ 117 ∧ c ≠ 0
  | .unicode ds => Four ds ∧ ¬(0xD800 ≤ hexRun 0 ds ∧ hexRun 0 ds ≤ 0xDBFF)
  | .pair hs ls => Four hs ∧ Four ls ∧ (0xD800 ≤ hexRun 0 hs ∧ hexRun 0 hs ≤ 0xDBFF) ∧
      0xDC00 ≤ hexRun 0 ls ∧ hexRun 0 ls ≤ 0xDFFF

def text : Piece → List UInt8
  | .plain c => [c]
  | .escape c => [92,c]
  | .unicode ds => 92::117::ds
  | .pair hs ls => (92::117::hs)++(92::117::ls)

/-- The code point that the code makes of a pair. -/
def combined (uc uc2 : ℕ) : ℕ := 0x10000 ||| ((uc &&& 0x3FF) <<< 10) ||| (uc2 &&& 0x3FF)

def decoded : Piece → List UInt8
  | .plain c => [c]
  | .escape c => [plainEscape c]
  | .unicode ds =>
    if (0xDC00 ≤ hexRun 0 ds ∧ hexRun 0 ds ≤ 0xDFFF) ∨ hexRun 0 ds = 0 then []
    else encoded (hexRun 0 ds)
  | .pair hs ls => encoded (combined (hexRun 0 hs) (hexRun 0 ls))

def counted : Piece → ℕ
  | .plain _ => 1
  | .escape _ => 1
  | .unicode _ => 5
  | .pair _ _ => 10

end Piece

open Piece

def textOf (ps : List Piece) : List UInt8 := ps.flatMap Piece.text

def decodedOf (ps : List Piece) : List UInt8 := ps.flatMap Piece.decoded

def countOf (ps : List Piece) : ℕ := (ps.map Piece.counted).sum

theorem countLoop_plain {c : UInt8} (t : List UInt8) (h : c ≠ 34 ∧ c ≠ 92) :
    countLoop (c::t) = (countLoop t).map (1+·) := by
  rw [countLoop.eq_def]
  simp [h.1, h.2, Nat.add_comm]

theorem countLoop_escape (c : UInt8) (t : List UInt8) :
    countLoop (92::c::t) = (countLoop t).map (1+·) := by
  simp [countLoop, Nat.add_comm]

theorem countLoop_digits (ds t : List UInt8) (hd : HexDigits ds) :
    countLoop (ds++t) = (countLoop t).map (ds.length+·) := by
  induction ds with
  | nil => simp
  | cons d ds ih =>
    have hr := hexValue_range (hd d (by simp))
    rw [List.cons_append, countLoop_plain _ ⟨hr.1,hr.2.1⟩,
      ih fun e he => hd e (List.mem_cons_of_mem d he), Option.map_map]
    congr 1
    funext n
    simp only [Function.comp, List.length_cons]
    omega

theorem countLoop_unicode (ds t : List UInt8) (hd : HexDigits ds) :
    countLoop (92::117::(ds++t)) = (countLoop t).map (1+ds.length+·) := by
  rw [countLoop_escape, countLoop_digits ds t hd, Option.map_map]
  congr 1
  funext n
  simp only [Function.comp, Nat.add_assoc]

theorem countLoop_piece (p : Piece) (t : List UInt8) (h : p.Valid) :
    countLoop (p.text++t) = (countLoop t).map (p.counted+·) := by
  cases p with
  | plain c => exact countLoop_plain t ⟨h.1,h.2.1⟩
  | escape c => exact countLoop_escape c t
  | unicode ds =>
    have hc := countLoop_unicode ds t h.1.2
    rw [h.1.1] at hc
    exact hc
  | pair hs ls =>
    have hh := countLoop_unicode hs (92::117::(ls++t)) h.1.2
    have hl := countLoop_unicode ls t h.2.1.2
    rw [h.1.1, hl, h.2.1.1, Option.map_map] at hh
    rw [Piece.text, List.append_assoc, List.cons_append, List.cons_append, List.cons_append,
      List.cons_append, hh]
    congr 1
    funext n
    simp only [Function.comp, Piece.counted]
    omega

variable {size : ℕ} (ps : List Piece)

theorem countLoop_pieces (t : List UInt8) (h : ∀ p ∈ ps, p.Valid) :
    countLoop (textOf ps++t) = (countLoop t).map (countOf ps+·) := by
  induction ps with
  | nil => simp [textOf, countOf]
  | cons p ps ih =>
    rw [List.forall_mem_cons] at h
    rw [textOf, List.flatMap_cons, List.append_assoc, countLoop_piece p _ h.1, ← textOf, ih h.2,
      Option.map_map]
    congr 1
    funext n
    simp only [Function.comp, countOf, List.map_cons, List.sum_cons, Nat.add_assoc]

theorem put_fits {out bytes : List UInt8} (h : (out++bytes).length ≤ size) :
    put size out bytes = some (out++bytes) := if_pos h

theorem put_overflows {out bytes : List UInt8} (h : size < (out++bytes).length) :
    put size out bytes = none := if_neg (by omega)

theorem advance_append {n : ℕ} (ds t : List UInt8) (h : ds.length = n) :
    advance n (ds++t) = some t := by
  rw [advance, if_pos (by rw [List.length_append]; omega), ← h, List.drop_left]

theorem scanHex_four {ds : List UInt8} (t : List UInt8) (h : Four ds) :
    scanHex (ds++t) = some (hexRun 0 ds) :=
  scanHex_digits ds t h.2 (fun he => by simp [he, Four] at h) h.1.le (.inl h.1)

theorem transcode_fits {uc : ℕ} (st : Decoding) (h : (st.out++encoded uc).length ≤ size) :
    ∃ next, transcode size st uc = some next ∧ next.out = st.out++encoded uc := by
  rw [transcode, put_fits h]
  exact ⟨_,rfl,rfl⟩

theorem unicode_read (st : Decoding) (ds t : List UInt8) (hv : (unicode ds).Valid)
    (hs : (st.out++(unicode ds).decoded).length ≤ size) :
    ∃ next, Json.unicode size st (ds++t) = some (next,t) ∧
      next.out = st.out++(unicode ds).decoded := by
  have hscan := scanHex_four t hv.1
  have hadv := advance_append ds t hv.1.1
  rw [Json.unicode, hscan, Option.some_or]
  rw [Piece.decoded] at hs ⊢
  by_cases hlow : (0xDC00 ≤ hexRun 0 ds ∧ hexRun 0 ds ≤ 0xDFFF) ∨ hexRun 0 ds = 0
  · refine ⟨{ st with uc := some (hexRun 0 ds) },?_,?_⟩
    · simp [hlow, hadv]
    · simp [hlow]
  · rw [if_neg hlow] at hs ⊢
    obtain ⟨next,hnext,hout⟩ := transcode_fits st hs
    refine ⟨next,?_,hout⟩
    simp only [Option.bind_eq_bind, Option.bind_some, if_neg hlow, if_neg hv.2, hnext, hadv]

theorem pair_read (st : Decoding) (hs ls t : List UInt8) (hv : (pair hs ls).Valid)
    (hl : (st.out++(pair hs ls).decoded).length ≤ size) :
    ∃ next, Json.unicode size st (hs++92::117::(ls++t)) = some (next,t) ∧
      next.out = st.out++(pair hs ls).decoded := by
  obtain ⟨hh,hlo,hhigh,hlow⟩ := hv
  have hscan := scanHex_four (92::117::(ls++t)) hh
  have hadv := advance_append hs (92::117::(ls++t)) hh.1
  have hscan2 := scanHex_four t hlo
  have hadv2 : advance 6 (92::117::(ls++t)) = some t :=
    advance_append (92::117::ls) t (by simp [hlo.1])
  have hnot : ¬((0xDC00 ≤ hexRun 0 hs ∧ hexRun 0 hs ≤ 0xDFFF) ∨ hexRun 0 hs = 0) := by omega
  have hin : ¬(hexRun 0 ls < 0xDC00 ∨ 0xDFFF < hexRun 0 ls) := by omega
  obtain ⟨next,hnext,hout⟩ := transcode_fits { st with uc2 := some (hexRun 0 ls) } hl
  refine ⟨next,?_,hout⟩
  rw [Json.unicode, hscan, Option.some_or]
  simp only [Option.bind_eq_bind, Option.bind_some, if_neg hnot, if_pos hhigh, surrogate, hadv,
    List.head?_cons, List.tail_cons, and_self, if_true, List.drop_succ_cons, List.drop_zero,
    hscan2, Option.some_or, hadv2, if_neg hin]
  rw [Piece.combined] at hnext
  rw [hnext]
  rfl

theorem decode_piece (k : ℕ) (st : Decoding) (p : Piece) (t : List UInt8) (hv : p.Valid)
    (hs : (st.out++p.decoded).length ≤ size) :
    ∃ next, decodeLoop size (k+1) st (p.text++t) = decodeLoop size k next t ∧
      next.out = st.out++p.decoded := by
  cases p with
  | plain c =>
    refine ⟨{ st with out := st.out++[c] },?_,rfl⟩
    have hput : put size st.out [c] = some (st.out++[c]) := put_fits hs
    rw [Piece.text, List.singleton_append, decodeLoop, if_neg hv.1, if_pos hv.2.1, hput]
    rfl
  | escape c =>
    refine ⟨{ st with out := st.out++[plainEscape c] },?_,rfl⟩
    have hput : put size st.out [plainEscape c] = some (st.out++[plainEscape c]) := put_fits hs
    rw [Piece.text, List.cons_append, List.singleton_append, decodeLoop, if_neg (by decide),
      if_neg (by simp), unescape, if_neg hv.1, hput]
    rfl
  | unicode ds =>
    obtain ⟨next,hnext,hout⟩ := unicode_read st ds t hv hs
    refine ⟨next,?_,hout⟩
    rw [Piece.text, List.cons_append, List.cons_append, decodeLoop, if_neg (by decide),
      if_neg (by simp), unescape, if_pos rfl, hnext]
    rfl
  | pair hs' ls =>
    obtain ⟨next,hnext,hout⟩ := pair_read st hs' ls t hv hs
    refine ⟨next,?_,hout⟩
    rw [Piece.text, List.append_assoc, List.cons_append, List.cons_append, List.cons_append,
      List.cons_append, decodeLoop, if_neg (by decide), if_neg (by simp), unescape, if_pos rfl,
      hnext]
    rfl

theorem decode_pieces (size k : ℕ) (st : Decoding) (ps : List Piece) (t : List UInt8)
    (hv : ∀ p ∈ ps, p.Valid) (hs : (st.out++decodedOf ps).length ≤ size) :
    ∃ next, decodeLoop size (ps.length+k) st (textOf ps++t) = decodeLoop size k next t ∧
      next.out = st.out++decodedOf ps := by
  induction ps generalizing st with
  | nil => exact ⟨st,by simp [textOf],by simp [decodedOf]⟩
  | cons p ps ih =>
    rw [List.forall_mem_cons] at hv
    rw [decodedOf, List.flatMap_cons, ← List.append_assoc, ← decodedOf] at hs ⊢
    have hfirst : (st.out++p.decoded).length ≤ size := by
      rw [List.length_append] at hs
      omega
    obtain ⟨mid,hmid,hout⟩ := decode_piece (ps.length+k) st p (textOf ps++t) hv.1 hfirst
    rw [← hout] at hs ⊢
    obtain ⟨next,hnext,hend⟩ := ih mid hv.2 hs
    refine ⟨next,?_,hend⟩
    rw [← hnext, ← hmid, textOf, List.flatMap_cons, ← textOf, List.append_assoc, List.length_cons,
      Nat.add_right_comm]

theorem trailing_length (n uc : ℕ) : (trailing n uc).length = n := by
  induction n generalizing uc with
  | zero => rfl
  | succ n ih => simp [trailing, ih]

theorem encodedLen_range (uc : ℕ) : 1 ≤ encodedLen uc ∧ encodedLen uc ≤ 4 := by
  unfold encodedLen
  split_ifs <;> omega

theorem encoded_length (uc : ℕ) : (encoded uc).length = encodedLen uc := by
  have h := encodedLen_range uc
  rw [encoded, List.length_cons, trailing_length]
  omega

theorem decoded_length (p : Piece) : p.decoded.length ≤ p.counted := by
  cases p with
  | plain c => exact le_refl 1
  | escape c => exact le_refl 1
  | unicode ds =>
    have h := (encodedLen_range (hexRun 0 ds)).2
    rw [Piece.decoded, Piece.counted]
    split_ifs
    · simp
    · rw [encoded_length]
      omega
  | pair hs ls =>
    have h := (encodedLen_range (combined (hexRun 0 hs) (hexRun 0 ls))).2
    rw [Piece.decoded, Piece.counted, encoded_length]
    omega

theorem decodedOf_length : (decodedOf ps).length ≤ countOf ps := by
  induction ps with
  | nil => exact le_refl 0
  | cons p ps ih =>
    have h := decoded_length p
    rw [decodedOf, List.flatMap_cons, List.length_append, ← decodedOf, countOf, List.map_cons,
      List.sum_cons, ← countOf]
    omega

theorem textOf_length : ps.length ≤ (textOf ps).length := by
  induction ps with
  | nil => exact le_refl 0
  | cons p ps ih =>
    have h : 1 ≤ p.text.length := by cases p <;> simp [Piece.text]
    rw [textOf, List.flatMap_cons, List.length_append, ← textOf, List.length_cons]
    omega

theorem countOf_length {ps : List Piece} (h : ∀ p ∈ ps, p.Valid) :
    countOf ps ≤ (textOf ps).length := by
  induction ps with
  | nil => exact le_refl 0
  | cons p ps ih =>
    rw [List.forall_mem_cons] at h
    have hp : p.counted ≤ p.text.length := by
      cases p with
      | plain c => exact le_refl 1
      | escape c => exact Nat.le_succ 1
      | unicode ds => simp [Piece.counted, Piece.text, h.1.1.1]
      | pair hs ls => simp [Piece.counted, Piece.text, h.1.1.1, h.1.2.1.1]
    have hps := ih h.2
    rw [textOf, List.flatMap_cons, List.length_append, ← textOf, countOf, List.map_cons,
      List.sum_cons, ← countOf]
    omega

theorem high_bit_ne_zero {n : ℕ} (h : n.testBit 7 = true) : UInt8.ofNat n ≠ 0 := by
  intro h0
  have hmod : n%2^8 = 0 := by
    have := congrArg UInt8.toNat h0
    simpa using this
  have hbit := Nat.testBit_mod_two_pow n 8 7
  rw [hmod, h] at hbit
  simp at hbit

theorem trailing_ne_zero (n uc : ℕ) : 0 ∉ trailing n uc := by
  induction n generalizing uc with
  | zero => simp [trailing]
  | succ n ih =>
    rw [trailing, List.mem_append, List.mem_singleton, not_or]
    refine ⟨ih _,fun h => high_bit_ne_zero ?_ h.symm⟩
    rw [Nat.testBit_and, Nat.testBit_or, show Nat.testBit 0x80 7 = true by decide,
      show Nat.testBit 0xBF 7 = true by decide, Bool.or_true, Bool.and_true]

theorem encoded_ne_zero {uc : ℕ} (h : uc ≠ 0) : 0 ∉ encoded uc := by
  rw [encoded, List.mem_cons, not_or]
  refine ⟨fun h0 => ?_,trailing_ne_zero _ _⟩
  by_cases hone : uc < 0x80
  · have hmark : UInt8.ofNat uc = 0 := by
      simpa [encodedLen, hone, firstByteMark] using h0.symm
    have := congrArg UInt8.toNat hmark
    simp at this
    omega
  · have hmark : (firstByteMark (encodedLen uc)).testBit 7 = true := by
      unfold encodedLen
      rw [if_neg hone]
      split_ifs <;> decide
    refine high_bit_ne_zero ?_ h0.symm
    rw [Nat.testBit_or, hmark, Bool.or_true]

theorem combined_ne_zero (uc uc2 : ℕ) : combined uc uc2 ≠ 0 := by
  intro h
  have hbit : (combined uc uc2).testBit 16 = true := by
    rw [combined, Nat.testBit_or, Nat.testBit_or, show Nat.testBit 0x10000 16 = true by decide,
      Bool.true_or, Bool.true_or]
  rw [h] at hbit
  simp at hbit

theorem decoded_ne_zero {p : Piece} (h : p.Valid) : 0 ∉ p.decoded := by
  cases p with
  | plain c => simpa [Piece.decoded] using h.2.2.symm
  | escape c =>
    have hc : plainEscape c ≠ 0 := by
      unfold plainEscape
      split_ifs
      all_goals first | decide | exact h.2
    simpa [Piece.decoded] using hc.symm
  | unicode ds =>
    rw [Piece.decoded]
    split_ifs with hlow
    · simp
    · exact encoded_ne_zero fun h0 => hlow (.inr h0)
  | pair hs ls => exact encoded_ne_zero (combined_ne_zero _ _)

theorem decodedOf_ne_zero {ps : List Piece} (h : ∀ p ∈ ps, p.Valid) : 0 ∉ decodedOf ps := by
  intro hm
  obtain ⟨p,hp,h0⟩ := List.mem_flatMap.1 hm
  exact decoded_ne_zero (h p hp) h0

theorem terminated_bytes {out : List UInt8} (h : 0 ∉ out) : (terminated out).bytes = out := by
  rw [terminated]
  simp only [List.takeWhile_eq_self_iff, decide_eq_true_eq]
  exact fun c hc h0 => h (h0 ▸ hc)

/-- What may follow the pieces: the quote, or the end of the text. -/
def Ends (tail rest : List UInt8) : Prop := tail = 34::rest ∨ (tail = [] ∧ rest = [])

theorem countLoop_ends {tail rest : List UInt8} (h : Ends tail rest) : countLoop tail = some 0 := by
  rcases h with rfl | ⟨rfl,_⟩
  · rw [countLoop.eq_def]
    simp
  · rfl

theorem decodeLoop_ends {tail rest : List UInt8} (k : ℕ) (st : Decoding) (h : Ends tail rest)
    (hs : st.out.length < size) : decodeLoop size (k+1) st tail = some (st.out,rest) := by
  have hput : put size st.out [0] = some (st.out++[0]) :=
    put_fits (by rw [List.length_append]; exact hs)
  rcases h with rfl | ⟨rfl,rfl⟩
  · rw [decodeLoop, if_pos rfl, hput]
    rfl
  · rw [decodeLoop, hput]
    rfl

theorem parseString_run (hv : ∀ p ∈ ps, p.Valid) {tail : List UInt8} {len : ℕ}
    (hcount : countLoop tail = some len) (hl : countOf ps+len+1 < 2^31) :
    ∃ k next, tail.length ≤ k ∧ next.out = decodedOf ps ∧
      parseString (34::(textOf ps++tail)) =
        finished (decodeLoop (countOf ps+len+1) (k+1) next tail) := by
  have hlen := decodedOf_length ps
  have htext := textOf_length ps
  have hfuel : (textOf ps++tail).length+1 = ps.length+((textOf ps++tail).length-ps.length+1) := by
    rw [List.length_append]
    omega
  obtain ⟨next,hnext,hout⟩ := decode_pieces (countOf ps+len+1)
    ((textOf ps++tail).length-ps.length+1) ⟨[],none,none⟩ ps tail hv
    (by rw [List.nil_append]; omega)
  refine ⟨(textOf ps++tail).length-ps.length,next,?_,hout,?_⟩
  · rw [List.length_append]
    omega
  · rw [parseString, if_pos rfl, countLoop_pieces ps tail hv, hcount, Option.map_some]
    simp only
    rw [if_pos hl, hfuel, hnext]

/-- The pieces of a literal are decoded inside of the space that is counted for them. -/
theorem parseString_pieces (hv : ∀ p ∈ ps, p.Valid) {tail rest : List UInt8} (h : Ends tail rest)
    (hl : (textOf ps).length+1 < 2^31) :
    ∃ out : Text, parseString (34::(textOf ps++tail)) = .ok out rest ∧
      out.bytes = decodedOf ps := by
  refine ⟨terminated (decodedOf ps),?_,terminated_bytes (decodedOf_ne_zero hv)⟩
  have hlen := decodedOf_length ps
  have hsmall := countOf_length hv
  obtain ⟨k,next,_,hout,hrun⟩ := parseString_run ps hv (countLoop_ends h) (by omega)
  rw [hrun, decodeLoop_ends k next h (by rw [hout]; omega), hout, finished]

end Pieces

section Meaning

open Piece

theorem tail_byte (v : ℕ) : (UInt8.ofNat v ||| 128) &&& 191 = UInt8.ofNat (v%64)+128 := by
  have hall : ∀ r < 256, (r ||| 128) &&& 191 = r%64+128 := by decide +kernel
  have hr := hall (v%256) (Nat.mod_lt v (by omega))
  apply UInt8.toNat_inj.1
  rw [UInt8.toNat_and, UInt8.toNat_or, UInt8.toNat_add, UInt8.toNat_ofNat', UInt8.toNat_ofNat']
  simp only [UInt8.reduceToNat, Nat.reducePow, hr]
  omega

theorem mark_two : ∀ r < 32, r ||| 0xC0 = r%32+192 := by decide

theorem mark_three : ∀ r < 16, r ||| 0xE0 = r%16+224 := by decide

theorem mark_four : ∀ r < 8, r ||| 0xF0 = r%8+240 := by decide

/-- The bytes that are written for a character are those of UTF-8. -/
theorem encoded_utf8 (c : Char) : encoded c.val.toNat = String.utf8EncodeChar c := by
  have hmax : c.val.toNat < 1114112 := by
    have := c.valid
    simp only [UInt32.isValidChar, Nat.isValidChar] at this
    omega
  rw [String.utf8EncodeChar]
  generalize c.val.toNat = v at hmax ⊢
  simp only [encoded, encodedLen, firstByteMark]
  by_cases h1 : v < 0x80
  · simp [h1, Nat.le_of_lt_succ h1, trailing]
  by_cases h2 : v < 0x800
  · have hm := mark_two (v/64) (by omega)
    simp [h1, h2, show ¬v ≤ 127 by omega, show v ≤ 2047 by omega, trailing, tail_byte,
      Nat.shiftRight_eq_div_pow, hm]
  by_cases h3 : v < 0x10000
  · have hm := mark_three (v/4096) (by omega)
    simp [h1, h2, h3, show ¬v ≤ 127 by omega, show ¬v ≤ 2047 by omega, show v ≤ 65535 by omega,
      trailing, tail_byte, Nat.shiftRight_eq_div_pow, hm]
  · have hm := mark_four (v/262144) (by omega)
    simp [h1, h2, h3, show ¬v ≤ 127 by omega, show ¬v ≤ 2047 by omega,
      show ¬v ≤ 65535 by omega, trailing, tail_byte, Nat.shiftRight_eq_div_pow, hm,
      Nat.div_div_eq_div_mul]

def controls : List (UInt8 × UInt8) := [(98,8),(102,12),(110,10),(114,13),(116,9)]

/-- What the pieces stand for in JSON: characters in UTF-8. -/
inductive Means : Piece → List UInt8 → Prop where
  | plain (c : UInt8) (h : 32 ≤ c.toNat ∧ c ≠ 34 ∧ c ≠ 92) : Means (.plain c) [c]
  | itself (c : UInt8) (h : c = 34 ∨ c = 92 ∨ c = 47) : Means (.escape c) [c]
  | control (c v : UInt8) (h : (c,v) ∈ controls) : Means (.escape c) [v]
  | unicode (ds : List UInt8) (ch : Char) (hd : Four ds) (hv : hexRun 0 ds = ch.val.toNat)
      (h0 : ch.val.toNat ≠ 0) : Means (.unicode ds) (String.utf8EncodeChar ch)
  | pair (hs ls : List UInt8) (ch : Char) (hh : Four hs) (hl : Four ls)
      (h : 0x10000 ≤ ch.val.toNat)
      (high : hexRun 0 hs = 0xD800+(ch.val.toNat-0x10000)/0x400)
      (low : hexRun 0 ls = 0xDC00+(ch.val.toNat-0x10000)%0x400) :
      Means (.pair hs ls) (String.utf8EncodeChar ch)

/-- No bit is lost when a pair is put together: the plane of the character is odd. -/
def Kept : Piece → Prop
  | .pair hs _ => (hexRun 0 hs-0xD800)/64%2 = 0
  | _ => True

theorem valid_char (ch : Char) : ch.val.toNat < 0xD800 ∨
    (0xDFFF < ch.val.toNat ∧ ch.val.toNat < 0x110000) := by
  have h := ch.valid
  simpa [UInt32.isValidChar, Nat.isValidChar] using h

/-- The parts of a pair, put together without a carry. -/
theorem combined_or {w : ℕ} (h : w < 2^20) :
    combined (0xD800+w/0x400) (0xDC00+w%0x400) = 0x10000 ||| w := by
  have hhigh : (0xD800+w/0x400) &&& 0x3FF = w/0x400 := by
    rw [show (0x3FF : ℕ) = 2^10-1 by norm_num, Nat.and_two_pow_sub_one_eq_mod]
    omega
  have hlow : (0xDC00+w%0x400) &&& 0x3FF = w%0x400 := by
    rw [show (0x3FF : ℕ) = 2^10-1 by norm_num, Nat.and_two_pow_sub_one_eq_mod]
    omega
  have hsum : ((w/0x400) <<< 10) ||| (w%0x400) = w := by
    have hor := Nat.shiftLeft_add_eq_or_of_lt (Nat.mod_lt w (show 0 < 2^10 by norm_num)) (w/0x400)
    rw [Nat.shiftLeft_eq] at hor ⊢
    norm_num at hor ⊢
    omega
  rw [combined, hhigh, hlow, Nat.or_assoc, hsum]

theorem or_plane (w : ℕ) : 0x10000 ||| w = (2*(w/0x20000)+1)*0x10000+w%0x10000 := by
  have hdiv : (0x10000 ||| w)/2^16/2^1 = w/2^16/2^1 := by
    rw [Nat.or_div_two_pow, Nat.or_div_two_pow]
    simp
  have hbit : (0x10000 ||| w)/2^16%2^1 = 1 := by
    rw [Nat.or_div_two_pow, Nat.or_mod_two_pow]
    rcases Nat.mod_two_eq_zero_or_one (w/2^16) with h | h <;> rw [pow_one, h] <;> rfl
  have hlow : (0x10000 ||| w)%2^16 = w%2^16 := by
    rw [Nat.or_mod_two_pow]
    simp
  omega

theorem encoded_four {v : ℕ} (h : 0x10000 ≤ v) : encoded v =
    [UInt8.ofNat (v/262144 ||| 0xF0),UInt8.ofNat (v/4096%64)+128,UInt8.ofNat (v/64%64)+128,
      UInt8.ofNat (v%64)+128] := by
  simp [encoded, encodedLen, firstByteMark, show ¬v < 0x80 by omega, show ¬v < 0x800 by omega,
    show ¬v < 0x10000 by omega, trailing, tail_byte, Nat.shiftRight_eq_div_pow,
    Nat.div_div_eq_div_mul]

theorem encoded_plane {v w : ℕ} (hv : 0x10000 ≤ v) (hw : 0x10000 ≤ w) (h : v = w+0x10000) :
    encoded w ≠ encoded v := by
  rw [encoded_four hv, encoded_four hw]
  intro he
  simp only [List.cons.injEq] at he
  have hbyte := congrArg UInt8.toNat he.2.1
  rw [UInt8.toNat_add, UInt8.toNat_add, UInt8.toNat_ofNat', UInt8.toNat_ofNat'] at hbyte
  simp only [UInt8.reduceToNat] at hbyte
  omega

theorem pair_decoded {hs ls : List UInt8} {v : ℕ} (h : 0x10000 ≤ v) (hmax : v < 0x110000)
    (high : hexRun 0 hs = 0xD800+(v-0x10000)/0x400)
    (low : hexRun 0 ls = 0xDC00+(v-0x10000)%0x400) :
    (Piece.pair hs ls).decoded.length = (encoded v).length ∧
      ((Piece.pair hs ls).decoded = encoded v ↔ Kept (.pair hs ls)) := by
  have hor := or_plane (v-0x10000)
  have hdec : (Piece.pair hs ls).decoded = encoded (0x10000 ||| (v-0x10000)) := by
    rw [Piece.decoded, high, low, combined_or (by omega)]
  have hlarge : 0x10000 ≤ 0x10000 ||| (v-0x10000) := by omega
  rw [hdec, Kept, high]
  constructor
  · rw [encoded_four h, encoded_four hlarge]
    simp only [List.length_cons]
  · constructor
    · intro he
      by_contra hbit
      exact encoded_plane h hlarge (by omega) he
    · intro hbit
      have hsame : 0x10000 ||| (v-0x10000) = v := by omega
      rw [hsame]

theorem means_decoded {p : Piece} {m : List UInt8} (h : Means p m) :
    p.Valid ∧ p.decoded.length = m.length ∧ (p.decoded = m ↔ Kept p) := by
  cases h with
  | plain c h =>
    refine ⟨⟨h.2.1,h.2.2,fun h0 => by simp [h0] at h⟩,rfl,by simp [Piece.decoded, Kept]⟩
  | itself c h =>
    have hc : plainEscape c = c ∧ c ≠ 117 ∧ c ≠ 0 := by rcases h with rfl | rfl | rfl <;> decide
    exact ⟨hc.2,rfl,by simp [Piece.decoded, Kept, hc.1]⟩
  | control c v h =>
    have hall : ∀ x ∈ controls, plainEscape x.1 = x.2 ∧ x.1 ≠ 117 ∧ x.1 ≠ 0 := by
      simp [controls, plainEscape]
    have hc := hall (c,v) h
    exact ⟨hc.2,rfl,by simp [Piece.decoded, Kept, hc.1]⟩
  | unicode ds ch hd hv h0 =>
    have hr := valid_char ch
    have hdec : (Piece.unicode ds).decoded = String.utf8EncodeChar ch := by
      rw [Piece.decoded, if_neg (by omega), hv, encoded_utf8]
    exact ⟨⟨hd,by omega⟩,by rw [hdec],by simp [hdec, Kept]⟩
  | pair hs ls ch hh hl h high low =>
    have hr := valid_char ch
    have hp := pair_decoded h (by omega) high low
    rw [encoded_utf8] at hp
    exact ⟨⟨hh,hl,by omega,by omega⟩,hp⟩

theorem means_valid {ps : List Piece} {ms : List (List UInt8)} (h : List.Forall₂ Means ps ms) :
    ∀ p ∈ ps, p.Valid := by
  induction h with
  | nil => simp
  | cons hp _ ih => exact List.forall_mem_cons.2 ⟨(means_decoded hp).1,ih⟩

theorem decodedOf_means {ps : List Piece} {ms : List (List UInt8)} (h : List.Forall₂ Means ps ms) :
    decodedOf ps = ms.flatten ↔ ∀ p ∈ ps, Kept p := by
  induction h with
  | nil => simp [decodedOf]
  | cons hp _ ih =>
    obtain ⟨_,hlen,hkept⟩ := means_decoded hp
    rw [decodedOf, List.flatMap_cons, List.flatten_cons, List.forall_mem_cons, ← hkept, ← ih]
    constructor
    · exact fun he => List.append_inj he hlen
    · exact fun he => by rw [he.1, ← he.2, decodedOf]

/-- A literal of JSON is read as the text it stands for, whether its quote is there or
not, exactly when every pair of surrogates is of an odd plane. -/
theorem literal_meaning (ps : List Piece) (ms : List (List UInt8))
    (h : List.Forall₂ Means ps ms) (hl : (textOf ps).length+1 < 2^31) {tail rest : List UInt8}
    (he : Ends tail rest) :
    ∃ out : Text, parseString (34::(textOf ps++tail)) = .ok out rest ∧
      (out.bytes = ms.flatten ↔ ∀ p ∈ ps, Kept p) := by
  obtain ⟨out,hout,hbytes⟩ := parseString_pieces ps (means_valid h) he hl
  exact ⟨out,hout,by rw [hbytes, decodedOf_means h]⟩

/-- A letter, a line feed, and a clef, which is in plane 1. -/
theorem clef_meaning : ∃ out : Text, parseString (34::(textOf [.plain 97,.escape 110,
      .pair [100,56,51,52] [100,100,49,101]]++[34])) = .ok out [] ∧
    (out.bytes = [[97],[10],String.utf8EncodeChar (Char.ofNat 0x1D11E)].flatten ↔
      ∀ p ∈ [.plain 97,.escape 110,.pair [100,56,51,52] [100,100,49,101]], Kept p) := by
  refine literal_meaning _ _ (.cons (.plain 97 (by decide)) (.cons (.control 110 10 (by decide))
    (.cons (.pair _ _ (Char.ofNat 0x1D11E) ?_ ?_ (by decide) (by decide) (by decide)) .nil)))
    (by decide) (.inl rfl)
  · exact ⟨rfl,by simp [HexDigits]; decide⟩
  · exact ⟨rfl,by simp [HexDigits]; decide⟩

end Meaning

section Overflow

open Piece

theorem decode_overflows (size k : ℕ) (st : Decoding) (t rest : List UInt8)
    (ht : ∀ c ∈ t, c ≠ 34 ∧ c ≠ 92) (hk : t.length < k) (hout : st.out.length ≤ size)
    (hs : size < st.out.length+t.length) : decodeLoop size k st (t++rest) = none := by
  induction t generalizing k st with
  | nil =>
    rw [List.length_nil] at hs
    omega
  | cons c t ih =>
    rw [List.forall_mem_cons] at ht
    rw [List.length_cons] at hk hs
    cases k with
    | zero => omega
    | succ k =>
      rw [List.cons_append, decodeLoop, if_neg ht.1.1, if_pos ht.1.2]
      by_cases hfit : (st.out++[c]).length ≤ size
      · have hlen : (st.out++[c]).length = st.out.length+1 := by simp
        rw [put_fits hfit, Option.bind_some]
        exact ih k { st with out := st.out++[c] } ht.2 (by omega) hfit (by simp only; omega)
      · rw [put_overflows (by omega), Option.bind_none]

/-- An escape with too few digits before the quote: the pointer is moved past the quote. -/
theorem unicode_short (size : ℕ) (st : Decoding) (ds t : List UInt8) (hd : HexDigits ds)
    (h1 : ds ≠ []) (h3 : ds.length ≤ 3) (ht : 3-ds.length ≤ t.length)
    (hout : st.out.length ≤ size) :
    Json.unicode size st (ds++34::t) = none ∨
      ∃ next, Json.unicode size st (ds++34::t) = some (next,t.drop (3-ds.length)) ∧
        st.out.length ≤ next.out.length ∧ next.out.length ≤ size := by
  have hscan := scanHex_digits ds (34::t) hd h1 (by omega) (.inr ⟨t,rfl⟩)
  have hlt : hexRun 0 ds < 0x1000 := by
    calc hexRun 0 ds < (0+1)*16^ds.length := hexRun_lt 0 ds hd
      _ ≤ (0+1)*16^3 := Nat.mul_le_mul_left _ (Nat.pow_le_pow_right (by omega) h3)
  have hadv : advance 4 (ds++34::t) = some (t.drop (3-ds.length)) := by
    have hsplit : ds++34::t = (ds++34::t.take (3-ds.length))++t.drop (3-ds.length) := by simp
    rw [hsplit]
    exact advance_append _ _ (by simp; omega)
  rw [Json.unicode, hscan, Option.some_or]
  simp only [Option.bind_eq_bind, Option.bind_some, hadv]
  by_cases h0 : (0xDC00 ≤ hexRun 0 ds ∧ hexRun 0 ds ≤ 0xDFFF) ∨ hexRun 0 ds = 0
  · right
    rw [if_pos h0]
    exact ⟨_,rfl,le_refl _,hout⟩
  · rw [if_neg h0, if_neg (by omega)]
    by_cases hfit : (st.out++encoded (hexRun 0 ds)).length ≤ size
    · obtain ⟨next,hnext,hbytes⟩ := transcode_fits st hfit
      right
      refine ⟨next,by rw [hnext]; rfl,?_,by rwa [hbytes]⟩
      rw [hbytes, List.length_append]
      omega
    · left
      rw [transcode, put_overflows (by omega)]
      rfl

theorem decode_short (size k : ℕ) (st : Decoding) (ds t rest : List UInt8) (hd : HexDigits ds)
    (h1 : ds ≠ []) (h3 : ds.length ≤ 3) (ht : ∀ c ∈ t, c ≠ 34 ∧ c ≠ 92) (hk : t.length < k)
    (hout : st.out.length ≤ size) (hs : size+3 ≤ st.out.length+t.length) :
    decodeLoop size (k+1) st (92::117::(ds++34::(t++rest))) = none := by
  have hpos := List.length_pos_of_ne_nil h1
  have hdrop : (t++rest).drop (3-ds.length) = t.drop (3-ds.length)++rest :=
    List.drop_append_of_le_length (by omega)
  have hplain : ∀ c ∈ t.drop (3-ds.length), c ≠ 34 ∧ c ≠ 92 :=
    fun c hc => ht c (List.mem_of_mem_drop hc)
  rw [decodeLoop, if_neg (by decide), if_neg (by simp), unescape, if_pos rfl]
  rcases unicode_short size st ds (t++rest) hd h1 h3 (by rw [List.length_append]; omega) hout
    with hnone | ⟨next,hnext,hgrows,hfits⟩
  · rw [hnone, Option.bind_none]
  · rw [hnext, Option.bind_some, hdrop]
    exact decode_overflows size k next _ rest hplain (by rw [List.length_drop]; omega) hfits
      (by rw [List.length_drop]; omega)

/-- The bytes behind such an escape are written outside of the space that was counted. -/
theorem parseString_overflows (ps : List Piece) (hv : ∀ p ∈ ps, p.Valid) (ds t rest : List UInt8)
    (hd : HexDigits ds) (h1 : ds ≠ []) (h3 : ds.length ≤ 3) (ht : ∀ c ∈ t, c ≠ 34 ∧ c ≠ 92)
    (hl : (textOf ps).length+8 ≤ t.length) :
    parseString (34::(textOf ps++92::117::(ds++34::(t++rest)))) = .fault := by
  have hend : countLoop (34::(t++rest)) = some 0 := countLoop_ends (.inl rfl)
  have hcount : countLoop (92::117::(ds++34::(t++rest))) = some (1+ds.length) := by
    rw [countLoop_unicode ds _ hd, hend]
    rfl
  by_cases hint : countOf ps+(1+ds.length)+1 < 2^31
  · have hsmall := countOf_length hv
    have hlen := decodedOf_length ps
    obtain ⟨k,next,hk,hout,hrun⟩ := parseString_run ps hv hcount hint
    have hroom : t.length < k := by
      simp only [List.length_append, List.length_cons] at hk
      omega
    rw [hrun, decode_short _ k next ds t rest hd h1 h3 ht hroom (by rw [hout]; omega)
      (by rw [hout]; omega), finished]
  · rw [parseString, if_pos rfl, countLoop_pieces ps _ hv, hcount, Option.map_some]
    simp only
    rw [if_neg hint]

/-- A text that the parser cannot survive: an escape with too few digits, the quote, and
enough characters behind it. -/
theorem short_escape_overflows (P : Platform) (text : Text) (ps : List Piece)
    (hv : ∀ p ∈ ps, p.Valid) (ds t rest : List UInt8) (hd : HexDigits ds) (h1 : ds ≠ [])
    (h3 : ds.length ≤ 3) (ht : ∀ c ∈ t, c ≠ 34 ∧ c ≠ 92) (hl : (textOf ps).length+8 ≤ t.length)
    (htext : text.bytes = 34::(textOf ps++92::117::(ds++34::(t++rest)))) :
    cjsonParse P text = .fault := by
  have hskip : skip text.bytes = text.bytes := by
    rw [htext]
    rfl
  rw [cjsonParse, hskip, htext, parseValue_other P _ _ _ (by decide), if_pos rfl,
    parseString_overflows ps hv ds t rest hd h1 h3 ht hl]
  rfl

theorem one_digit_overflows : cjsonParse samplePlatform
    ⟨[34,92,117,49,34,65,65,65,65,65,65,65,65],by decide⟩ = .fault :=
  short_escape_overflows samplePlatform _ [] (by simp) [49] (List.replicate 8 65) []
    (by simp [HexDigits]; rfl) (by simp) (by simp) (by simp) (by simp [textOf]) rfl

end Overflow

section Printed

open Piece

/-- The piece that a character is printed as. -/
def pieceOf (c : UInt8) : Piece :=
  if 31 < c.toNat ∧ c ≠ 34 ∧ c ≠ 92 then .plain c
  else
    match escapeLetter c with
    | some letter => .escape letter
    | none => .unicode [48,48,hexDigit (c.toNat/16),hexDigit (c.toNat%16)]

theorem escapeLetter_back {c letter : UInt8} (h : escapeLetter c = some letter) :
    letter ≠ 117 ∧ letter ≠ 0 ∧ plainEscape letter = c := by
  unfold escapeLetter at h
  split_ifs at h with h1 h2 h3 h4 h5 h6 h7 <;> cases h <;> subst_vars <;> decide

theorem control_digits {n : ℕ} (h : n < 32) :
    Four [48,48,hexDigit (n/16),hexDigit (n%16)] ∧
      hexRun 0 [48,48,hexDigit (n/16),hexDigit (n%16)] = n := by
  have h1 := hexValue_hexDigit (show n/16 < 16 by omega)
  have h2 := hexValue_hexDigit (show n%16 < 16 by omega)
  have h0 : hexValue 48 = some 0 := rfl
  refine ⟨⟨rfl,?_⟩,?_⟩
  · simp [HexDigits, h0, h1, h2]
  · simp only [hexRun, h0, h1, h2]
    omega

theorem pieceOf_text (c : UInt8) : (pieceOf c).text = printedChar c := by
  unfold pieceOf printedChar
  split_ifs
  · rfl
  · cases escapeLetter c <;> rfl

theorem pieceOf_reads {c : UInt8} (h : c ≠ 0) : (pieceOf c).Valid ∧ (pieceOf c).decoded = [c] := by
  unfold pieceOf
  split_ifs with hp
  · exact ⟨⟨hp.2.1,hp.2.2,h⟩,rfl⟩
  · cases he : escapeLetter c with
    | some letter =>
      have hb := escapeLetter_back he
      exact ⟨⟨hb.1,hb.2.1⟩,congrArg (fun x => [x]) hb.2.2⟩
    | none =>
      have hq : c ≠ 34 ∧ c ≠ 92 := by
        constructor <;> intro hc <;> simp [hc, escapeLetter] at he
      have hlt : c.toNat < 32 := by
        by_contra hge
        exact hp ⟨by omega,hq⟩
      have h0 : c.toNat ≠ 0 := fun h0 => h (UInt8.toNat_inj.1 h0)
      have hd := control_digits hlt
      refine ⟨⟨hd.1,by rw [hd.2]; omega⟩,?_⟩
      simp only [Piece.decoded]
      rw [hd.2, if_neg (by omega)]
      simp [encoded, encodedLen, show c.toNat < 0x80 by omega, firstByteMark, trailing]

/-- The space that is counted for a character is what it takes. -/
theorem printedChar_length (c : UInt8) : (printedChar c).length = printedLen c := by
  unfold printedChar printedLen
  cases he : escapeLetter c with
  | some letter =>
    have hnot : ¬(31 < c.toNat ∧ c ≠ 34 ∧ c ≠ 92) := by
      unfold escapeLetter at he
      split_ifs at he <;> subst_vars <;> decide
    rw [if_neg hnot]
    rfl
  | none =>
    have hq : c ≠ 34 ∧ c ≠ 92 := by
      constructor <;> intro hc <;> simp [hc, escapeLetter] at he
    by_cases hlt : c.toNat < 32
    · simp [hlt, show ¬31 < c.toNat by omega]
    · simp [hlt, hq, show 31 < c.toNat by omega]

def quoted (str : Text) : List UInt8 := 34::(str.bytes.flatMap printedChar++[34])

/-- The text of a string takes all of its space. -/
theorem printString_quoted (str : Text) (h : (quoted str).length+1 < 2^31) :
    printStringPtr (some str) = .ok (quoted str) := by
  have hsum : (str.bytes.map printedLen).sum = (str.bytes.flatMap printedChar).length := by
    rw [List.length_flatMap]
    congr 2
    funext c
    exact (printedChar_length c).symm
  have hlen : (quoted str).length = (str.bytes.flatMap printedChar).length+2 := by simp [quoted]
  have hi : i32 ((str.bytes.map printedLen).sum+3) = (quoted str).length+1 := by
    rw [hsum, hlen]
    exact_mod_cast i32_natCast ((str.bytes.flatMap printedChar).length+3) (by omega)
  rw [printStringPtr, hi, compose, if_neg (by omega), ← quoted, if_pos (by omega)]

theorem quoted_pieces (str : Text) : quoted str = 34::(textOf (str.bytes.map pieceOf)++[34]) := by
  rw [quoted, textOf, List.flatMap_map]
  congr 3
  funext c
  exact (pieceOf_text c).symm

theorem quoted_read (str : Text) (rest : List UInt8) (h : (quoted str).length < 2^31) :
    parseString (quoted str++rest) = .ok str rest := by
  have hne : ∀ c ∈ str.bytes, c ≠ 0 := fun c hc h0 => str.nulFree (h0 ▸ hc)
  have hv : ∀ p ∈ str.bytes.map pieceOf, p.Valid := by
    intro p hp
    obtain ⟨c,hc,rfl⟩ := List.mem_map.1 hp
    exact (pieceOf_reads (hne c hc)).1
  have hdec : decodedOf (str.bytes.map pieceOf) = str.bytes := by
    rw [decodedOf, List.flatMap_map, List.flatMap_congr fun c hc => (pieceOf_reads (hne c hc)).2,
      List.flatMap_singleton']
  rw [quoted_pieces] at h ⊢
  have hends : Ends (34::rest) rest := .inl rfl
  obtain ⟨out,hout,hbytes⟩ := parseString_pieces _ hv hends (by
    simp only [List.length_cons, List.length_append] at h
    omega)
  rw [List.cons_append, List.append_assoc, List.singleton_append, hout,
    text_ext (hbytes.trans hdec)]

end Printed

end Duda.JsonString
