import Duda.MachineInt
import Duda.RouterParse
import Duda.UriMemory

/-!
# Numbers in URI segments

`duda_utils_strtol` reads a piece of memory of a given length, one character
ahead of its loop. The accumulator is an unsigned long, and the limit depends
on the sign. The sign is consumed before the loop, which does not run at all
when nothing follows it.
-/

set_option autoImplicit false

namespace Duda.Strtol
open Duda.CString Duda.MachineInt Duda.Router Duda.RouterParse Duda.UriMemory

def plus : UInt8 := 43

def minus : UInt8 := 45

def longMin : ℤ := -2^63

def longMax : ℤ := 2^63-1

def base : ℕ := 10

/-- A `char` that is stored in an `int`. -/
def charValue (b : UInt8) : ℤ := if b.toNat < 128 then b.toNat else b.toNat-256

def isdigit (c : ℤ) : Bool := 48 ≤ c ∧ c ≤ 57

/-- The largest magnitude: `-(unsigned long) LONG_MIN` or `LONG_MAX`. -/
def limit (neg : Bool) : ℕ := if neg then u64 (-(u64 longMin)) else u64 longMax

def cutlim (neg : Bool) : ℕ := limit neg % base

def cutoff (neg : Bool) : ℕ := limit neg/base

/-- The loop: `s` is the number of characters read, `c` the last of them. It
yields the accumulator and the flag. -/
def digitLoop (nptr : ℕ → UInt8) (len : ℤ) (neg : Bool) :
    ℕ → ℕ → ℤ → ℕ → ℤ → Option (ℕ × ℤ)
  | 0, _, _, _, _ => none
  | fuel+1, s, c, acc, any =>
    if s ≤ len then
      if isdigit c then
        let c := c-48
        if (base:ℤ) ≤ c then some (acc,-1)
        else if any < 0 ∨ cutoff neg < acc ∨ (acc = cutoff neg ∧ (cutlim neg:ℤ) < c) then
          digitLoop nptr len neg fuel (s+1) (charValue (nptr s)) acc (-1)
        else digitLoop nptr len neg fuel (s+1) (charValue (nptr s)) (u64 (u64 (acc*base)+c)) 1
      else some (acc,-1)
    else some (acc,any)

/-- The sign, the character after it and how many were read. -/
structure Start where
  neg : Bool
  c : ℤ
  s : ℕ
  deriving DecidableEq, Repr

def readSign (nptr : ℕ → UInt8) : Start :=
  if charValue (nptr 0) = charValue minus then ⟨true,charValue (nptr 1),2⟩
  else if charValue (nptr 0) = charValue plus then ⟨false,charValue (nptr 1),2⟩
  else ⟨false,charValue (nptr 0),1⟩

/-- The returned code and `*result`, from the accumulator and the flag. -/
def loopResult (neg : Bool) (r : ℕ × ℤ) : ℤ × ℤ :=
  if r.2 < 0 then (-1,0) else (0,i64 (if neg then u64 (-r.1) else r.1))

def utilsStrtol (nptr : ℕ → UInt8) (len : ℤ) : Option (ℤ × ℤ) :=
  let start := readSign nptr
  (digitLoop nptr len start.neg (len.toNat+1) start.s start.c 0 0).map (loopResult start.neg)

/-- The returned code, and `*res` when it is written. -/
def numberResult (r : ℤ × ℤ) : ℤ × Option ℤ := if r.1 = -1 then (-1,none) else (0,some r.2)

def paramGetNumber (uri : ℕ → UInt8) (ruri : List UriField) (path : RouterPath)
    (key : Option (List UInt8)) : Option (ℤ × Option ℤ) :=
  let found := getParamPosition path key
  if found = -1 then some (-1,none)
  else
    let field := ruri.getD found.toNat ⟨0,0⟩
    (utilsStrtol (offset uri field.name) field.name_len).map numberResult

def decimalFrom (acc : ℕ) : List UInt8 → Option ℕ
  | [] => some acc
  | d::ds => if isdigit (charValue d) then decimalFrom (base*acc+(charValue d-48).toNat) ds
      else none

def splitSign : List UInt8 → Bool × List UInt8
  | [] => (false,[])
  | c::ds => if c = minus then (true,ds) else if c = plus then (false,ds) else (false,c::ds)

/-- The integer that a text denotes: an optional sign and one or more digits. -/
def denoted (s : List UInt8) : Option ℤ :=
  if (splitSign s).2 = [] then none
  else (decimalFrom 0 (splitSign s).2).map (fun v : ℕ => if (splitSign s).1 then -(v:ℤ) else v)

/-- The `long` that a text denotes. -/
def longOf (s : List UInt8) : Option ℤ :=
  (denoted s).bind (fun n => if longMin ≤ n ∧ n ≤ longMax then some n else none)

def strtolAnswer (s : List UInt8) : ℤ × ℤ :=
  match longOf s with
  | some n => (0,n)
  | none => (-1,0)

def numberAnswer (s : List UInt8) : ℤ × Option ℤ :=
  match longOf s with
  | some n => (0,some n)
  | none => (-1,none)

/-- A sign with nothing behind it. -/
def LoneSign (s : List UInt8) : Prop := s = [minus] ∨ s = [plus]

section Limits

variable (neg : Bool)

theorem limit_eq : limit neg = if neg then 2^63 else 2^63-1 := by
  cases neg <;> decide

theorem limit_split : limit neg = base*cutoff neg+cutlim neg :=
  (Nat.div_add_mod (limit neg) base).symm

theorem cutlim_lt : cutlim neg < base := Nat.mod_lt _ (by decide)

theorem limit_lt : limit neg < 2^64 := by
  cases neg <;> decide

end Limits

theorem digit_range (c : ℤ) : isdigit c = true ↔ 48 ≤ c ∧ c ≤ 57 := by
  simp [isdigit]

theorem decimal_ge (ds : List UInt8) (acc v : ℕ) (h : decimalFrom acc ds = some v) : acc ≤ v := by
  induction ds generalizing acc with
  | nil => exact (Option.some.inj h).le
  | cons d ds ih =>
    simp only [decimalFrom] at h
    split_ifs at h
    have hrec := ih _ h
    simp only [base] at hrec
    omega

variable (p : ℕ → UInt8) (s : List UInt8) (neg : Bool)

theorem slice_next (i n : ℕ) : slice (offset p i) (n+1) = p i::slice (offset p (i+1)) n := by
  have hnext : offset (offset p i) 1 = offset p (i+1) := by
    funext j
    simp only [offset]
    congr 1
    omega
  rw [slice_succ, hnext]
  rfl

/-- The cutoff test tells whether one more digit exceeds the limit. -/
theorem cutoff_iff (acc : ℕ) (c : ℤ) (h0 : 0 ≤ c) (h : c < base) :
    (cutoff neg < acc ∨ (acc = cutoff neg ∧ (cutlim neg:ℤ) < c)) ↔
      limit neg < base*acc+c.toNat := by
  have hsplit := limit_split neg
  have hlim := cutlim_lt neg
  simp only [base] at *
  omega

/-- Inside the limit the accumulator does not wrap. -/
theorem digit_wrap (acc : ℕ) (c : ℤ) (h0 : 0 ≤ c) (h : base*acc+c.toNat ≤ limit neg) :
    u64 (u64 (acc*base)+c) = base*acc+c.toNat := by
  have hmax := limit_lt neg
  have hmul : u64 (acc*base) = acc*base := by
    rw [← Nat.cast_mul, u64_natCast _ (by rw [Nat.mul_comm]; omega)]
  have hsum : ((acc*base:ℕ):ℤ)+c = (base*acc+c.toNat:ℕ) := by
    rw [Nat.mul_comm]
    omega
  rw [hmul, hsum, u64_natCast _ (by omega)]

/-- From any accumulator inside the limit, the loop accepts the digits that
keep it there, and yields their value. -/
theorem digitLoop_spec (n i fuel acc : ℕ) (any : ℤ) (hf : n < fuel) (hacc : acc ≤ limit neg) :
    ∃ acc' any', digitLoop p (i+n:ℕ) neg fuel (i+1) (charValue (p i)) acc any =
        some (acc',any') ∧
      (0 ≤ any' ↔ 0 ≤ any ∧ ∃ v ≤ limit neg, decimalFrom acc (slice (offset p i) n) = some v) ∧
      (0 ≤ any' → decimalFrom acc (slice (offset p i) n) = some acc') := by
  induction n generalizing i fuel acc any with
  | zero =>
    obtain ⟨fuel,rfl⟩ := Nat.exists_eq_succ_of_ne_zero (by omega : fuel ≠ 0)
    have hstop : ¬((i+1:ℕ):ℤ) ≤ (i+0:ℕ) := by omega
    refine ⟨acc,any,by simp only [digitLoop, if_neg hstop],?_,fun _ => rfl⟩
    simp [slice, decimalFrom, hacc]
  | succ n ih =>
    obtain ⟨fuel,rfl⟩ := Nat.exists_eq_succ_of_ne_zero (by omega : fuel ≠ 0)
    have hgo : ((i+1:ℕ):ℤ) ≤ (i+(n+1):ℕ) := by omega
    have hlen : i+(n+1) = i+1+n := by omega
    rw [slice_next, digitLoop, if_pos hgo]
    simp only [decimalFrom]
    by_cases hd : isdigit (charValue (p i)) = true
    · have hrange := (digit_range _).mp hd
      have hbase : ¬(base:ℤ) ≤ charValue (p i)-48 := by
        simp only [base]
        omega
      have hcut := cutoff_iff neg acc (charValue (p i)-48) (by omega) (by omega)
      simp only [hd, if_true, if_neg hbase, hlen]
      -- an overflow is remembered in the flag, which then stays negative
      have hoverflow := ih (i+1) fuel acc (-1) (by omega) hacc
      by_cases hgood : 0 ≤ any ∧ base*acc+(charValue (p i)-48).toNat ≤ limit neg
      · rw [if_neg (by rw [hcut]; omega), digit_wrap neg acc _ (by omega) hgood.2]
        obtain ⟨acc',any',hrun,hiff,hval⟩ := ih (i+1) fuel _ 1 (by omega) hgood.2
        refine ⟨acc',any',hrun,hiff.trans ?_,hval⟩
        simp only [zero_le_one, hgood.1]
      · rw [if_pos (by rw [hcut]; omega)]
        obtain ⟨acc',any',hrun,hiff,hval⟩ := hoverflow
        have hneg : ¬0 ≤ any' := fun h => absurd (hiff.mp h).1 (by decide)
        refine ⟨acc',any',hrun,iff_of_false hneg ?_,fun h => absurd h hneg⟩
        rintro ⟨hany,v,hv,hdec⟩
        exact hgood ⟨hany,(decimal_ge _ _ _ hdec).trans hv⟩
    · simp [hd]

/-- What is returned for the digits behind a sign. -/
def signedAnswer (neg : Bool) (ds : List UInt8) : ℤ × ℤ :=
  match decimalFrom 0 ds with
  | none => (-1,0)
  | some v => if v ≤ limit neg then (0,if neg then -v else v) else (-1,0)

theorem long_result (v : ℕ) (h : v ≤ limit neg) :
    i64 (if neg then u64 (-v) else v) = if neg then -(v:ℤ) else v := by
  rw [limit_eq] at h
  cases neg with
  | true =>
    rw [if_pos rfl, if_pos rfl, i64_wrap, i64_of_range _ (by simp at h; omega) (by omega)]
  | false =>
    simp only [Bool.false_eq_true, if_false] at h ⊢
    rw [i64_of_range _ (by omega) (by omega)]

theorem loop_answer (n i fuel : ℕ) (hf : n < fuel) :
    (digitLoop p (i+n:ℕ) neg fuel (i+1) (charValue (p i)) 0 0).map (loopResult neg) =
      some (signedAnswer neg (slice (offset p i) n)) := by
  obtain ⟨acc,any,hrun,hiff,hval⟩ := digitLoop_spec p neg n i fuel 0 0 hf (Nat.zero_le _)
  rw [hrun, Option.map_some, Option.some.injEq, loopResult]
  simp only [le_refl, true_and] at hiff
  by_cases hany : any < 0
  · have hnone := mt hiff.mpr (by omega)
    rw [if_pos hany, signedAnswer]
    split
    · rfl
    · rename_i v hv
      rw [if_neg (fun hle => hnone ⟨v,hle,hv⟩)]
  · obtain ⟨v,hle,hv⟩ := hiff.mp (by omega)
    have hacc : v = acc := Option.some.inj (hv.symm.trans (hval (by omega)))
    subst hacc
    simp only [if_neg hany, signedAnswer, hv, if_pos hle, long_result neg v hle]

theorem charValue_inj (a b : UInt8) (h : charValue a = charValue b) : a = b := by
  have ha := a.toNat_lt
  have hb := b.toNat_lt
  apply UInt8.toNat_inj.mp
  simp only [charValue] at h
  split_ifs at h <;> omega

/-- The code splits off the sign, and reads what follows as digits. -/
theorem strtol_spec (n : ℕ) (hn : 0 < n) :
    utilsStrtol p n =
      some (signedAnswer (splitSign (slice p n)).1 (splitSign (slice p n)).2) := by
  obtain ⟨n,rfl⟩ := Nat.exists_eq_succ_of_ne_zero (by omega : n ≠ 0)
  have hcmp : ∀ b, charValue (p 0) = charValue b ↔ p 0 = b :=
    fun b => ⟨charValue_inj _ _,congrArg charValue⟩
  have hsigned := fun neg => loop_answer p neg n 1 (n+2) (by omega)
  have hplain := loop_answer p false (n+1) 0 (n+2) (by omega)
  rw [Nat.add_comm 1 n] at hsigned
  rw [Nat.zero_add, offset_zero] at hplain
  rw [slice_succ, splitSign, utilsStrtol, readSign]
  simp only [hcmp, Int.toNat_natCast]
  split_ifs
  · exact hsigned true
  · exact hsigned false
  · rw [← slice_succ]
    exact hplain

theorem splitSign_nil_iff (hs : s ≠ []) : (splitSign s).2 = [] ↔ LoneSign s := by
  cases s with
  | nil => exact absurd rfl hs
  | cons c ds =>
    simp only [splitSign, LoneSign, List.cons.injEq]
    split_ifs with h1 h2 <;> simp_all [minus, plus]

theorem answer_signed (h : (splitSign s).2 ≠ []) :
    strtolAnswer s = signedAnswer (splitSign s).1 (splitSign s).2 := by
  rw [strtolAnswer, longOf, denoted, if_neg h, signedAnswer]
  cases decimalFrom 0 (splitSign s).2 with
  | none => rfl
  | some v =>
    have hrange : (longMin ≤ (if (splitSign s).1 then -(v:ℤ) else v) ∧
        (if (splitSign s).1 then -(v:ℤ) else v) ≤ longMax) ↔ v ≤ limit (splitSign s).1 := by
      rw [limit_eq]
      simp only [longMin, longMax]
      split_ifs <;> omega
    simp only [Option.map_some, Option.bind_some, hrange]
    by_cases hle : v ≤ limit (splitSign s).1
    · rw [if_pos hle, if_pos hle]
    · rw [if_neg hle, if_neg hle]

theorem longOf_lone (h : (splitSign s).2 = []) : longOf s = none := by
  rw [longOf, denoted, if_pos h]
  rfl

theorem signedAnswer_nil : signedAnswer neg [] = (0,0) := by
  cases neg <;> rfl

/-- Memory that holds a text is read as the text says, a lone sign apart. -/
theorem strtol_slice (hs : s ≠ []) (hp : slice p s.length = s) :
    utilsStrtol p s.length = some (strtolAnswer s) ↔ ¬LoneSign s := by
  rw [strtol_spec p s.length (List.length_pos_of_ne_nil hs), hp, ← splitSign_nil_iff s hs,
    Option.some.injEq]
  constructor
  · intro h hlone
    simp [hlone, signedAnswer_nil, strtolAnswer, longOf_lone] at h
  · intro h
    exact (answer_signed s h).symm

section Parameters

theorem uriAdd_nonempty (ruri : List UriField) (buf size : ℕ) (hr : ∀ f ∈ ruri, 0 < f.name_len)
    (h : 0 < size) : ∀ f ∈ uriAdd ruri buf size, 0 < f.name_len := by
  intro f hf
  rw [uriAdd] at hf
  split_ifs at hf
  · exact hr f hf
  · rcases List.mem_append.mp hf with hf | hf
    · exact hr f hf
    · rw [List.mem_singleton.mp hf]
      exact h

variable (uri : ℕ → UInt8)

theorem uriStep_nonempty (s : Scan) (hr : ∀ f ∈ s.ruri, 0 < f.name_len) :
    ∀ f ∈ (uriStep uri s).ruri, 0 < f.name_len := by
  simp only [uriStep]
  split_ifs with h1 h2 h3 h4
  all_goals first | exact hr | exact uriAdd_nonempty _ _ _ hr (by omega)

theorem uriLoop_nonempty (len fuel : ℕ) (s t : Scan) (hr : ∀ f ∈ s.ruri, 0 < f.name_len)
    (h : uriLoop uri len fuel s = some t) : ∀ f ∈ t.ruri, 0 < f.name_len := by
  induction fuel generalizing s with
  | zero => cases h
  | succ fuel ih =>
    rw [uriLoop] at h
    split_ifs at h
    · exact ih _ (uriStep_nonempty uri s hr) h
    · cases h
      exact hr

theorem parse_nonempty (len : ℕ) (ruri : List UriField) (h : routerUriParse uri len = some ruri) :
    ∀ f ∈ ruri, 0 < f.name_len := by
  obtain ⟨t,ht,rfl⟩ := Option.map_eq_some_iff.mp h
  have hr := uriLoop_nonempty uri len _ _ t (fun f hf => by cases hf) ht
  simp only [uriTail]
  split_ifs
  · exact uriAdd_nonempty _ _ _ hr (by omega)
  · exact hr
  · exact hr

/-- A walk that succeeds has found a URI field for every field of the path. -/
theorem fieldLoop_length (ruri : List UriField) (fields : List RouterField) (i : ℕ)
    (found : Bool) (hi : i ≤ ruri.length) (h : fieldLoop uri ruri fields i found = true) :
    i+fields.length ≤ ruri.length := by
  induction fields generalizing i found with
  | nil => exact hi
  | cons f fields ih =>
    simp only [fieldLoop] at h
    rw [List.length_cons]
    split_ifs at h with h1 h2 h3 h4 h5
    · have := ih (i+1) true (by omega) h
      omega
    · have := ih (i+1) found (by omega) h
      omega
    · have := ih (i+1) found (by omega) h
      omega

theorem position_bound (key : List UInt8) (fields : List RouterField) (i : ℕ) :
    positionLoop key fields i = -1 ∨
      ∃ k, positionLoop key fields i = (i+k:ℕ) ∧ k < fields.length := by
  induction fields generalizing i with
  | nil => exact .inl rfl
  | cons f fields ih =>
    have hnext : positionLoop key fields (i+1) = -1 ∨
        ∃ k, positionLoop key fields (i+1) = (i+k:ℕ) ∧ k < (f::fields).length := by
      rcases ih (i+1) with h | ⟨k,h,hk⟩
      · exact .inl h
      · exact .inr ⟨k+1,by rw [h]; congr 1; omega,by simpa using hk⟩
    simp only [positionLoop]
    split_ifs
    · exact hnext
    · exact hnext
    · exact .inr ⟨0,rfl,by simp⟩
    · exact hnext

theorem selected_fields (uri_len : ℕ) (ruri : List UriField) (list : List RouterPath)
    (path : RouterPath) (hdyn : path.type = routerDynamic)
    (h : routerPathLookup uri uri_len ruri list = ⟨routerMatch,some path⟩) :
    fieldLoop uri ruri path.fields 0 false = true := by
  obtain ⟨_,p,_,_,_,hp,_⟩ := lookup_answered uri uri_len ruri list (by simp [h, routerMatch,
    routerNotfound])
  rw [h] at hp
  have hpath : path = p := by
    rcases ruleAnswer_some uri uri_len ruri p _ hp with hr | hr
    · simp at hr
    · simpa using hr
  subst hpath
  have hstatic : ¬path.type = routerStatic := by rw [hdyn]; decide
  rw [ruleAnswer, if_neg hstatic, if_pos hdyn] at hp
  by_contra hno
  rw [if_neg hno] at hp
  cases hp

theorem parameter_segment (uri_len : ℕ) (ruri : List UriField) (list : List RouterPath)
    (path : RouterPath) (key : Option (List UInt8))
    (hparse : routerUriParse uri uri_len = some ruri) (hdyn : path.type = routerDynamic)
    (h : routerPathLookup uri uri_len ruri list = ⟨routerMatch,some path⟩)
    (hfound : getParamPosition path key ≠ -1) :
    ∃ k field, getParamPosition path key = (k:ℕ) ∧ ruri[k]? = some field ∧ 0 < field.name_len := by
  cases key with
  | none => exact absurd rfl hfound
  | some key =>
    rw [getParamPosition] at *
    have hsel := selected_fields uri uri_len ruri list path hdyn h
    have hlen := fieldLoop_length uri ruri path.fields 0 false (Nat.zero_le _) hsel
    obtain ⟨k,hk,hlt⟩ := (position_bound key path.fields 0).resolve_left hfound
    have hin : k < ruri.length := by omega
    refine ⟨k,ruri[k],by rw [hk, Nat.zero_add],List.getElem?_eq_getElem hin,?_⟩
    exact parse_nonempty uri uri_len ruri hparse _ (List.getElem_mem hin)

end Parameters

theorem numberAnswer_eq (s : List UInt8) : numberAnswer s = numberResult (strtolAnswer s) := by
  rw [numberAnswer, strtolAnswer]
  cases longOf s <;> rfl

/-- The parameter is the number that the segment denotes, a lone sign apart. -/
theorem number_field (uri : ℕ → UInt8) (ruri : List UriField) (path : RouterPath)
    (key : Option (List UInt8)) (k : ℕ) (field : UriField) (s : List UInt8)
    (hk : getParamPosition path key = k) (hget : ruri[k]? = some field)
    (hpos : 0 < field.name_len) (hs : slice (offset uri field.name) field.name_len = s) :
    paramGetNumber uri ruri path key = some (numberAnswer s) ↔ ¬LoneSign s := by
  have hlen : s.length = field.name_len := by rw [← hs, slice_length]
  have hne : s ≠ [] := List.ne_nil_of_length_pos (by omega)
  have hnot : ¬(k:ℤ) = -1 := by omega
  have hrun : paramGetNumber uri ruri path key =
      (utilsStrtol (offset uri field.name) field.name_len).map numberResult := by
    simp [paramGetNumber, hk, hnot, hget]
  constructor
  · intro h hlone
    rw [hrun, strtol_spec _ _ hpos, hs, (splitSign_nil_iff s hne).mpr hlone] at h
    simp [signedAnswer_nil, numberAnswer, longOf_lone s ((splitSign_nil_iff s hne).mpr hlone),
      numberResult] at h
  · intro h
    have hread := (strtol_slice (offset uri field.name) s hne (by rw [hlen, hs])).mpr h
    rw [hlen] at hread
    rw [hrun, hread, numberAnswer_eq]
    rfl

/-- A text is read as the `long` it denotes exactly when it is not a sign
alone, and the same holds for the segment of a parameter on a selected path. -/
theorem strtol_exact_iff (s : List UInt8) (hs : s ≠ []) (rest : ℕ → UInt8) :
    (utilsStrtol (layout s rest) s.length = some (strtolAnswer s) ↔ ¬LoneSign s) ∧
    ∀ (uri : ℕ → UInt8) (uri_len : ℕ) (ruri : List UriField) (list : List RouterPath)
      (path : RouterPath) (key : Option (List UInt8)),
      routerUriParse uri uri_len = some ruri →
      routerPathLookup uri uri_len ruri list = ⟨routerMatch,some path⟩ →
      path.type = routerDynamic → getParamPosition path key ≠ -1 →
      ∃ k t, getParamPosition path key = (k:ℕ) ∧ (uriTexts uri ruri)[k]? = some t ∧
        (paramGetNumber uri ruri path key = some (numberAnswer t) ↔ ¬LoneSign t) := by
  constructor
  · apply strtol_slice (layout s rest) s hs
    rw [slice_take s rest s.length le_rfl, List.take_length]
  · intro uri uri_len ruri list path key hparse hlookup hdyn hfound
    obtain ⟨k,field,hk,hget,hpos⟩ :=
      parameter_segment uri uri_len ruri list path key hparse hdyn hlookup hfound
    refine ⟨k,_,hk,by rw [uriTexts, List.getElem?_map, hget]; rfl,?_⟩
    exact number_field uri ruri path key k field _ hk hget hpos rfl

/-- `-42` is read, whatever follows it. -/
theorem strtol_exact_negative :
    utilsStrtol (layout [45,52,50] (fun _ => 57)) 3 = some (0,-42) := by
  have h := ((strtol_exact_iff [45,52,50] (by decide) (fun _ => 57)).1).mpr
    (by simp [LoneSign, minus, plus])
  exact h

/-- A lone minus sign is read as zero. -/
theorem lone_sign_read :
    utilsStrtol (layout [45] (fun _ => 0)) 1 = some (0,0) ∧ denoted [45] = none := by
  decide

end Duda.Strtol
