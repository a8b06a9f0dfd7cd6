import Mathlib.Tactic

/-!
# C strings and raw memory

A pointer is the memory that starts there, one byte for each offset. A text in
memory is followed by arbitrary bytes; a C string is followed by zeros.
-/

set_option autoImplicit false

namespace Duda.CString

def layout (s : List UInt8) (rest : ℕ → UInt8) : ℕ → UInt8 := fun i => s.getD i (rest i)

def cstr (s : List UInt8) : ℕ → UInt8 := fun i => s.getD i 0

def offset (p : ℕ → UInt8) (k : ℕ) : ℕ → UInt8 := fun i => p (k+i)

def slice (p : ℕ → UInt8) (len : ℕ) : List UInt8 := (List.range len).map p

/-- `strncmp(a, b, n) == 0`. -/
def strncmpZero (a b : ℕ → UInt8) : ℕ → Bool
  | 0 => true
  | n+1 => if a 0 ≠ b 0 then false
      else if a 0 = 0 then true
      else strncmpZero (offset a 1) (offset b 1) n

/-- The bytes of a C string without its terminator. -/
structure Text where
  bytes : List UInt8
  nulFree : 0 ∉ bytes
  deriving DecidableEq, Repr

@[ext]
theorem text_ext {a b : Text} (h : a.bytes = b.bytes) : a = b := by
  cases a
  cases b
  cases h
  rfl

theorem cstr_layout (s : List UInt8) : cstr s = layout s (fun _ => 0) := rfl

theorem slice_length (p : ℕ → UInt8) (n : ℕ) : (slice p n).length = n := by
  simp [slice]

theorem slice_succ (p : ℕ → UInt8) (n : ℕ) : slice p (n+1) = p 0::slice (offset p 1) n := by
  simp only [slice, List.range_succ_eq_map, List.map_cons, List.map_map]
  congr 2
  funext i
  simp only [Function.comp, offset, Nat.succ_eq_add_one, Nat.add_comm]

theorem offset_zero (p : ℕ → UInt8) : offset p 0 = p := by
  funext i
  simp [offset]

/-- A piece of a text in memory is the slice at its position. -/
theorem slice_layout (pre s post : List UInt8) (rest : ℕ → UInt8) :
    slice (offset (layout (pre++(s++post)) rest) pre.length) s.length = s := by
  apply List.ext_getElem
  · simp [slice]
  · intro i h1 h2
    simp [slice, offset, layout, List.getElem?_append, h2]

theorem strncmp_cstr (k : List UInt8) (p : ℕ → UInt8) (h : 0 ∉ k) :
    strncmpZero (cstr k) p k.length = true ↔ slice p k.length = k := by
  induction k generalizing p with
  | nil => simp [strncmpZero, slice]
  | cons c k ih =>
    have hc : c ≠ 0 := fun he => h (by simp [he])
    have hoff : offset (cstr (c::k)) 1 = cstr k := by
      funext i
      simp [offset, cstr, Nat.add_comm 1 i]
    have h0 : cstr (c::k) 0 = c := rfl
    rw [List.length_cons, slice_succ, List.cons.injEq,
      ← ih (offset p 1) (fun hm => h (by simp [hm]))]
    simp only [strncmpZero, h0, hoff, ne_eq, ite_not, if_neg hc]
    by_cases he : c = p 0
    · simp [← he]
    · simp [he, Ne.symm he]

theorem strncmp_comm (a b : ℕ → UInt8) (n : ℕ) : strncmpZero a b n = strncmpZero b a n := by
  induction n generalizing a b with
  | zero => rfl
  | succ n ih =>
    by_cases h : a 0 = b 0
    · simp [strncmpZero, h, ih]
    · simp [strncmpZero, h, Ne.symm h]

theorem strncmp_congr (a a' b : ℕ → UInt8) (n : ℕ) (h : ∀ i < n, a i = a' i) :
    strncmpZero b a n = strncmpZero b a' n := by
  induction n generalizing a a' b with
  | zero => rfl
  | succ n ih =>
    have h0 : a 0 = a' 0 := h 0 (by omega)
    have hrest := ih (offset a 1) (offset a' 1) (offset b 1) (fun i hi => h (1+i) (by omega))
    simp only [strncmpZero, h0, hrest]

theorem strncmp_text (t : Text) (p : ℕ → UInt8) :
    strncmpZero p (cstr t.bytes) t.bytes.length = true ↔ slice p t.bytes.length = t.bytes := by
  rw [strncmp_comm, strncmp_cstr t.bytes p t.nulFree]

variable (v π : List UInt8) (rest : ℕ → UInt8)

theorem offset_layout : offset (layout v rest) 1 = layout (v.drop 1) (offset rest 1) := by
  funext i
  simp [offset, layout, Nat.add_comm 1 i]

theorem offset_shift (t : ℕ → UInt8) : offset (fun i => t (i-1)) 1 = t := by
  funext i
  simp [offset]

theorem slice_take (n : ℕ) (h : n ≤ v.length) : slice (layout v rest) n = v.take n := by
  apply List.ext_getElem
  · simp [slice, h]
  · intro i h1 h2
    have hi : i < v.length := by
      rw [slice_length] at h1
      omega
    simp [slice, layout, hi]

theorem slice_inside (h : π.length ≤ v.length) : slice (layout v rest) π.length = π ↔ π <+: v := by
  rw [slice_take v rest π.length h, List.prefix_iff_eq_take, eq_comm]

theorem slice_beyond (h : v.length ≤ π.length) (he : slice (layout v rest) π.length = π) :
    v <+: π := by
  have hpart : (slice (layout v rest) π.length).take v.length = slice (layout v rest) v.length := by
    rw [slice, ← List.map_take, List.take_range, Nat.min_eq_left h, slice]
  rw [he, slice_take v rest v.length le_rfl, List.take_length] at hpart
  rw [← hpart]
  exact List.take_prefix v.length π

theorem layout_extended (h : v <+: π) : layout v (cstr π) = cstr π := by
  obtain ⟨w,rfl⟩ := h
  funext i
  by_cases hi : i < v.length
  · simp [layout, cstr, List.getElem?_append, hi]
  · simp [layout, cstr, hi]

theorem slice_extended (h : v <+: π) : slice (layout v (cstr π)) π.length = π := by
  rw [layout_extended v π h, cstr_layout, slice_take π _ π.length le_rfl, List.take_length]

theorem slice_differs (h : v.length < π.length) :
    slice (layout v (fun i => cstr π i+1)) π.length ≠ π := by
  intro he
  have hv := congrArg (fun l => l[v.length]?) he
  simp [slice, layout, cstr, h] at hv

/-- Whether a piece of memory is the text is decided by its known part, unless
the text goes beyond it. -/
theorem slice_decided (rest' : ℕ → UInt8) (h : ¬(v.length < π.length ∧ v <+: π)) :
    slice (layout v rest) π.length = π ↔ slice (layout v rest') π.length = π := by
  by_cases hl : v.length < π.length
  · apply iff_of_false
    · exact fun he => h ⟨hl,slice_beyond v π rest hl.le he⟩
    · exact fun he => h ⟨hl,slice_beyond v π rest' hl.le he⟩
  · rw [slice_inside v π rest (by omega), slice_inside v π rest' (by omega)]

theorem zeros_inside (h0 : 0 ∉ π) (h : slice (cstr v) π.length = π) : π.length ≤ v.length := by
  by_contra hl
  have hv := congrArg (fun l => l[v.length]?) h
  have hin : v.length < π.length := by omega
  have hzero : π[v.length] = 0 := by
    simpa [slice, cstr, hin] using hv.symm
  exact h0 (hzero ▸ List.getElem_mem hin)

theorem cstr_starts_iff (t : Text) :
    strncmpZero (cstr v) (cstr t.bytes) t.bytes.length = true ↔ t.bytes <+: v := by
  rw [strncmp_text]
  constructor
  · intro h
    exact (slice_inside v t.bytes _ (zeros_inside v t.bytes t.nulFree h)).mp h
  · intro h
    exact (slice_inside v t.bytes _ h.length_le).mpr h

/-- A comparison that goes beyond the terminator compares whole strings. -/
theorem strncmp_terminated (d t : List UInt8) (b : ℕ → UInt8) (n : ℕ) (hd : 0 ∉ d) (ht : 0 ∉ t)
    (hb : ∀ i ≤ t.length, b i = cstr t i) (hn : t.length < n) :
    strncmpZero (cstr d) b n = true ↔ d = t := by
  obtain ⟨n,rfl⟩ : ∃ m, n = m+1 := ⟨n-1,by omega⟩
  induction t generalizing d b n with
  | nil =>
    have hzero : b 0 = 0 := hb 0 le_rfl
    cases d with
    | nil => simp [strncmpZero, cstr, hzero]
    | cons c d =>
      have hc : c ≠ 0 := fun h => hd (h ▸ List.mem_cons_self ..)
      simp [strncmpZero, cstr, hzero, hc]
  | cons c t ih =>
    have hc : c ≠ 0 := fun h => ht (h ▸ List.mem_cons_self ..)
    have hhead : b 0 = c := hb 0 (Nat.zero_le _)
    cases d with
    | nil => simp [strncmpZero, cstr, hhead, hc.symm]
    | cons e d =>
      obtain ⟨m,rfl⟩ : ∃ m, n = m+1 := ⟨n-1,by rw [List.length_cons] at hn; omega⟩
      have hoff : offset (cstr (e::d)) 1 = cstr d := by
        rw [cstr_layout, offset_layout]
        rfl
      have htail : ∀ i ≤ t.length, offset b 1 i = cstr t i := by
        intro i hi
        rw [offset, hb (1+i) (by rw [List.length_cons]; omega), Nat.add_comm]
        rfl
      have hrest := ih d (offset b 1) (fun h => hd (List.mem_cons_of_mem _ h))
        (fun h => ht (List.mem_cons_of_mem _ h)) htail m (by rw [List.length_cons] at hn; omega)
      rw [strncmpZero, hhead, show cstr (e::d) 0 = e from rfl, hoff]
      by_cases he : e = c
      · simp [he, hc, hrest]
      · simp [he]

/-- A comparison bounded by the memory's side: the memory is a part of the
text up to there, or holds the whole text with its terminator. -/
theorem strncmp_bounded (k : List UInt8) (p : ℕ → UInt8) (n : ℕ) (h : 0 ∉ k) :
    strncmpZero p (cstr k) n = true ↔ slice p n <+: k ∨ k++[0] <+: slice p n := by
  induction n generalizing k p with
  | zero => simp [strncmpZero, slice]
  | succ n ih =>
    rw [slice_succ, strncmpZero]
    cases k with
    | nil =>
      have h0 : cstr [] 0 = 0 := rfl
      rw [h0]
      by_cases hp : p 0 = 0
      · simp [hp]
      · simp [hp, Ne.symm hp]
    | cons c k =>
      have hc : c ≠ 0 := fun he => h (by simp [he])
      have h0 : cstr (c::k) 0 = c := rfl
      have hoff : offset (cstr (c::k)) 1 = cstr k := by
        rw [cstr_layout, offset_layout]
        rfl
      have hrest := ih k (offset p 1) (fun hm => h (by simp [hm]))
      rw [h0, hoff]
      by_cases hp : p 0 = c
      · simp [hp, hc, hrest]
      · simp [hp, Ne.symm hp]

end Duda.CString
