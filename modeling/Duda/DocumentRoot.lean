import Duda.CheckedMemory
import Duda.CString
import Duda.MachineInt
import Duda.Router
import Duda.Runs

/-!
# Static files below the document root

A request whose URI starts with `/ddr` is served from the document root: the
rest of the URI is put behind the root in the path buffer of the request. The
buffer is a fixed area or an allocated one, and the lengths go through several
integer types on the way.
-/

set_option autoImplicit false

namespace Duda.DocumentRoot
open Duda.CheckedMemory Duda.CString Duda.MachineInt Duda.Router Duda.Runs

/-- `MK_PATH_BASE`. -/
def pathBase : ℕ := 128

/-- `/ddr`. -/
def ddr : List UInt8 := [47,100,100,114]

/-- Bytes of an object in memory. -/
structure Region where
  bytes : List UInt8
  size : bytes.length < 2^63

/-- `real_path` of a request, with the buffer its data points to. -/
structure RealPath where
  cap : ℕ
  data : Vector UInt8 cap
  isStatic : Bool
  len : ℕ

/-- The path that the server leaves in the request: it is terminated, and only
a path that does not fit into `real_path_static` is in allocated memory. -/
def RealPath.Valid (p : RealPath) : Prop :=
  p.len < p.cap ∧ if p.isStatic then p.cap = pathBase else pathBase < p.cap

def RealPath.text (p : RealPath) : List UInt8 := p.data.toList.take p.len

/-- `abs`, of a 32-bit integer. -/
def abs32 (x : ℤ) : ℤ := if x < 0 then i32 (-x) else x

/-- The buffer that the path is composed in. `alloc` is the memory that an
allocation gives, if it gives any. -/
def chooseBuffer (sr : RealPath) (new_path_len : ℕ) (alloc : Option (ℕ → UInt8)) :
    Option RealPath :=
  if sr.len < new_path_len ∧ pathBase < new_path_len then
    alloc.map fun mem => ⟨u32 (new_path_len+1),Vector.ofFn (fun i => mem i),false,sr.len⟩
  else some sr

def composePath (sr : RealPath) (path : List UInt8) (len : ℤ) (uri : ℕ → UInt8)
    (uri_len uri_offset : ℕ) : Except Access RealPath :=
  (fill path 0 (u64 len) 0 sr.data).bind fun data =>
    let count := u64 ((uri_len:ℤ)-uri_offset)
    (fill (slice (offset uri uri_offset) count) len.toNat count 0 data).bind fun data =>
      let real_len := u64 (abs32 (i32 (len+uri_len-uri_offset)))
      (store data real_len 0).map fun data => ⟨sr.cap,data,sr.isStatic,real_len⟩

/-- `duda_override_docroot`: the path, if there is a buffer for it, and the
return value. -/
def overrideDocroot (fileInfo : List UInt8 → Bool) (sr : RealPath)
    (alloc : Option (ℕ → UInt8)) (uri : ℕ → UInt8) (uri_len uri_offset : ℕ) (path : List UInt8)
    (len : ℤ) : Except Access (Option RealPath × ℤ) :=
  match chooseBuffer sr (u32 (uri_len+len)) alloc with
  | none => .ok (none,-1)
  | some sr =>
    (composePath sr path len uri uri_len uri_offset).map fun p =>
      (some p,if fileInfo p.text then 0 else -1)

/-- The test of `duda_stage30`. -/
def ddrRequest (uri : ℕ → UInt8) : Bool := strncmpZero uri (cstr ddr) 4

/-- The branch of `duda_stage30` for such a request. -/
def ddrOverride (fileInfo : List UInt8 → Bool) (sr : RealPath) (alloc : Option (ℕ → UInt8))
    (uri : ℕ → UInt8) (uri_len : ℕ) (root : List UInt8) : Except Access (Option RealPath × ℤ) :=
  overrideDocroot fileInfo sr alloc uri uri_len 4 root (i32 root.length)

/-- The path is the root, or continues it with a slash. -/
def Below (root path : List UInt8) : Prop :=
  ∃ tail, path = root++tail ∧ (tail = [] ∨ tail.head? = some slash)

/-- Every write lies inside the buffer, and the path that is composed, of the
root and the rest of the URI, is the one stored and is below the root. -/
def Confined (root uri : List UInt8) (rest : ℕ → UInt8) : Prop :=
  ∀ fileInfo sr alloc, sr.Valid →
    ∃ r, ddrOverride fileInfo sr alloc (layout uri rest) uri.length root = .ok r ∧
      ∀ p, r.1 = some p → Below root p.text ∧ p.len = root.length+(uri.length-4)

section Compose

variable (sr : RealPath) (path : List UInt8) (uri : ℕ → UInt8)

theorem composePath_inv (len : ℤ) (uri_len uri_offset : ℕ) (p : RealPath)
    (h : composePath sr path len uri uri_len uri_offset = .ok p) :
    ∃ d e, fill path 0 (u64 len) 0 sr.data = .ok d ∧
      fill (slice (offset uri uri_offset) (u64 ((uri_len:ℤ)-uri_offset))) len.toNat
        (u64 ((uri_len:ℤ)-uri_offset)) 0 d = .ok e ∧
      ∃ hn : u64 (abs32 (i32 (len+uri_len-uri_offset))) < sr.cap,
        p = ⟨sr.cap,e.set _ 0 hn,sr.isStatic,u64 (abs32 (i32 (len+uri_len-uri_offset)))⟩ := by
  obtain ⟨d,hd,h⟩ := bind_ok h
  obtain ⟨e,he,h⟩ := bind_ok h
  obtain ⟨f,hf,rfl⟩ := map_ok h
  refine ⟨d,e,hd,he,?_⟩
  rw [store] at hf
  split_ifs at hf with hn
  cases hf
  exact ⟨hn,rfl⟩

variable (count : ℕ)

theorem copies_text (d e : Vector UInt8 sr.cap) (hfit : path.length+count ≤ sr.cap)
    (hd : fill path 0 path.length 0 sr.data = .ok d)
    (he : fill (slice uri count) path.length count 0 d = .ok e) :
    e.toList.take (path.length+count) = path++slice uri count := by
  have h1 := fill_take path 0 path.length 0 sr.data d (by omega) (by omega) hd
  have h2 := fill_take (slice uri count) path.length count 0 d e (by rw [slice_length]; omega)
    (by omega) he
  simp only [zero_add, add_zero, List.take_zero, List.nil_append, List.drop_zero,
    List.take_length] at h1 h2
  rw [h2, h1, List.take_of_length_le (by rw [slice_length])]

theorem composePath_fits (uri_len : ℕ) (h4 : 4 ≤ uri_len)
    (hrange : path.length+(uri_len-4) < 2^31) (hfit : path.length+(uri_len-4) < sr.cap) :
    ∃ p, composePath sr path (path.length:ℤ) uri uri_len 4 = .ok p ∧
      p.text = path++slice (offset uri 4) (uri_len-4) ∧ p.len = path.length+(uri_len-4) := by
  have hcount : u64 ((uri_len:ℤ)-(4:ℕ)) = uri_len-4 := by
    rw [show (uri_len:ℤ)-(4:ℕ) = ((uri_len-4:ℕ):ℤ) by omega, u64_natCast _ (by omega)]
  have hlen : u64 (abs32 (i32 ((path.length:ℤ)+uri_len-(4:ℕ)))) = path.length+(uri_len-4) := by
    rw [show (path.length:ℤ)+uri_len-(4:ℕ) = ((path.length+(uri_len-4):ℕ):ℤ) by omega,
      i32_natCast _ hrange, abs32, if_neg (by omega), u64_natCast _ (by omega)]
  obtain ⟨d,hd⟩ := (fill_ok_iff path 0 path.length 0 sr.data).mpr (.inr ⟨by omega,by omega⟩)
  obtain ⟨e,he⟩ := (fill_ok_iff (slice (offset uri 4) (uri_len-4)) path.length (uri_len-4) 0 d).mpr
    (.inr ⟨by rw [slice_length]; omega,by omega⟩)
  refine ⟨⟨sr.cap,e.set _ 0 hfit,sr.isStatic,path.length+(uri_len-4)⟩,?_,?_,rfl⟩
  · rw [composePath, u64_natCast _ (by omega), hd]
    simp only [Except.bind, hcount, hlen, Int.toNat_natCast, he, store_ok hfit, Except.map]
  · show (e.set (path.length+(uri_len-4)) 0 hfit).toList.take (path.length+(uri_len-4)) = _
    rw [set_take _ _ _ _ _ le_rfl]
    exact copies_text sr path (offset uri 4) (uri_len-4) d e hfit.le hd he

end Compose

/-- The buffer is large enough for the path: at least the four bytes of the
URI that are dropped are to spare. -/
theorem chooseBuffer_fits (sr q : RealPath) (n : ℕ) (alloc : Option (ℕ → UInt8)) (hs : sr.Valid)
    (hn : n < 2^32-1) (h4 : 4 ≤ n) (h : chooseBuffer sr n alloc = some q) : n-4 < q.cap := by
  rw [chooseBuffer] at h
  obtain ⟨hlen,hkind⟩ := hs
  by_cases hlarge : sr.len < n ∧ pathBase < n
  · rw [if_pos hlarge] at h
    obtain ⟨mem,-,rfl⟩ := Option.map_eq_some_iff.mp h
    show n-4 < u32 (n+1)
    rw [show (n:ℤ)+1 = ((n+1:ℕ):ℤ) by omega, u32_natCast _ (by omega)]
    omega
  · rw [if_neg hlarge] at h
    cases h
    have hcap : pathBase ≤ sr.cap := by
      split_ifs at hkind
      · exact hkind.ge
      · exact hkind.le
    simp only [pathBase] at hcap hlarge
    omega

theorem chooseBuffer_cap (n : ℕ) (sr q : RealPath) (alloc : Option (ℕ → UInt8))
    (hs : sr.cap = pathBase) (h : chooseBuffer sr n alloc = some q) : q.cap < 2^32 := by
  rw [chooseBuffer] at h
  split_ifs at h
  · obtain ⟨mem,-,rfl⟩ := Option.map_eq_some_iff.mp h
    show u32 (n+1) < 2^32
    simp only [u32]
    omega
  · cases h
    rw [hs]
    decide

/-- The rest of the URI behind `/ddr`. -/
theorem ddr_slice (u : List UInt8) (rest : ℕ → UInt8) (h4 : 4 ≤ u.length) :
    slice (offset (layout u rest) 4) (u.length-4) = u.drop 4 := by
  have hsplit : u = u.take 4++(u.drop 4++[]) := by simp
  have hlen : (u.take 4).length = 4 := by
    rw [List.length_take]
    omega
  have h := slice_layout (u.take 4) (u.drop 4) [] rest
  rwa [← hsplit, hlen, List.length_drop] at h

/-- The one integer without an absolute value gives a length beyond memory. -/
theorem abs_range (x : ℤ) (h : u64 (abs32 (i32 x)) < 2^32) : u64 (abs32 (i32 x)) < 2^31 := by
  have hx : -2^31 ≤ i32 x ∧ i32 x < 2^31 := by
    simp only [i32, u32]
    split_ifs <;> omega
  by_cases hneg : i32 x < 0
  · rw [abs32, if_pos hneg] at h ⊢
    by_cases hmin : i32 x = -2^31
    · rw [hmin] at h
      exact absurd h (by decide)
    · rw [i32_of_range (-i32 x) (by omega) (by omega), u64_of_range _ (by omega) (by omega)]
      omega
  · rw [abs32, if_neg hneg, u64_of_range _ (by omega) (by omega)]
    omega

theorem override_inv (fileInfo : List UInt8 → Bool) (sr : RealPath)
    (alloc : Option (ℕ → UInt8)) (uri : ℕ → UInt8) (uri_len uri_offset : ℕ) (path : List UInt8)
    (len : ℤ) (r : Option RealPath × ℤ)
    (h : overrideDocroot fileInfo sr alloc uri uri_len uri_offset path len = .ok r) :
    chooseBuffer sr (u32 (uri_len+len)) alloc = none ∨
      ∃ q p, chooseBuffer sr (u32 (uri_len+len)) alloc = some q ∧
        composePath q path len uri uri_len uri_offset = .ok p ∧ r.1 = some p := by
  rw [overrideDocroot] at h
  cases hq : chooseBuffer sr (u32 (uri_len+len)) alloc with
  | none => exact .inl rfl
  | some q =>
    rw [hq] at h
    obtain ⟨p,hp,rfl⟩ := map_ok h
    exact .inr ⟨q,p,rfl,hp,rfl⟩

section Confinement

variable (root u : Region) (rest : ℕ → UInt8)

theorem composed_range (sr p : RealPath) (hcap : sr.cap < 2^32)
    (h : composePath sr root.bytes (i32 root.bytes.length) (layout u.bytes rest) u.bytes.length 4 =
      .ok p) (hp : p.len = root.bytes.length+(u.bytes.length-4)) :
    4 ≤ u.bytes.length ∧ root.bytes.length+(u.bytes.length-4) < 2^31 := by
  obtain ⟨d,e,-,he,hn,rfl⟩ := composePath_inv _ _ _ _ _ _ _ h
  have hu := u.size
  have htail := (fill_ok_iff _ _ _ _ _).mp ⟨e,he⟩
  constructor
  · by_contra hshort
    simp only [u64] at htail
    omega
  · rw [← hp]
    exact abs_range _ (hn.trans hcap)

theorem composed_text (sr p : RealPath) (h4 : 4 ≤ u.bytes.length)
    (hrange : root.bytes.length+(u.bytes.length-4) < 2^31)
    (h : composePath sr root.bytes (i32 root.bytes.length) (layout u.bytes rest) u.bytes.length 4 =
      .ok p) (hfit : root.bytes.length+(u.bytes.length-4) < sr.cap) :
    p.text = root.bytes++u.bytes.drop 4 := by
  obtain ⟨q,hq,htext,-⟩ := composePath_fits sr root.bytes (layout u.bytes rest) u.bytes.length h4
    hrange hfit
  rw [i32_natCast _ (by omega), hq] at h
  rw [← Except.ok.inj h, htext, ddr_slice u.bytes rest h4]

theorem ddr_tail_iff (hd : u.bytes.take 4 = ddr) :
    (u.bytes = ddr ∨ ddr++[slash] <+: u.bytes) ↔
      (u.bytes.drop 4 = [] ∨ (u.bytes.drop 4).head? = some slash) := by
  have hsplit : u.bytes = ddr++u.bytes.drop 4 := by
    rw [← hd, List.take_append_drop]
  rw [hsplit, List.prefix_append_right_inj]
  generalize u.bytes.drop 4 = tail
  have hdrop : (ddr++tail).drop 4 = tail := rfl
  rw [hdrop]
  cases tail with
  | nil => simp
  | cons c tail => simp [List.cons_prefix_cons, eq_comm]

theorem confined_form (hd : 4 ≤ u.bytes.length → u.bytes.take 4 = ddr)
    (h : Confined root.bytes u.bytes rest) :
    (u.bytes = ddr ∨ ddr++[slash] <+: u.bytes) ∧
      root.bytes.length+(u.bytes.length-4) < 2^31 := by
  let sr : RealPath := ⟨pathBase,Vector.replicate pathBase 0,true,0⟩
  obtain ⟨r,hr,hpath⟩ := h (fun _ => true) sr (some fun _ => 0) ⟨by decide,rfl⟩
  rcases override_inv _ _ _ _ _ _ _ _ _ hr with hnone | ⟨q,p,hq,hp,hrp⟩
  · rw [chooseBuffer] at hnone
    split_ifs at hnone
    cases hnone
  · obtain ⟨⟨tail,htail,hform⟩,hlen⟩ := hpath p hrp
    have hcap := chooseBuffer_cap _ sr q _ rfl hq
    obtain ⟨h4,hrange⟩ := composed_range root u rest q p hcap hp hlen
    have hfit : p.len < q.cap := by
      obtain ⟨d,e,-,-,hn,rfl⟩ := composePath_inv _ _ _ _ _ _ _ hp
      exact hn
    have htext := composed_text root u rest q p h4 hrange hp (hlen ▸ hfit)
    rw [htext] at htail
    rw [← List.append_cancel_left htail] at hform
    exact ⟨(ddr_tail_iff u (hd h4)).mpr hform,hrange⟩

theorem form_confined (hd : 4 ≤ u.bytes.length → u.bytes.take 4 = ddr)
    (hform : u.bytes = ddr ∨ ddr++[slash] <+: u.bytes)
    (hrange : root.bytes.length+(u.bytes.length-4) < 2^31) :
    Confined root.bytes u.bytes rest := by
  intro fileInfo sr alloc hs
  have h4 : 4 ≤ u.bytes.length := by
    rcases hform with he | hp
    · rw [he]
      decide
    · exact le_trans (by decide) hp.length_le
  have htail := (ddr_tail_iff u (hd h4)).mp hform
  have hlen : u32 ((u.bytes.length:ℤ)+root.bytes.length) =
      u.bytes.length+root.bytes.length := by
    rw [← Nat.cast_add, u32_natCast _ (by omega)]
  rw [ddrOverride, overrideDocroot, i32_natCast _ (by omega), hlen]
  cases hq : chooseBuffer sr (u.bytes.length+root.bytes.length) alloc with
  | none => exact ⟨_,rfl,fun p hp => by cases hp⟩
  | some q =>
    have hcap := chooseBuffer_fits sr q _ alloc hs (by omega) (by omega) hq
    obtain ⟨p,hp,htext,hplen⟩ := composePath_fits q root.bytes (layout u.bytes rest)
      u.bytes.length h4 hrange (by omega)
    refine ⟨(some p,if fileInfo p.text then 0 else -1),?_,?_⟩
    · simp only [hp, Except.map]
    · intro p' hp'
      rw [← Option.some.inj hp', htext, ddr_slice u.bytes rest h4]
      exact ⟨⟨u.bytes.drop 4,rfl,htail⟩,hplen⟩

/-- The path of a request for a static file stays below the document root, and
inside its buffer, exactly when the URI is `/ddr` or goes on with a slash and
the length of the path is in the range of an integer. -/
theorem ddr_confined_iff (hd : ddrRequest (layout u.bytes rest) = true) :
    Confined root.bytes u.bytes rest ↔
      (u.bytes = ddr ∨ ddr++[slash] <+: u.bytes) ∧
        root.bytes.length+(u.bytes.length-4) < 2^31 := by
  have hcmp : slice (layout u.bytes rest) 4 = ddr :=
    (strncmp_text ⟨ddr,by decide⟩ (layout u.bytes rest)).mp hd
  have htake : 4 ≤ u.bytes.length → u.bytes.take 4 = ddr := fun h4 => by
    rw [← slice_take u.bytes rest 4 h4, hcmp]
  constructor
  · exact confined_form root u rest htake
  · exact fun h => form_confined root u rest htake h.1 h.2

end Confinement

/-- `/ddr/x` under the root `/w`. -/
theorem ddr_file_confined : Confined [47,119] [47,100,100,114,47,120] (fun _ => 0) :=
  (ddr_confined_iff ⟨[47,119],by decide⟩ ⟨[47,100,100,114,47,120],by decide⟩ (fun _ => 0)
    (by decide)).mpr ⟨.inr (by decide),by decide⟩

/-- `/ddrx` is taken for such a request too: under the root `/w` it names the
sibling `/wx`. -/
theorem ddr_sibling :
    ddrRequest (cstr [47,100,100,114,120]) = true ∧
    (∃ p, ddrOverride (fun _ => true) ⟨pathBase,Vector.replicate pathBase 0,true,0⟩ none
        (cstr [47,100,100,114,120]) 5 [47,119] = .ok (some p,0) ∧ p.text = [47,119,120]) ∧
    ¬Confined [47,119] [47,100,100,114,120] (fun _ => 0) := by
  refine ⟨by decide,⟨_,rfl,by decide⟩,?_⟩
  intro h
  obtain ⟨r,hr,hp⟩ := h (fun _ => true) ⟨pathBase,Vector.replicate pathBase 0,true,0⟩ none
    ⟨by decide,rfl⟩
  cases hr
  obtain ⟨⟨tail,htail,hform⟩,-⟩ := hp _ rfl
  have htext : tail = [120] := (List.append_right_inj [47,119]).mp htail.symm
  rw [htext] at hform
  exact absurd hform (by decide)

end Duda.DocumentRoot
