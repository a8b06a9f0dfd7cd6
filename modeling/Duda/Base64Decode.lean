import Duda.Base64

/-!
# Base64 as the packages decode it

`base64_decode` counts the characters that its table knows, allocates as many
bytes and goes over the input a second time. Characters that the table does not
know are passed over, and `=` counts as a digit zero. What the last group was
padded with is taken off the length at the end, after whole groups have been
written.
-/

set_option autoImplicit false

namespace Duda.Base64Decode
open Duda.Base64 Duda.CheckedMemory

section Source

/-- `dtable`, after both assignments to it. -/
def dtable : Vector UInt8 256 :=
  ((List.range 64).foldl (fun d i => d.set (tableAt i).toNat (UInt8.ofNat i) (tableAt i).toNat_lt)
    (Vector.replicate 256 128)).set padding.toNat 0 padding.toNat_lt

def lookup (c : UInt8) : UInt8 := dtable.get ⟨c.toNat,c.toNat_lt⟩

def known (c : UInt8) : Bool := lookup c != 128

def group (w x y z : UInt8) : List UInt8 :=
  [UInt8.ofNat (w.toNat <<< 2 ||| x.toNat >>> 4),UInt8.ofNat (x.toNat <<< 4 ||| y.toNat >>> 2),
    UInt8.ofNat (y.toNat <<< 6 ||| z.toNat)]

/-- The variables of the second loop; `chars` is the array `in`. -/
structure Decoding (n : ℕ) where
  chars : Vector UInt8 4
  block : Vector UInt8 4
  count : ℕ
  pos : ℕ
  out : Vector UInt8 n

def decodeStep {n : ℕ} (s : Decoding n) (c : UInt8) : Except Access (Decoding n) :=
  let tmp := lookup c
  if tmp = 128 then .ok s
  else
    (store s.chars s.count c).bind fun chars =>
      (store s.block s.count tmp).bind fun block =>
        if s.count+1 = 4 then
          (put (group (block.get 0) (block.get 1) (block.get 2) (block.get 3)) s.pos s.out).map fun out =>
            ⟨chars,block,0,s.pos+3,out⟩
        else .ok ⟨chars,block,s.count+1,s.pos,s.out⟩

def decodeLoop {n : ℕ} : List UInt8 → Decoding n → Except Access (Decoding n)
  | [], s => .ok s
  | c::src, s => (decodeStep s c).bind (decodeLoop src)

def outLen {n : ℕ} (s : Decoding n) : ℕ :=
  if 0 < s.pos then
    if s.chars.get 2 = padding then s.pos-2
    else if s.chars.get 3 = padding then s.pos-1
    else s.pos
  else s.pos

/-- What the arrays hold at first. -/
structure Uninit where
  chars : Vector UInt8 4
  block : Vector UInt8 4
  out : ℕ → UInt8

/-- `base64_decode`: nothing, or the block of `out` and `out_len`. -/
def base64Decode (uninit : Uninit) (src : List UInt8) :
    Except Access (Option (List UInt8 × ℕ)) :=
  let count := src.countP known
  if count%4 ≠ 0 then .ok none
  else
    (decodeLoop src ⟨uninit.chars,uninit.block,0,0,
      Vector.ofFn fun i : Fin count => uninit.out i⟩).map fun s => some (s.out.toList,outLen s)

end Source

section Meaning

def groups : List UInt8 → List UInt8
  | a::b::c::d::src => group (lookup a) (lookup b) (lookup c) (lookup d)++groups src
  | _ => []

def trailing : List UInt8 → ℕ
  | [_,_,c,d] => if c = padding then 2 else if d = padding then 1 else 0
  | _::_::_::_::src => trailing src
  | _ => 0

def decoded (src : List UInt8) : List UInt8 :=
  (groups (src.filter known)).take
    ((groups (src.filter known)).length-trailing (src.filter known))

end Meaning

section Loop

variable {n : ℕ}

/-- The characters that the table does not know are passed over. -/
theorem loop_filter (src : List UInt8) (s : Decoding n) :
    decodeLoop src s = decodeLoop (src.filter known) s := by
  induction src generalizing s with
  | nil => rfl
  | cons c src ih =>
    by_cases hc : lookup c = 128
    · have hunknown : known c = false := by simp [known, hc]
      rw [List.filter_cons_of_neg (by simp [hunknown]), ← ih, decodeLoop, decodeStep, if_pos hc]
      rfl
    · have hknown : known c = true := by simp [known, hc]
      rw [List.filter_cons_of_pos hknown, decodeLoop, decodeLoop]
      congr 1
      funext t
      exact ih t

theorem four_set (v : Vector UInt8 4) (a b c d : UInt8) (h0 : 0 < 4) (h1 : 1 < 4) (h2 : 2 < 4)
    (h3 : 3 < 4) : (((v.set 0 a h0).set 1 b h1).set 2 c h2).set 3 d h3 = #v[a,b,c,d] := by
  apply Vector.ext
  intro i hi
  interval_cases i <;> simp

theorem group_length (w x y z : UInt8) : (group w x y z).length = 3 := rfl

theorem loop_group (a b c d : UInt8) (src : List UInt8) (s : Decoding n) (hs : s.count = 0)
    (hk : ∀ x ∈ [a,b,c,d], known x = true) (hfit : s.pos+3 ≤ n) :
    ∃ out, decodeLoop (a::b::c::d::src) s =
        decodeLoop src ⟨#v[a,b,c,d],#v[lookup a,lookup b,lookup c,lookup d],0,s.pos+3,out⟩ ∧
      out.toList.take (s.pos+3) =
        s.out.toList.take s.pos++group (lookup a) (lookup b) (lookup c) (lookup d) := by
  obtain ⟨out,hout,htake⟩ := put_ok (group (lookup a) (lookup b) (lookup c) (lookup d)) s.pos
    s.out (by rw [group_length]; exact hfit)
  refine ⟨out,?_,htake⟩
  have hne : ∀ x ∈ [a,b,c,d], lookup x ≠ 128 := by
    intro x hx
    simpa [known] using hk x hx
  obtain ⟨chars,block,count,pos,o⟩ := s
  simp only at hs hout ⊢
  subst hs
  simp only [decodeLoop, decodeStep, store, if_neg (hne a (by simp)), if_neg (hne b (by simp)),
    if_neg (hne c (by simp)), if_neg (hne d (by simp)), Except.bind, Nat.reduceLT, Nat.reduceAdd,
    dif_pos, Nat.reduceEqDiff, if_false, if_true]
  rw [four_set, four_set]
  have hgroup : put (group (#v[lookup a,lookup b,lookup c,lookup d].get 0)
      (#v[lookup a,lookup b,lookup c,lookup d].get 1)
      (#v[lookup a,lookup b,lookup c,lookup d].get 2)
      (#v[lookup a,lookup b,lookup c,lookup d].get 3)) pos o = .ok out := hout
  rw [hgroup]
  rfl

theorem trailing_group (a b c d : UInt8) (src : List UInt8) (h : src ≠ []) :
    trailing (a::b::c::d::src) = trailing src := by
  cases src with
  | nil => exact absurd rfl h
  | cons e src => rfl

theorem no_group (src : List UInt8) (hlen : src.length%4 = 0)
    (h : ∀ a b c d rest, src = a::b::c::d::rest → False) : src = [] :=
  match src, h, hlen with
  | [], _, _ => rfl
  | a::b::c::d::rest, h, _ => (h a b c d rest rfl).elim

theorem outLen_group (a b c d : UInt8) (t : Decoding n) (hc : t.chars = #v[a,b,c,d])
    (hp : 0 < t.pos) : outLen t = t.pos-trailing [a,b,c,d] := by
  have h2 : t.chars.get 2 = c := by rw [hc]; rfl
  have h3 : t.chars.get 3 = d := by rw [hc]; rfl
  rw [outLen, if_pos hp, h2, h3, trailing]
  split_ifs <;> rfl

/-- Whole groups of known characters are written one behind the other, and the
last group remains in `in`. -/
theorem loop_groups (src : List UInt8) (s : Decoding n) (hs : s.count = 0)
    (hk : ∀ x ∈ src, known x = true) (hlen : src.length%4 = 0)
    (hfit : s.pos+(groups src).length ≤ n) :
    ∃ t, decodeLoop src s = .ok t ∧ t.pos = s.pos+(groups src).length ∧
      t.out.toList.take t.pos = s.out.toList.take s.pos++groups src ∧
      (src ≠ [] → outLen t = t.pos-trailing src) ∧ (src = [] → t = s) := by
  induction src using groups.induct generalizing s with
  | case1 a b c d src ih =>
    have hroom : s.pos+3+(groups src).length ≤ n := by
      rw [groups, List.length_append, group_length] at hfit
      omega
    obtain ⟨out,hgroup,hwritten⟩ := loop_group a b c d src s hs
      (fun x hx => hk x (by simp only [List.mem_cons, List.not_mem_nil] at hx ⊢; tauto)) (by omega)
    obtain ⟨t,hrun,hpos,htake,htrail,hend⟩ := ih
      ⟨#v[a,b,c,d],#v[lookup a,lookup b,lookup c,lookup d],0,s.pos+3,out⟩ rfl
      (fun x hx => hk x (by simp [hx])) (by simp only [List.length_cons] at hlen; omega) hroom
    refine ⟨t,hgroup.trans hrun,?_,?_,?_,by simp⟩
    · rw [hpos, groups, List.length_append, group_length, ← Nat.add_assoc]
    · rw [htake, groups, ← List.append_assoc]
      exact congrArg (·++groups src) hwritten
    · intro _
      by_cases hsrc : src = []
      · subst hsrc
        rw [hend rfl]
        exact outLen_group a b c d _ rfl (by simp)
      · rw [htrail hsrc, trailing_group a b c d src hsrc]
  | case2 src h =>
    obtain rfl := no_group src hlen h
    exact ⟨s,rfl,by simp [groups],by simp [groups],by simp,fun _ => rfl⟩

theorem groups_length (src : List UInt8) (hlen : src.length%4 = 0) :
    (groups src).length+src.length/4 = src.length := by
  induction src using groups.induct with
  | case1 a b c d src ih =>
    simp only [List.length_cons] at hlen ⊢
    rw [groups, List.length_append, group_length]
    omega
  | case2 src h =>
    obtain rfl := no_group src hlen h
    rfl

theorem trailing_le (src : List UInt8) (hlen : src.length%4 = 0) :
    trailing src ≤ (groups src).length := by
  induction src using groups.induct with
  | case1 a b c d src ih =>
    have hrest := ih (by simp only [List.length_cons] at hlen; omega)
    rw [groups, List.length_append, group_length]
    by_cases hsrc : src = []
    · rw [hsrc, trailing]
      split_ifs <;> omega
    · rw [trailing_group a b c d src hsrc]
      omega
  | case2 src h =>
    obtain rfl := no_group src hlen h
    exact Nat.le_refl 0

end Loop

section Decoder

variable (uninit : Uninit) (src : List UInt8)

theorem decoded_length :
    (decoded src).length =
      (groups (src.filter known)).length-trailing (src.filter known) := by
  rw [decoded, List.length_take]
  omega

/-- Every input: no write leaves the block, and where the number of known characters
allows it the result is the bytes the characters stand for. -/
theorem decode_groups (h : src.countP known%4 = 0) :
    ∃ out, base64Decode uninit src = .ok (some (out,(decoded src).length)) ∧
      out.length = src.countP known ∧ out.take (decoded src).length = decoded src := by
  have hcount : (src.filter known).length = src.countP known := List.countP_eq_length_filter.symm
  have hfour : (src.filter known).length%4 = 0 := by rw [hcount, h]
  have hgroups := groups_length _ hfour
  have htrail := trailing_le _ hfour
  obtain ⟨t,hrun,hpos,htake,hout,hend⟩ := loop_groups (src.filter known)
    ⟨uninit.chars,uninit.block,0,0,Vector.ofFn fun i : Fin (src.countP known) => uninit.out i⟩ rfl
    (fun x hx => (List.mem_filter.mp hx).2) hfour (by simp only; omega)
  have hlen : outLen t = (decoded src).length := by
    rw [decoded_length]
    by_cases hnone : src.filter known = []
    · rw [hend hnone, hnone]
      rfl
    · rw [hout hnone, hpos, Nat.zero_add]
  refine ⟨t.out.toList,?_,Vector.length_toList,?_⟩
  · rw [base64Decode, if_neg (by simp [h]), loop_filter, hrun]
    simp only [Except.map, hlen]
  · rw [List.take_zero, List.nil_append, hpos, Nat.zero_add] at htake
    have hcut := congrArg (List.take (decoded src).length) htake
    rw [decoded_length, List.take_take, Nat.min_eq_left (Nat.sub_le _ _)] at hcut
    rw [decoded_length, hcut, decoded]

end Decoder

section RoundTrip

theorem lookup_table : ∀ i < 64, lookup (tableAt i) = UInt8.ofNat i := by decide +kernel

theorem lookup_digit (v k : ℕ) : (lookup (digit v k)).toNat = v/64^k%64 := by
  have hlt : v/64^k%64 < 64 := Nat.mod_lt _ (by decide)
  rw [digit, lookup_table _ hlt, UInt8.toNat_ofNat']
  omega

theorem lookup_padding : lookup padding = 0 := by decide +kernel

theorem text_known (src : List UInt8) : ∀ x ∈ base64Text src, known x = true := by
  have htable : ∀ x ∈ base64Table, known x = true := by decide +kernel
  intro x hx
  rcases text_chars src x hx with h | rfl
  · exact htable x h
  · decide +kernel

theorem digit_ne_padding (v k : ℕ) : digit v k ≠ padding := by
  have htable : padding ∉ base64Table := by decide +kernel
  intro h
  exact htable (h ▸ digit_mem v k)

variable (a b c : UInt8)

theorem group_whole (w x y z : UInt8) (hw : w.toNat = a.toNat/4)
    (hx : x.toNat = a.toNat%4*16+b.toNat/16) (hy : y.toNat = b.toNat%16*4+c.toNat/64)
    (hz : z.toNat = c.toNat%64) : group w x y z = [a,b,c] := by
  have ha := byte_lt a
  have hb := byte_lt b
  have hc := byte_lt c
  have hbyte : ∀ (n : ℕ) (u : UInt8), n%256 = u.toNat → UInt8.ofNat n = u := by
    intro n u h
    rw [← UInt8.toNat_inj, UInt8.toNat_ofNat']
    exact h
  simp only [group, hw, hx, hy, hz, Nat.shiftRight_eq_div_pow, List.cons.injEq, and_true]
  refine ⟨hbyte _ _ ?_,hbyte _ _ ?_,hbyte _ _ ?_⟩
  · rw [shift_or _ _ 2 (by omega)]
    omega
  · rw [shift_or _ _ 4 (by omega)]
    omega
  · rw [shift_or _ _ 6 (by omega)]
    omega

theorem trailing_whole (v : ℕ) (src : List UInt8) :
    trailing ([digit v 3,digit v 2,digit v 1,digit v 0]++base64Text src) =
      trailing (base64Text src) := by
  by_cases hsrc : base64Text src = []
  · rw [hsrc, List.append_nil, trailing, if_neg (digit_ne_padding v 1),
      if_neg (digit_ne_padding v 0)]
    rfl
  · exact trailing_group _ _ _ _ _ hsrc

/-- The groups of a text are the bytes it encodes, behind which stand those that the
padding takes off. -/
theorem groups_text (src : List UInt8) :
    ∃ z, groups (base64Text src) = src++z ∧ z.length = trailing (base64Text src) := by
  induction src using base64Text.induct with
  | case1 a b c src ih =>
    obtain ⟨z,hz,hlen⟩ := ih
    obtain ⟨h3,h2,h1,h0⟩ := groupValue_digits a b c
    have hgroup := group_whole a b c _ _ _ _ ((lookup_digit (groupValue a b c) 3).trans h3)
      ((lookup_digit _ 2).trans h2) ((lookup_digit _ 1).trans h1) ((lookup_digit _ 0).trans h0)
    refine ⟨z,?_,?_⟩
    · rw [base64Text, List.cons_append, List.cons_append, List.cons_append, List.cons_append,
        List.nil_append, groups, hgroup, hz]
      rfl
    · rw [base64Text, trailing_whole, hlen]
  | case2 a b =>
    obtain ⟨h3,h2,h1,_⟩ := groupValue_digits a b 0
    have hgroup := group_whole a b 0 _ _ _ (lookup padding)
      ((lookup_digit (groupValue a b 0) 3).trans h3) ((lookup_digit _ 2).trans h2)
      ((lookup_digit _ 1).trans h1) (by rw [lookup_padding]; rfl)
    refine ⟨[0],?_,?_⟩
    · rw [base64Text, groups, hgroup]
      rfl
    · rw [base64Text, trailing, if_neg (digit_ne_padding _ 1), if_pos rfl]
      rfl
  | case3 a =>
    obtain ⟨h3,h2,_,_⟩ := groupValue_digits a 0 0
    have hgroup := group_whole a 0 0 _ _ (lookup padding) (lookup padding)
      ((lookup_digit (groupValue a 0 0) 3).trans h3) ((lookup_digit _ 2).trans h2)
      (by rw [lookup_padding]; rfl) (by rw [lookup_padding]; rfl)
    refine ⟨[0,0],?_,?_⟩
    · rw [base64Text, groups, hgroup]
      rfl
    · rw [base64Text, trailing, if_pos rfl]
      rfl
  | case4 => exact ⟨[],rfl,rfl⟩

theorem decoded_text (src text : List UInt8) (h : text.filter known = base64Text src) :
    decoded text = src := by
  obtain ⟨z,hz,hlen⟩ := groups_text src
  rw [decoded, h, hz, ← hlen, List.length_append, Nat.add_sub_cancel, List.take_left]

theorem text_count (src text : List UInt8) (h : text.filter known = base64Text src) :
    text.countP known%4 = 0 := by
  rw [List.countP_eq_length_filter, h, text_length]
  omega

end RoundTrip

/-- On any input: a number of known characters that is no multiple of four is
refused, and otherwise every write stays in the block and the bytes returned are
those that the characters stand for. -/
theorem decode_every (uninit : Uninit) (src : List UInt8) :
    if src.countP known%4 = 0 then
      ∃ out, base64Decode uninit src = .ok (some (out,(decoded src).length)) ∧
        (decoded src).length ≤ out.length ∧ out.take (decoded src).length = decoded src
    else base64Decode uninit src = .ok none := by
  split_ifs with h
  · obtain ⟨out,hrun,hlen,htake⟩ := decode_groups uninit src h
    refine ⟨out,hrun,?_,htake⟩
    rw [← htake, List.length_take]
    exact Nat.min_le_right _ _
  · rw [base64Decode, if_pos h]

/-- Of an empty input the encoder writes in front of its block. -/
theorem encode_empty (encoding : ℕ → UInt8) :
    base64Encode encoding [] = .error (.write (2^64-1)) := rfl

/-- What the encoder returns, with any unknown characters put in, is decoded to the
bytes that were encoded. -/
theorem encode_decode (encoding : ℕ → UInt8) (uninit : Uninit) (src text : List UInt8)
    (block : Vector UInt8 (outSize src.length)) (len : ℕ) (hs : (base64Text src).length < 2^31)
    (he : base64Encode encoding src = .ok (block,len))
    (ht : text.filter known = (block.toList.take len).filter known) :
    ∃ out, base64Decode uninit text = .ok (some (out,src.length)) ∧ out.take src.length = src := by
  have hne : src ≠ [] := by
    rintro rfl
    rw [encode_empty] at he
    cases he
  obtain ⟨b,hb,htake⟩ := encode_spec encoding src hne hs
  rw [hb] at he
  cases he
  have hzero : [(0:UInt8)].filter known = [] := by decide +kernel
  have hfilter : text.filter known = base64Text src := by
    rw [ht, htake, List.filter_append, List.filter_eq_self.mpr (text_known src), hzero,
      List.append_nil]
  obtain ⟨out,hrun,_,hbytes⟩ := decode_groups uninit text (text_count src text hfilter)
  rw [decoded_text src text hfilter] at hrun hbytes
  exact ⟨out,hrun,hbytes⟩

/-- Three bytes, with a line feed inside the text. -/
theorem three_bytes_decode :
    ∃ out, base64Decode ⟨Vector.replicate 4 0,Vector.replicate 4 0,fun _ => 0⟩ [84,87,10,70,117] =
      .ok (some (out,3)) ∧ out.take 3 = [77,97,110] :=
  encode_decode (fun _ => 0) _ [77,97,110] [84,87,10,70,117] #v[84,87,70,117,0,0,0,0,0] 5
    (by decide) (by decide +kernel) (by decide +kernel)

end Duda.Base64Decode
