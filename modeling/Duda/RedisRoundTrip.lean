import Duda.Decimal
import Duda.RedisStream

/-!
# Replies survive the protocol

What a server writes for a reply is read back as that reply, whatever follows it
and wherever it stands in an array of arrays. With the results about pieces, a
stream of replies is read back in order however the network cuts it.
-/

set_option autoImplicit false

namespace Duda.RedisRoundTrip
open Duda.Decimal Duda.IncrementalParser Duda.MachineInt Duda.RedisReader Duda.RedisStream

def crlf : List UInt8 := [cr,lf]

mutual

/-- What a server sends for a reply. -/
def encode : Reply → List UInt8
  | .null => []
  | .nil => 36::(signed (-1)++crlf)
  | .integer v => 58::(signed v++crlf)
  | .string str => 36::(decimal str.length++crlf++str++crlf)
  | .status str => 43::(str++crlf)
  | .error str => 45::(str++crlf)
  | .array elements element => 42::(decimal elements++crlf++encodeAll element)

def encodeAll : List Reply → List UInt8
  | [] => []
  | r::rs => encode r++encodeAll rs

end

mutual

/-- The replies that the protocol can carry: numbers of 64 bits apart from the least one, lines
without a break, and arrays at most `k` deep. -/
def Fits : ℕ → Reply → Prop
  | _, .null => False
  | _, .nil => True
  | _, .integer v => -2^63 < v ∧ v < 2^63
  | _, .string _ => True
  | _, .status str => findBreak str = none
  | _, .error str => findBreak str = none
  | 0, .array _ _ => False
  | k+1, .array elements element => elements = element.length ∧ FitAll k element

def FitAll : ℕ → List Reply → Prop
  | _, [] => True
  | k, r::rs => Fits k r ∧ FitAll k rs

end

section Numbers

theorem findBreak_line (s t : List UInt8) (h : findBreak s = none) :
    findBreak (s++cr::lf::t) = some s.length := by
  induction s using findBreak.induct with
  | case1 c d s hb => simp [findBreak, hb] at h
  | case2 c d s hb ih =>
    rw [findBreak, if_neg hb, Option.map_eq_none_iff] at h
    rw [List.cons_append, List.cons_append, findBreak, if_neg hb, ← List.cons_append, ih h]
    rfl
  | case3 s hs =>
    cases s with
    | nil => rfl
    | cons c s =>
      cases s with
      | nil => simp [findBreak, cr, lf]
      | cons d s => exact absurd rfl (hs c d s)

theorem findBreak_none (s : List UInt8) (h : cr ∉ s) : findBreak s = none := by
  induction s using findBreak.induct with
  | case1 c d s hb => simp [hb.1] at h
  | case2 c d s hb ih =>
    rw [findBreak, if_neg hb, ih (fun hm => h (List.mem_cons_of_mem c hm))]
    rfl
  | case3 s hs => simp [findBreak]

theorem decimal_no_cr (n : ℕ) : cr ∉ decimal n := fun h => by
  have hd := decimal_isDigit n cr h
  exact absurd hd (by decide)

theorem readDigits_value (text t : List UInt8) (v : ℕ) (hd : ∀ c ∈ text, IsDigit c)
    (hv : value v text < 2^63) : readDigits (text++cr::t) v = some (value v text : ℤ) := by
  induction text generalizing v with
  | nil => simp [readDigits, value]
  | cons c text ih =>
    have hc : IsDigit c := hd c (by simp)
    have hstep : value v (c::text) = value (v*10+(c.toNat-48)) text := rfl
    have hle := value_mono text (v*10+(c.toNat-48))
    have hcr : c ≠ cr := by
      rintro rfl
      exact absurd hc (by decide)
    have hacc : i64 (i64 ((v:ℤ)*10)+((c.toNat:ℤ)-48)) = ((v*10+(c.toNat-48):ℕ):ℤ) := by
      have h48 := hc.1
      rw [i64_of_range ((v:ℤ)*10) (by omega) (by omega), i64_of_range _ (by omega) (by omega)]
      omega
    rw [List.cons_append, readDigits, if_neg hcr, if_pos ⟨hc.1,hc.2⟩, hacc, hstep]
    exact ih _ (fun c h => hd c (List.mem_cons_of_mem _ h)) (by omega)

theorem readLongLong_decimal (n : ℕ) (t : List UInt8) (h : n < 2^63) :
    readLongLong (decimal n++cr::t) = n := by
  have hs : readSign (decimal n++cr::t) = (1,decimal n++cr::t) := by
    obtain ⟨c,s,hc⟩ := List.exists_cons_of_ne_nil (decimal_ne_nil n)
    have hd : IsDigit c := decimal_isDigit n c (by simp [hc])
    have h45 : c ≠ 45 := by rintro rfl; exact absurd hd (by decide)
    have h43 : c ≠ 43 := by rintro rfl; exact absurd hd (by decide)
    simp [readSign, charAt, hc, h45, h43]
  have hv := readDigits_value (decimal n) t 0 (decimal_isDigit n) (by rwa [value_decimal])
  rw [value_decimal] at hv
  rw [readLongLong, hs]
  simp only [Nat.cast_zero] at hv
  simp only [hv, one_mul]
  exact i64_of_range _ (by omega) (by omega)

theorem readLongLong_signed (v : ℤ) (t : List UInt8) (h0 : -2^63 < v) (h : v < 2^63) :
    readLongLong (signed v++cr::t) = v := by
  rw [signed]
  split_ifs with hn
  · have hv := readDigits_value (decimal v.natAbs) t 0 (decimal_isDigit _)
      (by rw [value_decimal]; omega)
    rw [value_decimal, Nat.cast_zero] at hv
    simp only [readLongLong, readSign, charAt, List.cons_append, List.getD_cons_zero, if_true,
      List.drop_succ_cons, List.drop_zero, hv]
    rw [i64_of_range _ (by omega) (by omega)]
    omega
  · rw [readLongLong_decimal _ _ (by omega)]
    omega

theorem signed_no_cr (v : ℤ) : cr ∉ signed v := by
  rw [signed]
  split_ifs
  · intro h
    exact decimal_no_cr _ ((List.mem_cons.1 h).resolve_left (by decide))
  · exact decimal_no_cr _

end Numbers

section Places

theorem assign_cons {path : List ℕ} {j : ℕ} {y root r : Reply}
    (h : assign (j::path) y root = some r) :
    ∃ n es q q', root = .array n es ∧ es[j]? = some q ∧ assign path y q = some q' ∧
      r = .array n (es.set j q') := by
  cases root with
  | array n es =>
    rw [assign] at h
    cases he : es[j]? with
    | none => simp [he] at h
    | some q =>
      simp only [he, Option.map_eq_some_iff] at h
      obtain ⟨q',hq,rfl⟩ := h
      exact ⟨n,es,q,q',rfl,he,hq,rfl⟩
  | _ => simp [assign] at h

theorem assign_exists {path : List ℕ} {x root r : Reply} (y : Reply)
    (h : assign path x root = some r) : ∃ r', assign path y root = some r' := by
  induction path generalizing root r with
  | nil => exact ⟨y,rfl⟩
  | cons i path ih =>
    obtain ⟨n,es,q,q',rfl,he,hq,rfl⟩ := assign_cons h
    obtain ⟨q'',hq''⟩ := ih hq
    exact ⟨.array n (es.set i q''),by simp only [assign, he, hq'', Option.map_some]⟩

/-- What is assigned below the place of an object is assigned to the object first. -/
theorem assign_append {path : List ℕ} {i : ℕ} {y root r : Reply} (x : Reply)
    (h : assign path y root = some r) :
    assign (path++[i]) x r = (assign [i] x y).bind fun y => assign path y root := by
  induction path generalizing root r with
  | nil =>
    rw [assign, Option.some.injEq] at h
    subst h
    simp only [List.nil_append, assign.eq_1, Option.bind_fun_some]
  | cons j path ih =>
    obtain ⟨n,es,q,q',rfl,he,hq,rfl⟩ := assign_cons h
    have hj : j < es.length := (List.getElem?_eq_some_iff.1 he).1
    simp only [List.cons_append, assign, he, List.getElem?_set_self hj, ih hq, List.set_set,
      Option.map_bind, Function.comp_def]

theorem assign_slot {n i : ℕ} {es : List Reply} (x : Reply) (hi : i < es.length) :
    assign [i] x (.array n es) = some (.array n (es.set i x)) := by
  simp [assign, List.getElem?_eq_getElem hi]

theorem place_cons (cur prv : Task) (up : List Task) :
    place (cur::prv::up) = place (prv::up)++[cur.idx.toNat] := by
  simp [place]

theorem place_congr {a b : Task} (up : List Task) (h : a.idx = b.idx) :
    place (a::up) = place (b::up) := by
  cases up <;> simp [place, h]

theorem moveToNextTask_congr {a b : Task} (up : List Task) (h : a.idx = b.idx) :
    moveToNextTask (a::up) = moveToNextTask (b::up) := by
  cases up with
  | nil => rfl
  | cons prv up => simp only [moveToNextTask, h]

end Places

section Reading

def following (core : Core) (rest : List UInt8) : List Reply × Rest Core UInt8 Stop :=
  match core.rstack with
  | [] => (core.reply::(exhaust step fresh rest).1,(exhaust step fresh rest).2)
  | _::_ => exhaust step core rest

theorem exhaust_finish {core : Core} {buf : List UInt8} {n : ℕ} {obj root : Reply}
    (h : itemPart core buf = finish core n obj)
    (ha : assign (place core.rstack) obj core.reply = some root) :
    exhaust step core buf = following ⟨moveToNextTask core.rstack,root⟩ (buf.drop n) := by
  have hstep : step core buf = emit (.take n ⟨moveToNextTask core.rstack,root⟩ []) := by
    rw [step, h, finish, createObject, ha]
    rfl
  cases hm : moveToNextTask core.rstack with
  | nil =>
    simp only [emit, hm] at hstep
    rw [exhaust_take step_steady hstep]
    rfl
  | cons cur rstack =>
    simp only [emit, hm] at hstep
    rw [exhaust_take step_steady hstep]
    rfl

theorem exhaust_type {byte : UInt8} {type : ReplyType} (ht : typeOf byte = some type) (e j : ℤ)
    (up : List Task) (root : Reply) (rest : List UInt8) :
    exhaust step ⟨⟨none,e,j⟩::up,root⟩ (byte::rest) =
      exhaust step ⟨⟨some type,e,j⟩::up,root⟩ rest := by
  have hstep : step ⟨⟨none,e,j⟩::up,root⟩ (byte::rest) =
      .take 1 ⟨⟨some type,e,j⟩::up,root⟩ [] := by
    simp only [step, itemPart, readType, ht, emit]
  rw [exhaust_take step_steady hstep]
  rfl

theorem seekNewline_line {text : List UInt8} (rest : List UInt8) (h : findBreak text = none)
    (hl : (text++crlf++rest).length < 2^31) :
    seekNewline (text++crlf++rest) = some text.length := by
  rw [seekNewline_eq _ hl, crlf, List.append_assoc]
  exact findBreak_line text rest h

theorem drop_line (text rest : List UInt8) :
    (text++crlf++rest).drop (text.length+2) = rest := by
  rw [show text.length+2 = (text++crlf).length by simp [crlf], List.drop_left]

theorem take_line (text rest : List UInt8) : (text++crlf++rest).take text.length = text := by
  rw [List.append_assoc, List.take_left]

variable {up : List Task} {j : ℤ} {root root' : Reply}

theorem item_read {byte : UInt8} {type : ReplyType} {buf : List UInt8} {n : ℕ} {obj : Reply}
    (ht : typeOf byte = some type)
    (hi : processTyped ⟨⟨some type,-1,j⟩::up,root⟩ buf type =
      finish ⟨⟨some type,-1,j⟩::up,root⟩ n obj)
    (ha : assign (place (⟨none,-1,j⟩::up)) obj root = some root') :
    exhaust step ⟨⟨none,-1,j⟩::up,root⟩ (byte::buf) =
      following ⟨moveToNextTask (⟨none,-1,j⟩::up),root'⟩ (buf.drop n) := by
  have hm : moveToNextTask (⟨some type,-1,j⟩::up) = moveToNextTask (⟨none,-1,j⟩::up) :=
    moveToNextTask_congr up rfl
  have ha' : assign (place (⟨some type,-1,j⟩::up)) obj root = some root' := by
    rw [← ha]
    exact congrArg (assign · obj root) (place_congr up rfl)
  have hpart : itemPart ⟨⟨some type,-1,j⟩::up,root⟩ buf =
      finish ⟨⟨some type,-1,j⟩::up,root⟩ n obj := hi
  rw [exhaust_type ht, exhaust_finish hpart ha', hm]

theorem readLongLong_line (v : ℤ) (rest : List UInt8) (h0 : -2^63 < v) (h : v < 2^63) :
    readLongLong (signed v++crlf++rest) = v := by
  rw [crlf, List.append_assoc]
  exact readLongLong_signed v _ h0 h

theorem readLongLong_count (n : ℕ) (rest : List UInt8) (h : n < 2^63) :
    readLongLong (decimal n++crlf++rest) = n := by
  rw [crlf, List.append_assoc]
  exact readLongLong_decimal n _ h

theorem line_length (text : List UInt8) : (text++crlf).length = text.length+2 := by simp [crlf]

theorem string_item (core : Core) (str rest : List UInt8)
    (hl : (decimal str.length++crlf++str++crlf++rest).length < 2^31) :
    processBulkItem core (decimal str.length++crlf++str++crlf++rest) =
      finish core (decimal str.length++crlf++str++crlf).length (.string str) := by
  have htext : decimal str.length++crlf++str++crlf++rest =
      decimal str.length++crlf++(str++crlf++rest) := by simp only [List.append_assoc]
  have htake : (decimal str.length++crlf++str++crlf).length =
      (decimal str.length).length+2+(str.length+2) := by
    simp only [crlf, List.length_append, List.length_cons, List.length_nil]
    omega
  rw [htake, htext]
  rw [htext] at hl
  have hlen : str.length < 2^31 := by
    simp only [List.length_append] at hl
    omega
  have hall : (decimal str.length).length+2+(str.length+2) ≤
      (decimal str.length++crlf++(str++crlf++rest)).length := by
    rw [← htext, List.length_append, htake]
    omega
  have hs := seekNewline_line (str++crlf++rest) (findBreak_none _ (decimal_no_cr str.length)) hl
  simp only [processBulkItem, hs, readLongLong_count str.length _ (by omega : str.length < 2^63),
    Int.toNat_natCast, if_pos hall, drop_line, take_line]
  rw [if_neg (by omega)]

theorem scalar_item (k : ℕ) (r : Reply) (rest : List UInt8) (hf : Fits k r)
    (hr : ∀ elements element, r ≠ .array elements element)
    (hl : (encode r++rest).length < 2^31) :
    ∃ byte type body, encode r = byte::body ∧ typeOf byte = some type ∧
      ∀ core, processTyped core (body++rest) type = finish core body.length r := by
  cases r with
  | null => simp [Fits] at hf
  | nil =>
    rw [encode] at hl
    refine ⟨_,.string,_,by rw [encode],rfl,fun core => ?_⟩
    have hs := seekNewline_line rest (findBreak_none _ (signed_no_cr (-1)))
      (Nat.le_of_succ_le hl)
    simp only [processTyped, processBulkItem, hs, line_length,
      readLongLong_line (-1) rest (by omega) (by omega)]
    rfl
  | integer v =>
    rw [encode] at hl
    rw [Fits] at hf
    refine ⟨_,.integer,_,by rw [encode],rfl,fun core => ?_⟩
    have hs := seekNewline_line rest (findBreak_none _ (signed_no_cr v)) (Nat.le_of_succ_le hl)
    simp only [processTyped, processLineItem, hs, line_length,
      readLongLong_line v rest hf.1 hf.2]
  | string str =>
    rw [encode] at hl
    refine ⟨_,.string,_,by rw [encode],rfl,fun core => ?_⟩
    exact string_item core str rest (Nat.le_of_succ_le hl)
  | status str =>
    rw [encode] at hl
    rw [Fits] at hf
    refine ⟨_,.status,_,by rw [encode],rfl,fun core => ?_⟩
    have hs := seekNewline_line rest hf (Nat.le_of_succ_le hl)
    simp only [processTyped, processLineItem, hs, line_length, take_line]
  | error str =>
    rw [encode] at hl
    rw [Fits] at hf
    refine ⟨_,.error,_,by rw [encode],rfl,fun core => ?_⟩
    have hs := seekNewline_line rest hf (Nat.le_of_succ_le hl)
    simp only [processTyped, processLineItem, hs, line_length, take_line]
  | array elements element => exact absurd rfl (hr elements element)

theorem scalar_read (k : ℕ) (r : Reply) (rest : List UInt8) (hf : Fits k r)
    (hr : ∀ elements element, r ≠ .array elements element)
    (hl : (encode r++rest).length < 2^31)
    (ha : assign (place (⟨none,-1,j⟩::up)) r root = some root') :
    exhaust step ⟨⟨none,-1,j⟩::up,root⟩ (encode r++rest) =
      following ⟨moveToNextTask (⟨none,-1,j⟩::up),root'⟩ rest := by
  obtain ⟨byte,type,body,he,ht,hi⟩ := scalar_item k r rest hf hr hl
  rw [he, List.cons_append, item_read ht (hi _) ha, List.drop_left]

end Reading

section Arrays

/-- That a reply of some depth is read at any place that is left for it. -/
def Readable (k : ℕ) (r : Reply) : Prop :=
  ∀ (up : List Task) (j : ℤ) (root root' : Reply) (rest : List UInt8), up.length+k = 3 →
    (encode r++rest).length < 2^31 →
    assign (place (⟨none,-1,j⟩::up)) r root = some root' →
    exhaust step ⟨⟨none,-1,j⟩::up,root⟩ (encode r++rest) =
      following ⟨moveToNextTask (⟨none,-1,j⟩::up),root'⟩ rest

theorem moveToNextTask_last (cur prv : Task) (up : List Task) (h : cur.idx = prv.elements-1) :
    moveToNextTask (cur::prv::up) = moveToNextTask (prv::up) := by
  rw [moveToNextTask, if_pos h]

theorem moveToNextTask_next (cur prv : Task) (up : List Task) (h : cur.idx ≠ prv.elements-1) :
    moveToNextTask (cur::prv::up) = ⟨none,-1,cur.idx+1⟩::prv::up := by
  rw [moveToNextTask, if_neg h]

theorem set_pending (done : List Reply) (n : ℕ) (e : Reply) :
    (done++List.replicate (n+1) Reply.null).set done.length e =
      (done++[e])++List.replicate n Reply.null := by
  rw [List.set_append_right _ _ (le_refl _), Nat.sub_self, List.replicate_succ, List.set_cons_zero]
  simp

theorem elements_read {k : ℕ} (prv : Task) (up : List Task) (root : Reply) (n : ℕ)
    (hk : (prv::up).length+k = 3) (hprv : prv.elements = n) (es done : List Reply)
    (hes : es ≠ []) (hn : n = done.length+es.length) (hr : ∀ e ∈ es, Readable k e)
    (root₁ root' : Reply) (rest : List UInt8) (hl : (encodeAll es++rest).length < 2^31)
    (h₁ : assign (place (prv::up)) (.array n (done++List.replicate es.length .null)) root =
      some root₁)
    (h' : assign (place (prv::up)) (.array n (done++es)) root = some root') :
    exhaust step ⟨⟨none,-1,done.length⟩::prv::up,root₁⟩ (encodeAll es++rest) =
      following ⟨moveToNextTask (prv::up),root'⟩ rest := by
  induction es generalizing done root₁ with
  | nil => exact absurd rfl hes
  | cons e es ih =>
    rw [List.length_cons] at hn
    rw [encodeAll, List.append_assoc] at hl ⊢
    -- the next root has this element in its place
    have hset : assign (place (⟨none,-1,(done.length:ℤ)⟩::prv::up)) e root₁ =
        assign (place (prv::up)) (.array n ((done++[e])++List.replicate es.length .null)) root := by
      rw [place_cons, Int.toNat_natCast, assign_append e h₁, assign_slot e (by simp),
        Option.bind_some, List.length_cons, set_pending]
    obtain ⟨root₂,h₂⟩ := assign_exists
      (.array n ((done++[e])++List.replicate es.length .null)) h'
    rw [hr e (by simp) (prv::up) done.length root₁ root₂ _ hk hl (hset.trans h₂)]
    cases es with
    | nil =>
      rw [moveToNextTask_last _ _ _ (by simp only [hprv, hn, List.length_nil]; omega)]
      simp only [List.length_nil, List.replicate_zero, List.append_nil, h', Option.some.injEq]
        at h₂
      rw [← h₂, encodeAll, List.nil_append]
    | cons f es =>
      rw [List.length_cons] at hn
      rw [moveToNextTask_next _ _ _ (by simp only [hprv, hn]; omega)]
      have hlen : (done.length:ℤ)+1 = ((done++[e]).length:ℕ) := by simp
      simp only [following, hlen]
      apply ih (done++[e]) (by simp) (by simp; omega) (fun e he => hr e (by simp [he])) root₂ _ h₂
      · simpa using h'
      · simp only [List.length_append] at hl ⊢
        omega

theorem encode_length (k : ℕ) (r : Reply) (hf : Fits k r) : 1 ≤ (encode r).length := by
  cases r with
  | null => simp [Fits] at hf
  | _ => simp [encode]

theorem fitAll_iff (k : ℕ) (es : List Reply) : FitAll k es ↔ ∀ e ∈ es, Fits k e := by
  induction es with
  | nil => simp [FitAll]
  | cons e es ih => simp [FitAll, ih]

theorem encodeAll_length (k : ℕ) (es : List Reply) (hf : FitAll k es) :
    es.length ≤ (encodeAll es).length := by
  induction es with
  | nil => simp
  | cons e es ih =>
    rw [FitAll] at hf
    have h1 := encode_length k e hf.1
    have h2 := ih hf.2
    rw [encodeAll, List.length_append, List.length_cons]
    omega

theorem arrayObject_natCast (n : ℕ) (h : n < 2^31) :
    arrayObject (i32 n) = .array n (List.replicate n .null) := by
  rw [i32_natCast n h, arrayObject, u64_natCast n (by omega), Int.toNat_natCast]

theorem header_read {up : List Task} {j : ℤ} {root root₁ : Reply} (n : ℕ) (text : List UInt8)
    (hup : up.length ≠ 3) (h0 : 0 < n) (hn : n < 2^31)
    (hl : (42::(decimal n++crlf++text)).length < 2^31)
    (h₁ : assign (place (⟨some .array,n,j⟩::up)) (.array n (List.replicate n .null)) root =
      some root₁) :
    exhaust step ⟨⟨none,-1,j⟩::up,root⟩ (42::(decimal n++crlf++text)) =
      exhaust step ⟨⟨none,-1,0⟩::⟨some .array,n,j⟩::up,root₁⟩ text := by
  have hs := seekNewline_line text (findBreak_none _ (decimal_no_cr n)) (Nat.le_of_succ_le hl)
  have hv := readLongLong_count n text (by omega)
  have hc : createObject ⟨⟨some .array,-1,j⟩::up,root⟩ (arrayObject (i32 n)) =
      some ⟨⟨some .array,-1,j⟩::up,root₁⟩ := by
    have hp : place (⟨some .array,-1,j⟩::up) = place (⟨some .array,n,j⟩::up) := place_congr up rfl
    rw [createObject, arrayObject_natCast n hn]
    simp only [hp, h₁, Option.map_some]
  have hstep : step ⟨⟨some .array,-1,j⟩::up,root⟩ (decimal n++crlf++text) =
      .take ((decimal n).length+2) ⟨⟨none,-1,0⟩::⟨some .array,n,j⟩::up,root₁⟩ [] := by
    simp only [step, itemPart, processTyped, processMultiBulkItem, if_neg hup, hs, hv, openArray,
      hc]
    rw [if_neg (by omega), if_pos (by omega), i32_natCast n hn]
    rfl
  rw [exhaust_type (show typeOf 42 = some .array from rfl), exhaust_take step_steady hstep,
    drop_line]
  rfl

theorem empty_readable (k : ℕ) : Readable (k+1) (.array 0 []) := by
  intro up j root root' rest hk hl ha
  have htext : encode (.array 0 []) = 42::(decimal 0++crlf) := by
    simp only [encode, encodeAll, List.append_nil]
  have hup : up.length ≠ 3 := by omega
  rw [htext] at hl ⊢
  have hs := seekNewline_line rest (findBreak_none _ (decimal_no_cr 0)) (Nat.le_of_succ_le hl)
  have hi : processTyped ⟨⟨some .array,-1,j⟩::up,root⟩ (decimal 0++crlf++rest) .array =
      finish ⟨⟨some .array,-1,j⟩::up,root⟩ (decimal 0++crlf).length (.array 0 []) := by
    simp only [processTyped, processMultiBulkItem, if_neg hup, hs, openArray, line_length,
      readLongLong_count 0 rest (by omega)]
    rw [if_neg (by omega), if_neg (by omega), arrayObject_natCast 0 (by omega)]
    rfl
  rw [List.cons_append, item_read rfl hi ha, List.drop_left]

theorem array_readable (k : ℕ) (es : List Reply) (hf : FitAll k es)
    (hr : ∀ e ∈ es, Readable k e) : Readable (k+1) (.array es.length es) := by
  intro up j root root' rest hk hl₀ ha
  have hl := hl₀
  have hlen := encodeAll_length k es hf
  have htext : encode (.array es.length es)++rest =
      42::(decimal es.length++crlf++(encodeAll es++rest)) := by
    simp only [encode, List.cons_append, List.append_assoc]
  rw [htext] at hl
  have hn : es.length < 2^31 := by
    simp only [List.length_cons, List.length_append] at hl
    omega
  have hp : place (⟨some .array,es.length,j⟩::up) = place (⟨none,-1,j⟩::up) := place_congr up rfl
  have hm : moveToNextTask (⟨some .array,es.length,j⟩::up) = moveToNextTask (⟨none,-1,j⟩::up) :=
    moveToNextTask_congr up rfl
  by_cases hes : es = []
  · subst hes
    exact empty_readable k up j root root' rest hk hl₀ ha
  · obtain ⟨root₁,h₁⟩ := assign_exists (.array es.length (List.replicate es.length .null)) ha
    rw [← hp] at h₁ ha
    rw [htext, header_read es.length _ (by omega) (List.length_pos_iff.2 hes) hn hl h₁]
    rw [← hm]
    apply elements_read ⟨some .array,es.length,j⟩ up root es.length (by simp; omega) rfl es []
      hes (by simp) hr root₁ root' rest _ h₁ ha
    simp only [List.length_cons, List.length_append] at hl ⊢
    omega

theorem fits_readable (k : ℕ) (r : Reply) (hf : Fits k r) : Readable k r := by
  induction k generalizing r with
  | zero =>
    intro up j root root' rest _ hl ha
    refine scalar_read 0 r rest hf ?_ hl ha
    rintro elements element rfl
    simp [Fits] at hf
  | succ k ih =>
    by_cases hr : ∃ elements element, r = .array elements element
    · obtain ⟨elements,element,rfl⟩ := hr
      rw [Fits] at hf
      obtain ⟨rfl,hall⟩ := hf
      exact array_readable k element hall
        (fun e he => ih e ((fitAll_iff k element).1 hall e he))
    · intro up j root root' rest _ hl ha
      exact scalar_read (k+1) r rest hf (fun elements element h => hr ⟨elements,element,h⟩) hl ha

end Arrays

section Streams

/-- Replies one after the other are put out one after the other. -/
theorem exhaust_encodeAll (replies : List Reply) (rest : List UInt8) (hf : FitAll 3 replies)
    (hl : (encodeAll replies++rest).length < 2^31) :
    exhaust step fresh (encodeAll replies++rest) =
      (replies++(exhaust step fresh rest).1,(exhaust step fresh rest).2) := by
  induction replies with
  | nil => rfl
  | cons r replies ih =>
    rw [FitAll] at hf
    rw [encodeAll, List.append_assoc] at hl ⊢
    have hfirst : exhaust step fresh (encode r++(encodeAll replies++rest)) =
        following ⟨[],r⟩ (encodeAll replies++rest) :=
      fits_readable 3 r hf.1 [] (-1) .null r _ rfl hl rfl
    rw [hfirst, following, ih hf.2]
    · rfl
    · simp only [List.length_append] at hl ⊢
      omega

theorem encodeAll_exhausted (replies : List Reply) (hf : FitAll 3 replies)
    (hl : (encodeAll replies).length < 2^31) :
    exhaust step fresh (encodeAll replies) = (replies,.waiting fresh []) := by
  have hall := exhaust_encodeAll replies [] hf (by rwa [List.append_nil])
  have hend : exhaust step fresh [] = ([],.waiting fresh []) := exhaust_wait step rfl
  rwa [hend, List.append_nil, List.append_nil] at hall

/-- A stream that ends with a reply leaves nothing to be read. -/
theorem drained_all {bytes : List UInt8} {replies : List Reply}
    {result : Option (Reader × List Reply)}
    (hall : exhaust step fresh bytes = (replies,.waiting fresh []))
    (hd : Drained fresh bytes result) :
    ∃ r, result = some (r,replies) ∧ r.err = none ∧ r.unread = [] := by
  cases hd with
  | fault h => simp [hall] at h
  | error e got h => simp [hall] at h
  | waits next got hc hw h =>
    rw [hall, Prod.mk.injEq, Rest.waiting.injEq] at h
    exact ⟨next,by rw [h.1],hc.err,h.2.2.symm⟩

/-- However the bytes of some replies are cut, these replies are read, and nothing is left. -/
theorem replies_read_back (replies : List Reply) (pieces : List (List UInt8))
    (hf : FitAll 3 replies) (hp : pieces.flatten = encodeAll replies)
    (hl : (encodeAll replies).length < 2^31) :
    ∃ r, Reader.redisReaderCreate.receiveAll pieces = some (r,replies) ∧ r.err = none ∧
      r.unread = [] := by
  have hd := create_drained pieces (by rwa [hp])
  rw [hp] at hd
  exact drained_all (encodeAll_exhausted replies hf hl) hd

/-- A nested array and a status, byte by byte. -/
theorem nested_read_back : ∃ r, Reader.redisReaderCreate.receiveAll
      ((encodeAll [.array 2 [.integer (-7),.array 1 [.string crlf]],.status [79,75]]).map ([·])) =
        some (r,[.array 2 [.integer (-7),.array 1 [.string crlf]],.status [79,75]]) ∧
      r.err = none ∧ r.unread = [] :=
  replies_read_back _ _ (by simp [FitAll, Fits, findBreak, cr])
    (by rw [← List.flatMap_def, List.flatMap_singleton'])
    (by simp [encodeAll, encode, signed, decimal, crlf])

end Streams

end Duda.RedisRoundTrip
