import Duda.RedisMatching

/-!
# Subscriptions of the redis client

The names in a command to subscribe are found again in the text of the command, and
each gets the callback of the command. The confirmation of a subscription and a message go
to the callback of the last command that named the channel. One for a channel that no command
named goes to the callback of the reply before it in the same read. A run mixes commands to
subscribe, writes and reads in any order.
-/

set_option autoImplicit false

namespace Duda.RedisSubscribe
open Duda.CType Duda.Decimal Duda.IncrementalParser Duda.MachineInt Duda.RedisReader
open Duda.RedisStream Duda.RedisRoundTrip Duda.RedisCommand Duda.RedisAsync Duda.RedisMatching

section Arguments

theorem strchr_skip (c : UInt8) (s t : List UInt8) (h : ∀ b ∈ s, b ≠ c ∧ b ≠ 0) :
    strchr c (s++t) = strchr c t := by
  induction s with
  | nil => rfl
  | cons b s ih =>
    obtain ⟨hc,h0⟩ := h b (by simp)
    rw [List.cons_append, strchr, if_neg hc, if_neg h0]
    exact ih (fun b hb => h b (List.mem_cons_of_mem _ hb))

theorem strchr_here (c : UInt8) (t : List UInt8) : strchr c (c::t) = some (c::t) := by
  rw [strchr, if_pos rfl]

theorem decimal_plain (n : ℕ) (c : UInt8) (hc : ¬IsDigit c) :
    ∀ b ∈ decimal n, b ≠ c ∧ b ≠ 0 := by
  intro b hb
  have hd := decimal_isDigit n b hb
  exact ⟨fun h => hc (h ▸ hd),by rintro rfl; exact absurd hd (by decide)⟩

theorem strtol_decimal (n : ℕ) (t : List UInt8) (hn : n < 2^63) :
    strtol (decimal n++cr::t) = n := by
  obtain ⟨c,s,hc⟩ := List.exists_cons_of_ne_nil (decimal_ne_nil n)
  have hd : IsDigit c := decimal_isDigit n c (by simp [hc])
  have hspace : isspace c = false := by
    rw [isspace]
    have h1 : c ≠ 32 := by rintro rfl; exact absurd hd (by decide)
    have h2 := hd.1
    simp only [h1, false_or, decide_eq_false_iff_not]
    omega
  have hdrop : (decimal n++cr::t).dropWhile isspace = decimal n++cr::t := by
    rw [hc, List.cons_append, List.dropWhile_cons, hspace]
    rfl
  have hsign : readSign (decimal n++cr::t) = (1,decimal n++cr::t) := by
    have h45 : c ≠ 45 := by rintro rfl; exact absurd hd (by decide)
    have h43 : c ≠ 43 := by rintro rfl; exact absurd hd (by decide)
    simp [readSign, charAt, hc, h45, h43]
  have htake : (decimal n++cr::t).takeWhile (fun c => 48 ≤ c.toNat ∧ c.toNat < 58) =
      decimal n := by
    rw [List.takeWhile_append_of_pos (fun c h => by simpa [IsDigit] using decimal_isDigit n c h),
      List.takeWhile_cons]
    simp [cr]
  simp only [strtol, hdrop, hsign, htake, value_decimal, one_mul]
  omega

/-- The next argument is the string that was formatted, whatever its bytes are. -/
theorem nextArgument_string (arg rest : List UInt8) (h : arg.length < 2^31) :
    nextArgument (encode (.string arg)++rest) = .found (arg++crlf++rest) arg.length rest := by
  have htext : encode (.string arg)++rest =
      36::(decimal arg.length++(cr::lf::(arg++crlf++rest))) := by
    simp [encode, crlf]
  have hchr : strchr cr (36::(decimal arg.length++(cr::lf::(arg++crlf++rest)))) =
      some (cr::lf::(arg++crlf++rest)) := by
    rw [strchr, if_neg (by decide), if_neg (by decide),
      strchr_skip cr _ _ (decimal_plain _ cr (by decide)), strchr_here]
  rw [htext, nextArgument]
  have hlen : i32 (strtol (decimal arg.length++(cr::lf::(arg++crlf++rest)))) = arg.length := by
    rw [strtol_decimal _ _ (by omega), i32_natCast _ h]
  simp only [charAt, List.getD_cons_zero, if_true, hchr, List.drop_succ_cons, List.drop_zero,
    hlen, Int.toNat_natCast]
  rw [if_neg (by omega), Nat.add_comm 2 arg.length, drop_line]

theorem nextArgument_command (argv : List (List UInt8)) (h : argv ≠ []) :
    nextArgument (command argv) = nextArgument (encodeAll (argv.map .string)) := by
  obtain ⟨arg,rest,rfl⟩ := List.exists_cons_of_ne_nil h
  obtain ⟨t,ht⟩ : ∃ t, encodeAll ((arg::rest).map .string) = 36::t := by
    simp only [List.map_cons, encodeAll, encode, List.cons_append]
    exact ⟨_,rfl⟩
  have hchr : strchr 36 (command (arg::rest)) = some (36::t) := by
    have htext : command (arg::rest) =
        (42::decimal (arg::rest).length++crlf)++encodeAll ((arg::rest).map .string) := by
      simp [command, encode]
    rw [htext, strchr_skip, ht, strchr_here]
    intro b hb
    simp only [crlf, List.mem_append, List.mem_cons, List.not_mem_nil, or_false] at hb
    rcases hb with (rfl | hb) | rfl | rfl
    · decide
    · exact decimal_plain _ 36 (by decide) b hb
    · decide
    · decide
  have hfirst : charAt (command (arg::rest)) 0 = 42 := by simp [command, encode, charAt]
  rw [nextArgument, hfirst, if_neg (by decide), hchr, ht, nextArgument]
  simp [charAt]

theorem namesLoop_strings (k : ℕ) (names : List (List UInt8)) (hk : names.length < k)
    (h : ∀ name ∈ names, name.length < 2^31) :
    namesLoop k (encodeAll (names.map .string)) = some names := by
  induction names generalizing k with
  | nil =>
    obtain ⟨k,rfl⟩ := Nat.exists_eq_succ_of_ne_zero (Nat.pos_iff_ne_zero.1 hk)
    rfl
  | cons name names ih =>
    obtain ⟨k,rfl⟩ := Nat.exists_eq_succ_of_ne_zero (Nat.pos_iff_ne_zero.1 (Nat.zero_lt_of_lt hk))
    rw [List.length_cons] at hk
    rw [List.map_cons, encodeAll, namesLoop, nextArgument_string name _ (h name (by simp))]
    simp only [ih k (by omega) (fun name hm => h name (List.mem_cons_of_mem _ hm)),
      Option.map_some, take_line]

/-- `subscribe`. -/
def subscribeWord : List UInt8 := [115,117,98,115,99,114,105,98,101]

theorem hasText_line (text word rest : List UInt8) (h : word.map tolower = text) :
    hasText (text++crlf) (word++crlf++rest) = true := by
  have hmap : text++crlf = (word++crlf).map tolower := by
    rw [List.map_append, h]
    rfl
  rw [hasText, List.all_eq_true, hmap]
  intro i hi
  rw [List.mem_range, List.length_map] at hi
  simp only [charAt, List.getD_eq_getElem?_getD, List.getElem?_append_left hi, List.getElem?_map,
    List.getElem?_eq_getElem hi, Option.map_some, Option.getD_some, decide_true]

/-- A command to subscribe, in letters of either case, is taken for one, with its names. -/
theorem purpose_subscribe (word : List UInt8) (names : List (List UInt8))
    (hw : word.map tolower = subscribeWord) (hn : names ≠ [])
    (hl : (command (word::names)).length < 2^31) :
    purpose (command (word::names)) = some (.subscribe false names) := by
  have hshort := command_args_short hl
  obtain ⟨name,more,rfl⟩ := List.exists_cons_of_ne_nil hn
  have hnext : charAt (encodeAll ((name::more).map .string)) 0 = 36 := by
    simp [encodeAll, encode, charAt]
  have hfirst : tolower (charAt (word++crlf++encodeAll ((name::more).map .string)) 0) = 115 := by
    cases word with
    | nil => simp [subscribeWord] at hw
    | cons c word =>
      simp only [List.map_cons, subscribeWord, List.cons.injEq] at hw
      exact hw.1
  have hcount : (name::more).length ≤ (encodeAll ((name::more).map .string)).length := by
    have hfit : FitAll 0 ((name::more).map .string) := by
      rw [fitAll_iff]
      intro e he
      obtain ⟨arg,_,rfl⟩ := List.mem_map.1 he
      simp [Fits]
    simpa using encodeAll_length 0 _ hfit
  have hnames := namesLoop_strings ((encodeAll ((name::more).map .string)).length+1) (name::more)
    (by omega) (fun n hm => hshort n (List.mem_cons_of_mem _ hm))
  have htext := hasText_line subscribeWord word (encodeAll ((name::more).map .string)) hw
  have hword : subscribeText = subscribeWord++crlf := rfl
  rw [purpose, nextArgument_command _ (List.cons_ne_nil _ _), List.map_cons, encodeAll,
    nextArgument_string word _ (hshort word (by simp))]
  have hletter : ((115:UInt8) = 112) = False := by decide
  simp only [hfirst, hletter, if_false, hnext, hword, htext, hnames, and_self, if_true,
    Option.map_some, decide_false]

end Arguments

section Tables

theorem dictFind_cons (n k : List UInt8) (c : Callback) (t : Table) :
    dictFind n ((k,c)::t) = if n = k then some c else dictFind n t := by
  rw [dictFind, List.lookup_cons]
  by_cases h : n = k
  · rw [if_pos h, beq_iff_eq.2 h]
  · rw [if_neg h, beq_eq_false_iff_ne.2 h]
    rfl

theorem dictFind_replace (n key : List UInt8) (cb : Callback) (t : Table) :
    dictFind n (dictReplace key cb t) = if n = key then some cb else dictFind n t := by
  induction t with
  | nil => rw [dictReplace, dictFind_cons]
  | cons e t ih =>
    obtain ⟨k,c⟩ := e
    rw [dictReplace]
    by_cases hk : k = key
    · subst hk
      rw [if_pos rfl, dictFind_cons, dictFind_cons]
      by_cases hn : n = k <;> simp [hn]
    · rw [if_neg hk, dictFind_cons, dictFind_cons, ih]
      by_cases hn : n = k
      · simp [hn, hk]
      · simp [hn]

theorem dictFind_replaceAll (n : List UInt8) (cb : Callback) (names : List (List UInt8))
    (t : Table) :
    dictFind n (replaceAll cb names t) = if n ∈ names then some cb else dictFind n t := by
  induction names generalizing t with
  | nil => simp [replaceAll]
  | cons name names ih =>
    have hstep : replaceAll cb (name::names) t = replaceAll cb names (dictReplace name cb t) := rfl
    rw [hstep, ih, dictFind_replace]
    by_cases h1 : n ∈ names
    · simp [h1]
    · by_cases h2 : n = name <;> simp [h1, h2]

/-- A command to subscribe to some channels, which fits into an `int`. The callback has a
function. -/
structure Subscription where
  cb : Callback
  word : List UInt8
  names : List (List UInt8)
  called : cb.fn ≠ none
  isWord : word.map tolower = subscribeWord
  named : names ≠ []
  fits : (command (word::names)).length < 2^31

def Subscription.event (s : Subscription) : Event :=
  .call (.command s.cb (command (s.word::s.names)))

/-- The callback of the last command that named a channel. -/
def route (subs : List Subscription) (name : List UInt8) : Option Callback :=
  (subs.reverse.find? fun s => s.names.contains name).map Subscription.cb

theorem route_append (subs : List Subscription) (s : Subscription) (name : List UInt8) :
    route (subs++[s]) name = if name ∈ s.names then some s.cb else route subs name := by
  simp only [route, List.reverse_append, List.reverse_cons, List.reverse_nil, List.nil_append,
    List.singleton_append, List.find?_cons]
  by_cases h : name ∈ s.names <;> simp [h]

theorem route_called {subs : List Subscription} {name : List UInt8} {cb : Callback}
    (h : route subs name = some cb) : cb.fn ≠ none := by
  rw [route, Option.map_eq_some_iff] at h
  obtain ⟨s,_,rfl⟩ := h
  exact s.called

/-- A context after some subscriptions, between two replies. -/
structure Listening (subs : List Subscription) (ctx : Context) : Prop where
  opened : ctx.err = false ∧ ctx.freed = false
  staying : ctx.disconnecting = false ∧ ctx.freeing = false
  subscribed : ctx.subscribed = true ↔ subs ≠ []
  replies : ctx.replies = []
  clean : Clean ctx.reader
  routes : ∀ name, dictFind name ctx.channels = route subs name

theorem listening_connect : Listening [] redisAsyncConnect :=
  ⟨⟨rfl,rfl⟩,⟨rfl,rfl⟩,by simp [redisAsyncConnect],rfl,create_clean,fun _ => rfl⟩

end Tables

section Output

def commandBytes (subs : List Subscription) : ℕ :=
  (subs.map fun s => (command (s.word::s.names)).length).sum

theorem commandBytes_append (subs more : List Subscription) :
    commandBytes (subs++more) = commandBytes subs+commandBytes more := by
  simp [commandBytes]

def callBytes : Call → ℕ
  | .command _ cmd => cmd.length
  | _ => 0

variable (script : ℕ → List Call)

def spent (n : ℕ) : ℕ := ((List.range n).map fun i => ((script i).map callBytes).sum).sum

theorem spent_succ (n : ℕ) :
    spent script (n+1) = spent script n+((script n).map callBytes).sum := by
  simp [spent, List.range_succ]

theorem spent_mono {m n : ℕ} (h : m ≤ n) : spent script m ≤ spent script n := by
  induction h with
  | refl => exact le_refl _
  | step _ ih =>
    rw [Nat.succ_eq_add_one, spent_succ]
    omega

/-- The output that waits is no more than what was sent so far. -/
def Within (subs : List Subscription) (ctx : Context) : Prop :=
  ctx.obuf.length ≤ commandBytes subs+spent script ctx.history.ran.length

end Output

section Replies

/-- The channel of a confirmation or of a message. A reply for patterns, one that ends a
subscription and one that is no array of two strings have none. -/
def channelOf (reply : Reply) : Option (List UInt8) :=
  match message reply with
  | some (stype,false,name,_) => if isUnsubscribe stype false then none else some name
  | _ => none

theorem channelOf_some {reply : Reply} {name : List UInt8} (h : channelOf reply = some name) :
    ∃ n es stype third, reply = .array n es ∧ message reply = some (stype,false,name,third) ∧
      isUnsubscribe stype false = false := by
  rw [channelOf] at h
  cases hm : message reply with
  | none => simp [hm] at h
  | some m =>
    obtain ⟨stype,pvariant,found,third⟩ := m
    cases pvariant with
    | true => simp [hm] at h
    | false =>
      simp only [hm] at h
      split_ifs at h with hu
      rw [Option.some.injEq] at h
      subst h
      cases reply with
      | array n es => exact ⟨n,es,stype,third,rfl,rfl,by simpa using hu⟩
      | string s | status s | error s | integer i | nil | null => simp [message] at hm

/-- Who gets the replies of one read: the callback that was subscribed last, or else that of
the reply before. Nobody is known for a first reply without a subscription. -/
def delivered (subs : List Subscription) :
    Option Callback → List Reply → Option (List (Callback × Reply))
  | _, [] => some []
  | prev, r::rs =>
    match ((channelOf r).bind (route subs)).or prev with
    | none => none
    | some cb => (delivered subs (some cb) rs).map ((cb,r)::·)

theorem delivered_replies {subs : List Subscription} {prev : Option Callback} {rs : List Reply}
    {ran : List (Callback × Reply)} (h : delivered subs prev rs = some ran) :
    ran.map Prod.snd = rs := by
  induction rs generalizing prev ran with
  | nil =>
    cases h
    rfl
  | cons r rs ih =>
    rw [delivered] at h
    cases hcb : ((channelOf r).bind (route subs)).or prev with
    | none => simp [hcb] at h
    | some cb =>
      simp only [hcb, Option.map_eq_some_iff] at h
      obtain ⟨rest,hrest,rfl⟩ := h
      rw [List.map_cons, ih hrest]

theorem chosen_notice {subs : List Subscription} {ctx : Context} (h : Listening subs ctx)
    (hsubs : subs ≠ []) {reply : Reply} {name : List UInt8} (hr : channelOf reply = some name)
    (prev : Option Callback) :
    chosen ctx reply prev = some (ctx,((channelOf reply).bind (route subs)).or prev) := by
  obtain ⟨n,es,stype,third,rfl,hm,hu⟩ := channelOf_some hr
  have hget : getSubscribeCallback ctx (.array n es) prev =
      some (ctx,(route subs name).or prev) := by
    simp only [getSubscribeCallback, hm, Bool.false_eq_true, if_false, h.routes, hu]
    cases route subs name with
    | none => rfl
    | some found => rfl
  simp only [chosen, h.replies, h.subscribed.2 hsubs, if_true, hget, hr, Option.bind_some]

theorem or_called {subs : List Subscription} {reply : Reply} {prev : Option Callback}
    {cb : Callback} (h : ((channelOf reply).bind (route subs)).or prev = some cb)
    (hprev : ∀ c, prev = some c → c.fn ≠ none) : cb.fn ≠ none := by
  cases hroute : (channelOf reply).bind (route subs) with
  | none =>
    rw [hroute, Option.none_or] at h
    exact hprev cb h
  | some found =>
    rw [hroute, Option.some_or, Option.some.injEq] at h
    obtain ⟨name,-,hname⟩ := Option.bind_eq_some_iff.1 hroute
    rw [← h]
    exact route_called hname

/-- Nothing is subscribed, and a reply that is no error arrives: the assertion fails. -/
theorem dispatch_unsubscribed {script : ℕ → List Call} {ctx : Context} (h : Listening [] ctx)
    (again : Option Callback → Context → Option Context) {reply : Reply} {name : List UInt8}
    (hr : channelOf reply = some name) (prev : Option Callback) :
    dispatch script again reply prev ctx = none := by
  obtain ⟨n,es,stype,third,rfl,-⟩ := channelOf_some hr
  have hs : ctx.subscribed = false := by
    rw [← Bool.not_eq_true, h.subscribed]
    exact fun hne => hne rfl
  simp [dispatch, chosen, isError, h.replies, hs]

end Replies

section Steps

def Plain : Call → Prop
  | .command _ cmd => purpose cmd = some .regular
  | _ => False

theorem inside_listening {subs : List Subscription} (hsubs : subs ≠ []) {ctx : Context}
    (h : Listening subs ctx) {c : Call} (hc : Plain c) (hl : ctx.obuf.length+callBytes c < 2^31) :
    ∃ next, inside ctx c = some next ∧ Listening subs next ∧ next.reader = ctx.reader ∧
      next.history.ran = ctx.history.ran ∧ next.obuf.length = ctx.obuf.length+callBytes c := by
  cases c with
  | command cb cmd =>
    rw [Plain] at hc
    rw [callBytes] at hl
    refine ⟨{ ctx with invalid := ctx.invalid++[cb], obuf := ctx.obuf++cmd, writing := true },
      ?_,?_,rfl,rfl,List.length_append⟩
    · have hfits : (ctx.obuf++cmd).length < 2^31 := by rwa [List.length_append]
      simp only [inside, redisAsyncCommand, h.staying.1, h.staying.2, Bool.false_eq_true, or_self,
        if_false, hc, push, h.subscribed.2 hsubs, if_true, append, hfits]
    · exact ⟨h.opened,h.staying,h.subscribed,h.replies,h.clean,h.routes⟩
  | disconnect => exact hc.elim
  | free => exact hc.elim

theorem calls_listening {subs : List Subscription} (hsubs : subs ≠ []) (calls : List Call)
    (hc : ∀ c ∈ calls, Plain c) {ctx : Context} (h : Listening subs ctx)
    (hl : ctx.obuf.length+(calls.map callBytes).sum < 2^31) :
    ∃ next, calls.foldlM inside ctx = some next ∧ Listening subs next ∧
      next.reader = ctx.reader ∧ next.history.ran = ctx.history.ran ∧
      next.obuf.length = ctx.obuf.length+(calls.map callBytes).sum := by
  induction calls generalizing ctx with
  | nil => exact ⟨ctx,rfl,h,rfl,rfl,rfl⟩
  | cons c calls ih =>
    rw [List.forall_mem_cons] at hc
    rw [List.map_cons, List.sum_cons] at hl ⊢
    obtain ⟨mid,hmid,hlisten,hreader,hran,hout⟩ := inside_listening hsubs h hc.1 (by omega)
    obtain ⟨next,hnext,hl',hreader',hran',hout'⟩ := ih hc.2 hlisten (by omega)
    refine ⟨next,?_,hl',hreader'.trans hreader,hran'.trans hran,by omega⟩
    rw [List.foldlM_cons, hmid]
    exact hnext

variable {script : ℕ → List Call}

/-- What a command or a write leaves. -/
structure Onward (script : ℕ → List Call) (subs : List Subscription) (ctx next : Context) :
    Prop where
  listening : Listening subs next
  within : Within script subs next
  reader : next.reader = ctx.reader
  ran : next.history.ran = ctx.history.ran

theorem subscribe_onward {subs : List Subscription} {ctx : Context} (h : Listening subs ctx)
    (hw : Within script subs ctx) (s : Subscription)
    (hroom : commandBytes (subs++[s])+spent script ctx.history.ran.length < 2^31) :
    ∃ next, handle script ctx s.event = some next ∧ Onward script (subs++[s]) ctx next := by
  have hp := purpose_subscribe s.word s.names s.isWord s.named s.fits
  have hsum : commandBytes (subs++[s]) = commandBytes subs+(command (s.word::s.names)).length := by
    simp [commandBytes]
  rw [Within] at hw
  have hlen : ctx.obuf.length+(command (s.word::s.names)).length < 2^31 := by omega
  refine ⟨{ register ctx s.cb false s.names with
    obuf := ctx.obuf++command (s.word::s.names), writing := true },?_,⟨?_,?_,rfl,rfl⟩⟩
  · simp only [Subscription.event, handle, outside, redisAsyncCommand, h.staying.1, h.staying.2,
      Bool.false_eq_true, or_self, if_false, hp, append]
    rw [if_pos (by rw [List.length_append]; exact hlen)]
    rfl
  · refine ⟨h.opened,h.staying,by simp [register],h.replies,h.clean,fun name => ?_⟩
    rw [route_append, ← h.routes name]
    exact dictFind_replaceAll name s.cb s.names ctx.channels
  · simp only [Within, register, Bool.false_eq_true, if_false, List.length_append, hsum]
    omega

/-- What `write` says when it does not fail. -/
def outgoing : Option ℕ → Outgoing
  | some n => .taken n
  | none => .again

theorem handleConnect_done (ctx : Context) :
    handleConnect script ctx .done = some { ctx with connected := true } := by
  unfold handleConnect
  by_cases hc : ctx.connected = true
  · rw [if_pos hc, ← hc]
  · rw [if_neg hc]

theorem write_onward {subs : List Subscription} {ctx : Context} (h : Listening subs ctx)
    (hw : Within script subs ctx) (taken : Option ℕ) :
    ∃ next, handle script ctx (.writable .done (outgoing taken)) = some next ∧
      Onward script subs ctx next := by
  have hwrite : ∃ mid, bufferWrite { ctx with connected := true } (outgoing taken) = mid ∧
      Onward script subs ctx mid := by
    refine ⟨_,rfl,?_⟩
    rw [bufferWrite.eq_def]
    split_ifs with he
    · exact ⟨⟨h.opened,h.staying,h.subscribed,h.replies,h.clean,h.routes⟩,hw,rfl,rfl⟩
    · cases taken with
      | none =>
        exact ⟨⟨h.opened,h.staying,h.subscribed,h.replies,h.clean,h.routes⟩,hw,rfl,rfl⟩
      | some n =>
        refine ⟨⟨h.opened,h.staying,h.subscribed,h.replies,h.clean,h.routes⟩,?_,rfl,rfl⟩
        simp only [Within, outgoing, List.length_drop]
        exact (Nat.sub_le _ _).trans hw
  obtain ⟨mid,hmid,hon⟩ := hwrite
  have hl := hon.listening
  refine ⟨{ mid with writing := mid.obuf ≠ [] },?_,
    ⟨⟨hl.opened,hl.staying,hl.subscribed,hl.replies,hl.clean,hl.routes⟩,hon.within,hon.reader,
      hon.ran⟩⟩
  rw [handle, handleWrite, handleConnect_done]
  simp only [hmid]
  rw [if_neg (by simp [h.opened.2]), if_neg (by simp [hl.opened.1])]

variable (hscript : ∀ n, ∀ c ∈ script n, Plain c)
include hscript

theorem runCallback_listening {subs : List Subscription} (hsubs : subs ≠ []) {ctx : Context}
    (h : Listening subs ctx) (hw : Within script subs ctx)
    (hroom : commandBytes subs+spent script (ctx.history.ran.length+1) < 2^31) (reply : Reply)
    {cb : Callback} (hcb : cb.fn ≠ none) :
    ∃ next, runCallback script reply ctx cb = some next ∧ Listening subs next ∧
      Within script subs next ∧ next.reader = ctx.reader ∧
      next.history.ran = ctx.history.ran++[(cb,reply)] := by
  have hstart : Listening subs { ctx with inCallback := true, history :=
      { ctx.history with ran := ctx.history.ran++[(cb,reply)] } } :=
    ⟨h.opened,h.staying,h.subscribed,h.replies,h.clean,h.routes⟩
  rw [Within] at hw
  rw [spent_succ] at hroom
  obtain ⟨next,hnext,hl,hreader,hran,hout⟩ := calls_listening hsubs
    (script ctx.history.ran.length) (hscript _) hstart (by simp only; omega)
  refine ⟨{ next with inCallback := false },?_,?_,?_,hreader,hran⟩
  · rw [runCallback]
    cases hf : cb.fn with
    | none => exact absurd hf hcb
    | some fn =>
      simp only
      rw [hnext]
      rfl
  · exact ⟨hl.opened,hl.staying,hl.subscribed,hl.replies,hl.clean,hl.routes⟩
  · have hcount : next.history.ran.length = ctx.history.ran.length+1 := by
      rw [hran, List.length_append, List.length_singleton]
    simp only [Within, hout, hcount, spent_succ]
    omega

omit hscript in
/-- What the replies of a read leave when all of them were delivered. -/
structure Settled (script : ℕ → List Call) (subs : List Subscription) (ctx : Context)
    (core : Core) (rest : List UInt8) (ran : List (Callback × Reply)) (last : Context) :
    Prop where
  listening : Listening subs last
  within : Within script subs last
  ran : last.history.ran = ctx.history.ran++ran
  waits : last.reader.begin.core = core ∧ last.reader.unread = rest
  buf : last.reader.buf.length ≤ ctx.reader.buf.length

omit hscript in
/-- Nothing is defined, or the callbacks ran and the reader waits. -/
def Delivered (script : ℕ → List Call) (subs : List Subscription) (ctx : Context) (core : Core)
    (rest : List UInt8) (result : Option Context) : Option (List (Callback × Reply)) → Prop
  | none => result = none
  | some ran => ∃ last, result = some last ∧ Settled script subs ctx core rest ran last

theorem processCallbacks_notices {subs : List Subscription} (k : ℕ) (rs : List Reply)
    (prev : Option Callback) (ctx : Context) (hn : ∀ r ∈ rs, channelOf r ≠ none)
    (hprev : ∀ cb, prev = some cb → cb.fn ≠ none) (hnone : subs = [] → prev = none)
    (h : Listening subs ctx) (hw : Within script subs ctx)
    (hroom : commandBytes subs+spent script (ctx.history.ran.length+rs.length) < 2^31)
    (hk : ctx.reader.unread.length < k) {core : Core} {rest : List UInt8}
    (hrs : exhaust step ctx.reader.begin.core ctx.reader.unread = (rs,.waiting core rest)) :
    Delivered script subs ctx core rest (processCallbacks script k prev ctx)
      (delivered subs prev rs) := by
  induction rs generalizing k prev ctx with
  | nil =>
    obtain ⟨k,rfl⟩ := Nat.exists_eq_succ_of_ne_zero (Nat.pos_iff_ne_zero.1 (Nat.zero_lt_of_lt hk))
    have hgot := getReply_got ctx.reader h.clean
    generalize hg : ctx.reader.redisReaderGetReply = got at hgot
    cases hgot with
    | fault hx => simp [hrs] at hx
    | error e hx => simp [hrs] at hx
    | reply next reply hn hnull hl hx => simp [hrs] at hx
    | waits next hn hwait hx =>
      rw [hrs, Prod.mk.injEq, Rest.waiting.injEq] at hx
      refine ⟨{ ctx with reader := next },?_,?_,hw,(List.append_nil _).symm,
        ⟨hx.2.1.symm,hx.2.2.symm⟩,getReply_buf hg⟩
      · simp [processCallbacks, hg, h.staying.1]
      · exact ⟨h.opened,h.staying,h.subscribed,h.replies,hn,h.routes⟩
  | cons r rs ih =>
    obtain ⟨k,rfl⟩ := Nat.exists_eq_succ_of_ne_zero (Nat.pos_iff_ne_zero.1 (Nat.zero_lt_of_lt hk))
    rw [List.forall_mem_cons] at hn
    obtain ⟨name,hname⟩ := Option.ne_none_iff_exists'.1 hn.1
    have hgot := getReply_got ctx.reader h.clean
    generalize hg : ctx.reader.redisReaderGetReply = got at hgot
    cases hgot with
    | fault hx => simp [hrs] at hx
    | error e hx => simp [hrs] at hx
    | waits next hn hw hx => simp [hrs] at hx
    | reply next reply hclean hnull hl hx =>
      rw [hrs, Prod.mk.injEq, List.cons.injEq] at hx
      obtain ⟨⟨rfl,hrest⟩,hwait⟩ := hx
      have hlisten : Listening subs { ctx with reader := next } :=
        ⟨h.opened,h.staying,h.subscribed,h.replies,hclean,h.routes⟩
      rw [processCallbacks_reply k prev hg hnull, delivered]
      by_cases hsubs : subs = []
      · subst hsubs
        rw [dispatch_unsubscribed hlisten _ hname, hnone rfl, hname]
        rfl
      · rw [dispatch, if_neg (by simp [h.subscribed.2 hsubs]), chosen_notice hlisten hsubs hname]
        cases hcb : ((channelOf r).bind (route subs)).or prev with
        | none => rfl
        | some cb =>
          have hcalled := or_called hcb hprev
          rw [List.length_cons] at hroom
          have hmono := spent_mono script
            (show ctx.history.ran.length+1 ≤ ctx.history.ran.length+(rs.length+1) by omega)
          obtain ⟨mid,hmid,hl',hw',hreader,hran⟩ := runCallback_listening hscript hsubs hlisten hw
            (lt_of_le_of_lt (Nat.add_le_add_left hmono _) hroom) r hcalled
          have hcount : mid.history.ran.length+rs.length =
              ctx.history.ran.length+(rs.length+1) := by
            rw [hran, List.length_append, List.length_singleton, Nat.add_assoc, Nat.add_comm 1]
          have hlater := ih k (some cb) mid hn.2 (fun c hc => by cases hc; exact hcalled)
            (fun hs => absurd hs hsubs) hl' hw' (by rwa [hcount])
            (by rw [hreader]; simp only; omega)
            (by rw [hreader]; exact Prod.ext hrest.symm hwait.symm)
          obtain ⟨fn,hfn⟩ := Option.ne_none_iff_exists'.1 hcalled
          simp only [hfn, hmid, hl'.staying.2, Bool.false_eq_true, if_false]
          cases hd : delivered subs (some cb) rs with
          | none =>
            rw [hd] at hlater
            exact hlater
          | some ran =>
            rw [hd] at hlater
            obtain ⟨last,hlast,hset⟩ := hlater
            refine ⟨last,hlast,hset.listening,hset.within,?_,hset.waits,?_⟩
            · rw [hset.ran, hran, List.append_assoc]
              rfl
            · refine hset.buf.trans ?_
              rw [hreader]
              exact getReply_buf hg

omit hscript in
def arrived (got piece : List UInt8) : List Reply :=
  (repliesIn (got++piece)).drop (repliesIn got).length

omit hscript in
theorem repliesIn_nil : repliesIn [] = [] := by
  rw [repliesIn, exhaust_wait step rfl]

omit hscript in
/-- The bytes hold no protocol error. -/
def Waits (bytes : List UInt8) : Prop :=
  ∃ core rest, exhaust step fresh bytes = (repliesIn bytes,.waiting core rest)

omit hscript in
/-- The reader has taken all the replies from the bytes that were received. -/
structure Heard (got : List UInt8) (ctx : Context) : Prop where
  waits : exhaust step fresh got =
    (repliesIn got,.waiting ctx.reader.begin.core ctx.reader.unread)
  buf : ctx.reader.buf.length ≤ got.length

omit hscript in
theorem repliesIn_append {got : List UInt8} (piece : List UInt8)
    (hl : (got++piece).length < 2^31) :
    repliesIn (got++piece) = repliesIn got++arrived got piece := by
  have hpre : ∃ more, repliesIn (got++piece) = repliesIn got++more := by
    rw [repliesIn, repliesIn, exhaust_append step_steady fresh got piece hl]
    cases hg : exhaust step fresh got with
    | mk out state =>
      cases state with
      | stopped e => exact ⟨[],(List.append_nil _).symm⟩
      | waiting core rest => exact ⟨_,rfl⟩
  obtain ⟨more,hmore⟩ := hpre
  rw [arrived, hmore, List.drop_left]

omit hscript in
theorem waits_append {got piece : List UInt8} (hl : (got++piece).length < 2^31)
    (h : Waits (got++piece)) : Waits got := by
  obtain ⟨core,rest,h⟩ := h
  rw [exhaust_append step_steady fresh got piece hl] at h
  cases hg : exhaust step fresh got with
  | mk out state =>
    cases state with
    | stopped e => simp [hg, feed] at h
    | waiting c r => exact ⟨c,r,by rw [repliesIn, hg]⟩

theorem read_delivered {subs : List Subscription} {ctx : Context} {got : List UInt8}
    (h : Listening subs ctx) (hw : Within script subs ctx) (hh : Heard got ctx)
    (piece : List UInt8) (hl : (got++piece).length < 2^31) {core : Core} {rest : List UInt8}
    (hend : exhaust step fresh (got++piece) = (repliesIn (got++piece),.waiting core rest))
    (hn : ∀ r ∈ arrived got piece, channelOf r ≠ none)
    (hroom : commandBytes subs+
      spent script (ctx.history.ran.length+(arrived got piece).length) < 2^31) :
    match delivered subs none (arrived got piece) with
    | none => handle script ctx (.readable .done (.data piece)) = none
    | some ran => ∃ last, handle script ctx (.readable .done (.data piece)) = some last ∧
        Listening subs last ∧ Within script subs last ∧ Heard (got++piece) last ∧
        last.history.ran = ctx.history.ran++ran := by
  have hbuf := hh.buf
  have hlen : got.length+piece.length < 2^31 := by rwa [← List.length_append]
  obtain ⟨next,hnext⟩ : ∃ next, ctx.reader.redisReaderFeed piece = some next :=
    feed_some (by omega)
  have hfed := feed_fed h.clean hnext
  have hreads : exhaust step next.begin.core next.unread =
      (arrived got piece,.waiting core rest) := by
    rw [hfed.core, hfed.unread]
    rw [exhaust_append step_steady fresh got piece hl, hh.waits, feed_waiting,
      repliesIn_append piece hl, Prod.mk.injEq, List.append_right_inj] at hend
    exact Prod.ext hend.1 hend.2
  -- the context when the bytes are in the buffer
  let fed : Context := { ctx with connected := true, reader := next, history :=
    { ctx.history with received := ctx.history.received++piece } }
  have hhandle : handle script ctx (.readable .done (.data piece)) =
      processCallbacks script (next.unread.length+1) none fed := by
    have hread : bufferRead { ctx with connected := true } (.data piece) = some fed := by
      unfold bufferRead
      rw [if_neg (by simp [h.opened.1])]
      simp only [hnext, Option.map_some, fed]
    rw [handle, handleRead, handleConnect_done]
    simp only [hread]
    rw [if_neg (by simp [h.opened.2]), if_neg (by simp [fed, h.opened.1])]
  have hdone := processCallbacks_notices hscript (next.unread.length+1) (arrived got piece) none
    fed hn (by simp) (fun _ => rfl)
    ⟨h.opened,h.staying,h.subscribed,h.replies,hfed.clean,h.routes⟩ hw hroom
    (Nat.lt_succ_self _) hreads
  rw [← hhandle] at hdone
  cases hd : delivered subs none (arrived got piece) with
  | none =>
    rw [hd] at hdone
    exact hdone
  | some ran =>
    rw [hd] at hdone
    obtain ⟨last,hlast,hset⟩ := hdone
    refine ⟨last,hlast,hset.listening,hset.within,⟨?_,?_⟩,hset.ran⟩
    · rw [hset.waits.1, hset.waits.2]
      exact hend
    · have hlast := hset.buf
      have hnow : fed.reader.buf.length = ctx.reader.buf.length+piece.length := by
        simp only [fed, hfed.buf, List.length_append]
      rw [List.length_append]
      omega

end Steps

section Runs

/-- What happens to a subscriber: a command to subscribe, a write in which the socket takes
some bytes or none, and a read. -/
inductive Move where
  | subscribe (s : Subscription)
  | write (taken : Option ℕ)
  | read (piece : List UInt8)

def Move.event : Move → Event
  | .subscribe s => s.event
  | .write taken => .writable .done (outgoing taken)
  | .read piece => .readable .done (.data piece)

def subscriptions : List Move → List Subscription
  | [] => []
  | .subscribe s::moves => s::subscriptions moves
  | .write _::moves => subscriptions moves
  | .read _::moves => subscriptions moves

def bytesRead : List Move → List UInt8
  | [] => []
  | .subscribe _::moves => bytesRead moves
  | .write _::moves => bytesRead moves
  | .read piece::moves => piece++bytesRead moves

/-- For every read the subscriptions that were made before it, and the replies that it
completes. -/
def arrivals : List Subscription → List UInt8 → List Move → List (List Subscription × List Reply)
  | _, _, [] => []
  | subs, got, .subscribe s::moves => arrivals (subs++[s]) got moves
  | subs, got, .write _::moves => arrivals subs got moves
  | subs, got, .read piece::moves =>
    (subs,arrived got piece)::arrivals subs (got++piece) moves

/-- No reply is left out, and none is there twice. -/
theorem arrivals_replies (moves : List Move) (subs : List Subscription) (got : List UInt8)
    (hl : (got++bytesRead moves).length < 2^31) :
    repliesIn got++(arrivals subs got moves).flatMap Prod.snd =
      repliesIn (got++bytesRead moves) := by
  induction moves generalizing subs got with
  | nil => simp [arrivals, bytesRead]
  | cons move moves ih =>
    cases move with
    | subscribe s => exact ih _ got hl
    | write taken => exact ih _ got hl
    | read piece =>
      rw [bytesRead, ← List.append_assoc] at hl ⊢
      have hpiece : (got++piece).length < 2^31 := by
        rw [List.length_append] at hl
        omega
      rw [arrivals, List.flatMap_cons, ← List.append_assoc, ← repliesIn_append piece hpiece]
      exact ih subs (got++piece) hl

variable {script : ℕ → List Call} (hscript : ∀ n, ∀ c ∈ script n, Plain c)
include hscript

theorem run_moves (moves : List Move) {subs : List Subscription} {got : List UInt8}
    {ctx : Context} (h : Listening subs ctx) (hw : Within script subs ctx) (hh : Heard got ctx)
    (hl : (got++bytesRead moves).length < 2^31) (hend : Waits (got++bytesRead moves))
    (hn : ∀ r ∈ (arrivals subs got moves).flatMap Prod.snd, channelOf r ≠ none)
    (hroom : commandBytes (subs++subscriptions moves)+spent script
      (ctx.history.ran.length+((arrivals subs got moves).flatMap Prod.snd).length) < 2^31) :
    (run script ctx (moves.map Move.event)).map (fun last => last.history.ran) =
      ((arrivals subs got moves).mapM fun a => delivered a.1 none a.2).map fun all =>
        ctx.history.ran++all.flatten := by
  induction moves generalizing subs got ctx with
  | nil => simp [run, arrivals]
  | cons move moves ih =>
    rw [List.map_cons, run, if_neg (by simp [h.opened.2])]
    cases move with
    | subscribe s =>
      have hmore : commandBytes (subs++s::subscriptions moves) =
          commandBytes (subs++[s])+commandBytes (subscriptions moves) := by
        rw [← commandBytes_append, List.append_assoc, List.singleton_append]
      have hmono := spent_mono script (Nat.le_add_right ctx.history.ran.length
        ((arrivals subs got (.subscribe s::moves)).flatMap Prod.snd).length)
      rw [subscriptions, hmore] at hroom
      obtain ⟨next,hnext,hon⟩ := subscribe_onward h hw s (by omega)
      rw [Move.event, hnext, Option.bind_some, arrivals, ← hon.ran]
      refine ih hon.listening hon.within ?_ hl hend hn ?_
      · exact ⟨by rw [hon.reader]; exact hh.waits,by rw [hon.reader]; exact hh.buf⟩
      · rw [hon.ran, commandBytes_append]
        exact hroom
    | write taken =>
      obtain ⟨next,hnext,hon⟩ := write_onward h hw taken
      rw [Move.event, hnext, Option.bind_some, arrivals, ← hon.ran]
      refine ih hon.listening hon.within ?_ hl hend hn ?_
      · exact ⟨by rw [hon.reader]; exact hh.waits,by rw [hon.reader]; exact hh.buf⟩
      · rw [hon.ran]
        exact hroom
    | read piece =>
      rw [bytesRead, ← List.append_assoc] at hl hend
      rw [arrivals, List.flatMap_cons] at hn hroom
      rw [List.length_append, subscriptions] at hroom
      have hpiece : (got++piece).length < 2^31 := by
        rw [List.length_append] at hl
        omega
      obtain ⟨core,rest,hnow⟩ := waits_append hl hend
      have hmono := spent_mono script (show ctx.history.ran.length+(arrived got piece).length ≤
        ctx.history.ran.length+((arrived got piece).length+
          ((arrivals subs (got++piece) moves).flatMap Prod.snd).length) by omega)
      have hread := read_delivered hscript h hw hh piece hpiece hnow
        (fun r hr => hn r (List.mem_append_left _ hr))
        (by rw [commandBytes_append] at hroom; simp only at hroom; omega)
      rw [Move.event, arrivals, List.mapM_cons]
      cases hd : delivered subs none (arrived got piece) with
      | none =>
        simp only [hd] at hread
        rw [hread]
        rfl
      | some ran =>
        simp only [hd] at hread
        obtain ⟨mid,hmid,hl',hw',hh',hran⟩ := hread
        have hcount : mid.history.ran.length =
            ctx.history.ran.length+(arrived got piece).length := by
          rw [hran, List.length_append, ← delivered_replies hd, List.length_map]
        rw [hmid, Option.bind_some, ih hl' hw' hh' hl hend
          (fun r hr => hn r (List.mem_append_right _ hr))
          (by rw [hcount, Nat.add_assoc]; exact hroom), hran]
        cases (arrivals subs (got++piece) moves).mapM fun a => delivered a.1 none a.2 with
        | none => rfl
        | some all => simp

end Runs

section Sample

/-- What `SUBSCRIBE` is answered with. -/
def confirmation (name : List UInt8) (count : ℕ) : Reply :=
  .array 3 [.string subscribeWord,.string name,.integer count]

/-- `message`. -/
def messageWord : List UInt8 := [109,101,115,115,97,103,101]

def messageReply (name text : List UInt8) : Reply :=
  .array 3 [.string messageWord,.string name,.string text]

/-- `SUBSCRIBE a`. -/
def subscribeA : Subscription :=
  ⟨⟨some 1,0⟩,[83,85,66,83,67,82,73,66,69],[[97]],by simp,by decide,by simp,
    by simp [command, encode, encodeAll, decimal, crlf]⟩

/-- `subscribe a b`, with another callback. -/
def subscribeAB : Subscription :=
  ⟨⟨some 2,0⟩,[115,117,98,115,99,114,105,98,101],[[97],[98]],by simp,by decide,by simp,
    by simp [command, encode, encodeAll, decimal, crlf]⟩

/-- Two commands, the second when the first was confirmed. The output goes out in parts, and
the first read ends inside of a reply. -/
def sampleMoves (late : List Reply) : List Move :=
  [.subscribe subscribeA,.write (some 10),.write none,
    .read (encodeAll [confirmation [97] 1]++(encodeAll late).take 1),
    .subscribe subscribeAB,.write (some 100),.read ((encodeAll late).drop 1)]

theorem decimal_digit {n : ℕ} (h : n < 10) : decimal n = [digit n] := by
  rw [decimal, if_pos h]

theorem short_string_length {str : List UInt8} (h : str.length < 10) :
    (encode (.string str)).length = str.length+6 := by
  simp [encode, decimal_digit h, crlf]

theorem triple_length {first second : List UInt8} (third : Reply) (h1 : first.length < 10)
    (h2 : second.length < 10) :
    (encode (.array 3 [.string first,.string second,third])).length =
      first.length+second.length+(encode third).length+16 := by
  have hthree : decimal 3 = [digit 3] := decimal_digit (by omega)
  rw [encode, hthree, encodeAll, encodeAll, encodeAll, encodeAll]
  simp only [List.length_cons, List.length_append, List.length_nil, short_string_length h1,
    short_string_length h2, crlf]
  omega

theorem confirmation_length {name : List UInt8} {count : ℕ} (hn : name.length < 10)
    (hc : count < 10) : (encode (confirmation name count)).length = name.length+29 := by
  have hcount : (encode (.integer count)).length = 4 := by
    have hsign : ¬(count:ℤ) < 0 := by omega
    simp [encode, signed, hsign, decimal_digit hc, crlf]
  rw [confirmation, triple_length _ (by decide) hn, hcount]
  simp only [subscribeWord, List.length_cons, List.length_nil]
  omega

theorem messageReply_length {name text : List UInt8} (hn : name.length < 10)
    (ht : text.length < 10) :
    (encode (messageReply name text)).length = name.length+text.length+29 := by
  rw [messageReply, triple_length _ (by decide) hn, short_string_length ht]
  simp only [messageWord, List.length_cons, List.length_nil]
  omega

theorem star_waits : (exhaust step fresh [42]).1 = [] := by
  have htype : step fresh [42] = .take 1 ⟨[⟨some .array,-1,-1⟩],.null⟩ [] := rfl
  have hwait : step ⟨[⟨some .array,-1,-1⟩],.null⟩ [] = .wait := rfl
  rw [exhaust_take step_steady htype, List.drop_succ_cons, List.drop_zero,
    exhaust_wait step hwait]
  rfl

theorem sample_arrivals (late : List Reply) (hfit : FitAll 3 (confirmation [97] 1::late))
    (hl : (encodeAll (confirmation [97] 1::late)).length < 2^31)
    (hpart : (encodeAll late).take 1 = [42]) :
    bytesRead (sampleMoves late) = encodeAll (confirmation [97] 1::late) ∧
      repliesIn (encodeAll (confirmation [97] 1::late)) = confirmation [97] 1::late ∧
      arrivals [] [] (sampleMoves late) = [([subscribeA],[confirmation [97] 1]),
        ([subscribeA,subscribeAB],late)] := by
  have hbytes : encodeAll [confirmation [97] 1]++(encodeAll late).take 1++
      (encodeAll late).drop 1 = encodeAll (confirmation [97] 1::late) := by
    rw [List.append_assoc, List.take_append_drop, encodeAll, encodeAll, encodeAll,
      List.append_nil]
  have hall : repliesIn (encodeAll (confirmation [97] 1::late)) = confirmation [97] 1::late := by
    rw [repliesIn, encodeAll_exhausted _ hfit hl]
  have hfirst : repliesIn (encodeAll [confirmation [97] 1]++(encodeAll late).take 1) =
      [confirmation [97] 1] := by
    rw [FitAll] at hfit
    rw [← hbytes, List.length_append] at hl
    rw [repliesIn, exhaust_encodeAll _ _ (by rw [FitAll]; exact ⟨hfit.1,trivial⟩) (by omega), hpart,
      star_waits, List.append_nil]
  refine ⟨?_,hall,?_⟩
  · rw [← hbytes]
    simp [sampleMoves, bytesRead]
  · simp only [sampleMoves, arrivals, arrived, List.nil_append, repliesIn_nil, hfirst, hbytes,
      hall, List.length_nil, List.length_singleton, List.drop_zero, List.drop_succ_cons]
    rfl

theorem sample_waits (late : List Reply) (hfit : FitAll 3 (confirmation [97] 1::late))
    (hl : (encodeAll (confirmation [97] 1::late)).length < 2^31) :
    Waits (encodeAll (confirmation [97] 1::late)) :=
  ⟨fresh,[],by rw [repliesIn, encodeAll_exhausted _ hfit hl]⟩

theorem quiet_plain : ∀ n, ∀ c ∈ quiet n, Plain c := by
  simp [quiet]

theorem sample_commands : commandBytes [subscribeA,subscribeAB] < 100 := by
  simp [commandBytes, command, subscribeA, subscribeAB, encode, encodeAll, decimal_digit, crlf]

def lateReplies : List Reply :=
  [confirmation [97] 1,confirmation [98] 2,messageReply [97] [120],messageReply [98] [121]]

end Sample

section Routing

variable {script : ℕ → List Call} (hscript : ∀ n, ∀ c ∈ script n, Plain c)
include hscript

omit hscript in
theorem connect_heard : Heard [] redisAsyncConnect :=
  ⟨by rw [repliesIn_nil]; exact exhaust_wait step rfl,le_refl _⟩

/-- Commands to subscribe, writes and reads in any order: which callbacks run with which
replies, and when nothing is defined. A reply whose channel no command named before goes to the
callback of the reply before it in the same read, and the first of a read has none. -/
theorem batches_delivered (moves : List Move) (hl : (bytesRead moves).length < 2^31)
    (hend : Waits (bytesRead moves))
    (hn : ∀ r ∈ repliesIn (bytesRead moves), channelOf r ≠ none)
    (hout : commandBytes (subscriptions moves)+
      spent script (repliesIn (bytesRead moves)).length < 2^31) :
    (run script redisAsyncConnect (moves.map Move.event)).map (fun last => last.history.ran) =
      ((arrivals [] [] moves).mapM fun a => delivered a.1 none a.2).map List.flatten := by
  have hall := arrivals_replies moves [] [] hl
  rw [repliesIn_nil, List.nil_append, List.nil_append] at hall
  exact run_moves hscript moves listening_connect (Nat.zero_le _) connect_heard hl hend
    (by rwa [hall]) (by rw [hall]; simpa [redisAsyncConnect] using hout)

omit hscript in
theorem stray_delivered : (run quiet redisAsyncConnect
      ((sampleMoves (lateReplies++[messageReply [122] [121]])).map Move.event)).map
      (fun last => last.history.ran) = some [(⟨some 1,0⟩,confirmation [97] 1),
        (⟨some 2,0⟩,confirmation [97] 1),(⟨some 2,0⟩,confirmation [98] 2),
        (⟨some 2,0⟩,messageReply [97] [120]),(⟨some 2,0⟩,messageReply [98] [121]),
        (⟨some 2,0⟩,messageReply [122] [121])] := by
  have hfit : FitAll 3 (confirmation [97] 1::(lateReplies++[messageReply [122] [121]])) := by
    simp [FitAll, Fits, lateReplies, confirmation, messageReply]
  have hl : (encodeAll (confirmation [97] 1::(lateReplies++[messageReply [122] [121]]))).length <
      2^31 := by
    simp [encodeAll, lateReplies, confirmation_length, messageReply_length]
  obtain ⟨hbytes,hall,harr⟩ := sample_arrivals _ hfit hl
    (by simp [lateReplies, encodeAll, confirmation, encode])
  have hdone := batches_delivered quiet_plain
    (sampleMoves (lateReplies++[messageReply [122] [121]])) (by rwa [hbytes])
    (by rw [hbytes]; exact sample_waits _ hfit hl) (by rw [hbytes, hall]; decide)
    (by simpa [sampleMoves, subscriptions, spent, quiet] using sample_commands.trans (by decide))
  rw [hdone, harr]
  rfl

omit hscript in
/-- The replies of a read, each with the callback that was subscribed last to its channel. -/
def routed (a : List Subscription × List Reply) : List (Callback × Reply) :=
  a.2.filterMap fun r => ((channelOf r).bind (route a.1)).map fun cb => (cb,r)

omit hscript in
/-- Where every channel has a subscription, the callback before does not matter. -/
theorem delivered_routed {subs : List Subscription} (rs : List Reply) (prev : Option Callback)
    (h : ∀ r ∈ rs, (channelOf r).bind (route subs) ≠ none) :
    delivered subs prev rs = some (routed (subs,rs)) := by
  induction rs generalizing prev with
  | nil => rfl
  | cons r rs ih =>
    rw [List.forall_mem_cons] at h
    obtain ⟨cb,hcb⟩ := Option.ne_none_iff_exists'.1 h.1
    rw [delivered, hcb, Option.some_or]
    simp only [ih (some cb) h.2, routed, Option.map_some, List.filterMap_cons, hcb]

omit hscript in
theorem mapM_routed (as : List (List Subscription × List Reply))
    (h : ∀ a ∈ as, ∀ r ∈ a.2, (channelOf r).bind (route a.1) ≠ none) :
    (as.mapM fun a => delivered a.1 none a.2) = some (as.map routed) := by
  induction as with
  | nil => rfl
  | cons a as ih =>
    rw [List.forall_mem_cons] at h
    rw [List.mapM_cons, delivered_routed a.2 none h.1, ih h.2]
    rfl

omit hscript in
theorem routed_replies (a : List Subscription × List Reply)
    (h : ∀ r ∈ a.2, (channelOf r).bind (route a.1) ≠ none) : (routed a).map Prod.snd = a.2 :=
  delivered_replies (delivered_routed a.2 none h)

/-- Every reply of the stream is delivered once and in order, however the reads cut it and
whatever is written or subscribed between them: it goes to the callback of the last command
that had named its channel when it was complete. -/
theorem messages_routed (moves : List Move) (hl : (bytesRead moves).length < 2^31)
    (hend : Waits (bytesRead moves))
    (hroutes : ∀ a ∈ arrivals [] [] moves, ∀ r ∈ a.2, (channelOf r).bind (route a.1) ≠ none)
    (hout : commandBytes (subscriptions moves)+
      spent script (repliesIn (bytesRead moves)).length < 2^31) :
    ∃ last, run script redisAsyncConnect (moves.map Move.event) = some last ∧
      last.history.ran = (arrivals [] [] moves).flatMap routed ∧
      last.history.ran.map Prod.snd = repliesIn (bytesRead moves) := by
  have hall := arrivals_replies moves [] [] hl
  rw [repliesIn_nil, List.nil_append, List.nil_append] at hall
  have hn : ∀ r ∈ (arrivals [] [] moves).flatMap Prod.snd, channelOf r ≠ none := by
    intro r hr hc
    obtain ⟨a,ha,hr⟩ := List.mem_flatMap.1 hr
    exact hroutes a ha r hr (by rw [hc]; rfl)
  have hrun := run_moves hscript moves listening_connect (Nat.zero_le _) connect_heard hl hend hn
    (by rw [hall]; simpa [redisAsyncConnect] using hout)
  rw [mapM_routed _ hroutes, Option.map_some, Option.map_eq_some_iff] at hrun
  obtain ⟨last,hlast,hran⟩ := hrun
  have hflat : last.history.ran = (arrivals [] [] moves).flatMap routed := by
    rw [hran, List.flatMap_def]
    rfl
  refine ⟨last,hlast,hflat,?_⟩
  rw [hflat, ← hall, List.map_flatMap]
  exact List.flatMap_congr fun a ha => routed_replies a (hroutes a ha)

omit hscript in
theorem two_messages_routed : ∃ last, run quiet redisAsyncConnect
      ((sampleMoves lateReplies).map Move.event) = some last ∧
    last.history.ran = [(⟨some 1,0⟩,confirmation [97] 1),(⟨some 2,0⟩,confirmation [97] 1),
      (⟨some 2,0⟩,confirmation [98] 2),(⟨some 2,0⟩,messageReply [97] [120]),
      (⟨some 2,0⟩,messageReply [98] [121])] := by
  have hfit : FitAll 3 (confirmation [97] 1::lateReplies) := by
    simp [FitAll, Fits, lateReplies, confirmation, messageReply]
  have hl : (encodeAll (confirmation [97] 1::lateReplies)).length < 2^31 := by
    simp [encodeAll, lateReplies, confirmation_length, messageReply_length]
  obtain ⟨hbytes,hall,harr⟩ := sample_arrivals _ hfit hl
    (by simp [lateReplies, encodeAll, confirmation, encode])
  obtain ⟨last,hlast,hran,-⟩ := messages_routed quiet_plain (sampleMoves lateReplies)
    (by rwa [hbytes]) (by rw [hbytes]; exact sample_waits _ hfit hl) (by rw [harr]; decide)
    (by simpa [sampleMoves, subscriptions, spent, quiet] using sample_commands.trans (by decide))
  rw [harr] at hran
  exact ⟨last,hlast,hran⟩

end Routing

end Duda.RedisSubscribe
