import Duda.RedisAsync

/-!
# Every command has its answer

As long as no channel is subscribed, callbacks are answered in the order of their
commands. In every interleaving of calls, calls inside of callbacks, and events of the
socket, the answers are the replies in the bytes received, one for each callback; the
callbacks that get the null pointer get it when the connection ends; and the bytes
written are those of the commands.
-/

set_option autoImplicit false

namespace Duda.RedisMatching
open Duda.IncrementalParser Duda.RedisReader Duda.RedisStream Duda.RedisAsync

/-- Calls that leave the subscriptions alone. -/
def Regular : Call → Prop
  | .command _ cmd => purpose cmd = some .regular
  | _ => True

section Calls

/-- What calls may do to a context without subscriptions: commands are put behind the
others, with their callbacks, unless the connection is about to be closed. -/
structure Later (a b : Context) : Prop where
  reader : b.reader = a.reader
  err : b.err = a.err
  connected : b.connected = a.connected
  subscribed : b.subscribed = a.subscribed
  freed : b.freed = a.freed
  tables : b.invalid = a.invalid ∧ b.channels = a.channels ∧ b.patterns = a.patterns
  history : b.history.answered = a.history.answered ∧ b.history.written = a.history.written ∧
    b.history.received = a.history.received ∧ b.history.ran = a.history.ran
  closing : a.disconnecting ∨ a.freeing → b.disconnecting ∨ b.freeing
  writing : a.writing → b.writing
  more : ∃ more, b.history.issued = a.history.issued++more ∧
    b.replies = a.replies++more.map Prod.fst ∧ b.obuf = a.obuf++(more.map Prod.snd).flatten ∧
    (a.disconnecting ∨ a.freeing → more = []) ∧ (more ≠ [] → b.writing)

theorem Later.refl (a : Context) : Later a a :=
  ⟨rfl,rfl,rfl,rfl,rfl,⟨rfl,rfl,rfl⟩,⟨rfl,rfl,rfl,rfl⟩,id,id,[],by simp⟩

theorem Later.trans {a b c : Context} (h : Later a b) (g : Later b c) : Later a c := by
  obtain ⟨m₁,hi₁,hr₁,ho₁,hc₁,hw₁⟩ := h.more
  obtain ⟨m₂,hi₂,hr₂,ho₂,hc₂,hw₂⟩ := g.more
  refine ⟨g.reader.trans h.reader,g.err.trans h.err,g.connected.trans h.connected,
    g.subscribed.trans h.subscribed,g.freed.trans h.freed,
    ⟨g.tables.1.trans h.tables.1,g.tables.2.1.trans h.tables.2.1,g.tables.2.2.trans h.tables.2.2⟩,
    ⟨g.history.1.trans h.history.1,g.history.2.1.trans h.history.2.1,
      g.history.2.2.1.trans h.history.2.2.1,g.history.2.2.2.trans h.history.2.2.2⟩,
    fun hc => g.closing (h.closing hc),fun hw => g.writing (h.writing hw),m₁++m₂,?_,?_,?_,?_,?_⟩
  · rw [hi₂, hi₁, List.append_assoc]
  · rw [hr₂, hr₁, List.append_assoc, List.map_append]
  · rw [ho₂, ho₁, List.append_assoc, List.map_append, List.flatten_append]
  · intro hc
    rw [hc₁ hc, hc₂ (h.closing hc), List.append_nil]
  · intro hne
    by_cases h₂ : m₂ = []
    · subst h₂
      exact g.writing (hw₁ (by simpa using hne))
    · exact hw₂ h₂

theorem append_some {a b : Context} {cmd : List UInt8} (h : append a cmd = some b) :
    (a.obuf++cmd).length < 2^31 ∧ b = { a with obuf := a.obuf++cmd, writing := true } := by
  rw [append] at h
  split_ifs at h with hl
  exact ⟨hl,(Option.some.inj h).symm⟩

theorem inside_later {a b : Context} {c : Call} (hr : Regular c) (hs : a.subscribed = false)
    (h : inside a c = some b) : Later a b := by
  cases c with
  | command cb cmd =>
    rw [inside, redisAsyncCommand] at h
    rw [Regular] at hr
    by_cases hc : a.disconnecting ∨ a.freeing
    · rw [if_pos hc, Option.some.injEq] at h
      subst h
      exact .refl a
    · simp only [if_neg hc, hr, push, hs, Bool.false_eq_true, if_false] at h
      obtain ⟨-,rfl⟩ := append_some h
      exact ⟨rfl,rfl,rfl,hs.symm,rfl,⟨rfl,rfl,rfl⟩,⟨rfl,rfl,rfl,rfl⟩,id,fun _ => rfl,[(cb,cmd)],
        rfl,rfl,by simp,fun h => absurd h hc,fun _ => rfl⟩
  | disconnect =>
    cases h
    exact ⟨rfl,rfl,rfl,rfl,rfl,⟨rfl,rfl,rfl⟩,⟨rfl,rfl,rfl,rfl⟩,fun _ => .inl rfl,id,[],by simp⟩
  | free =>
    cases h
    exact ⟨rfl,rfl,rfl,rfl,rfl,⟨rfl,rfl,rfl⟩,⟨rfl,rfl,rfl,rfl⟩,fun _ => .inr rfl,id,[],by simp⟩

theorem calls_later {a b : Context} (calls : List Call) (hr : ∀ c ∈ calls, Regular c)
    (hs : a.subscribed = false) (h : calls.foldlM inside a = some b) : Later a b := by
  induction calls generalizing a with
  | nil =>
    cases h
    exact .refl _
  | cons c calls ih =>
    rw [List.foldlM_cons, Option.bind_eq_bind, Option.bind_eq_some_iff] at h
    obtain ⟨mid,hc,hrest⟩ := h
    have hfirst := inside_later (hr c (by simp)) hs hc
    exact hfirst.trans (ih (fun c hm => hr c (List.mem_cons_of_mem _ hm))
      (hfirst.subscribed.trans hs) hrest)

variable {script : ℕ → List Call}

def noted (ctx : Context) (cb : Callback) (reply : Reply) : Context :=
  { ctx with history := { ctx.history with
    ran := ctx.history.ran++if cb.fn.isSome then [(cb,reply)] else [] } }

theorem noted_none {ctx : Context} {cb : Callback} (reply : Reply) (h : cb.fn = none) :
    noted ctx cb reply = ctx := by
  simp [noted, h]

theorem runCallback_later {a b : Context} {cb : Callback} {reply : Reply}
    (hr : ∀ n, ∀ c ∈ script n, Regular c) (hs : a.subscribed = false)
    (h : runCallback script reply a cb = some b) : Later (noted a cb reply) b := by
  rw [runCallback] at h
  cases hf : cb.fn with
  | none =>
    simp only [hf, Option.some.injEq] at h
    subst h
    rw [noted_none reply hf]
    exact .refl _
  | some fn =>
    simp only [hf, Option.map_eq_some_iff] at h
    obtain ⟨mid,hcalls,rfl⟩ := h
    -- the flag shows in no field of `Later`
    have hlater := calls_later _ (hr _) (by exact hs) hcalls
    have hran : mid.history.ran = (noted a cb reply).history.ran :=
      hlater.history.2.2.2.trans (by simp [noted, hf])
    exact ⟨hlater.reader,hlater.err,hlater.connected,hlater.subscribed,hlater.freed,
      hlater.tables,⟨hlater.history.1,hlater.history.2.1,hlater.history.2.2.1,hran⟩,
      hlater.closing,hlater.writing,hlater.more⟩

end Calls

section Queues

/-- The callbacks that are answered and those that wait are those of the commands, in their
order; those of them that have a function ran with their answers. The bytes written and those
that wait are those of the commands. -/
structure Queued (ctx : Context) : Prop where
  callbacks : ctx.history.answered.map Prod.fst++ctx.replies = ctx.history.issued.map Prod.fst
  ran : ctx.history.ran = ctx.history.answered.filter fun a => a.1.fn.isSome
  bytes : ctx.history.written++ctx.obuf = (ctx.history.issued.map Prod.snd).flatten
  scheduled : ctx.obuf ≠ [] → ctx.writing
  subscribed : ctx.subscribed = false
  tables : ctx.invalid = [] ∧ ctx.channels = [] ∧ ctx.patterns = []

theorem Later.queued {a b : Context} (h : Later a b) (hq : Queued a) : Queued b := by
  obtain ⟨more,hi,hr,ho,_,hw⟩ := h.more
  refine ⟨?_,?_,?_,?_,h.subscribed.trans hq.subscribed,?_⟩
  · rw [h.history.1, hr, hi, List.map_append, ← hq.callbacks, List.append_assoc]
  · rw [h.history.1, h.history.2.2.2, hq.ran]
  · rw [h.history.2.1, ho, hi, List.map_append, List.flatten_append, ← hq.bytes,
      List.append_assoc]
  · intro hne
    by_cases hm : more = []
    · subst hm
      exact h.writing (hq.scheduled (by simpa [ho] using hne))
    · exact hw hm
  · rw [h.tables.1, h.tables.2.1, h.tables.2.2]
    exact hq.tables

theorem Queued.congr {a b : Context} (hq : Queued a)
    (h : b.history.answered = a.history.answered ∧ b.history.issued = a.history.issued ∧
      b.history.written = a.history.written ∧ b.replies = a.replies ∧ b.obuf = a.obuf ∧
      b.writing = a.writing ∧ b.subscribed = a.subscribed ∧ b.invalid = a.invalid ∧
      b.channels = a.channels ∧ b.patterns = a.patterns ∧
      b.history.ran = a.history.ran) : Queued b := by
  obtain ⟨h1,h2,h3,h4,h5,h6,h7,h8,h9,h10,h11⟩ := h
  exact ⟨by rw [h1, h4, h2, hq.callbacks],by rw [h11, h1, hq.ran],by rw [h3, h5, h2, hq.bytes],
    by rw [h5, h6]; exact hq.scheduled,by rw [h7, hq.subscribed],
    by rw [h8, h9, h10]; exact hq.tables⟩

theorem shift_queued {ctx : Context} {cb : Callback} {rest : List Callback} (reply : Reply)
    (hq : Queued ctx) (hr : ctx.replies = cb::rest) :
    Queued (noted (shift ctx rest cb reply) cb reply) := by
  refine ⟨?_,?_,hq.bytes,hq.scheduled,hq.subscribed,hq.tables⟩
  · have h := hq.callbacks
    rw [hr] at h
    simpa [noted, shift] using h
  · simp only [noted, shift, List.filter_append, hq.ran]
    cases hf : cb.fn <;> simp [hf]

variable {script : ℕ → List Call}

/-- A connection that ends: who waited is answered with the null pointer. -/
theorem releaseReplies_ends (k : ℕ) {a b : Context} (hr : ∀ n, ∀ c ∈ script n, Regular c)
    (hq : Queued a) (hc : a.disconnecting ∨ a.freeing) (h : releaseReplies script k a = some b) :
    Queued b ∧ (b.disconnecting ∨ b.freeing) ∧ b.replies = [] ∧
      b.history.received = a.history.received ∧
      b.history.answered = a.history.answered++a.replies.map fun cb => (cb,.null) := by
  induction k generalizing a with
  | zero =>
    rw [releaseReplies.eq_def] at h
    cases hrep : a.replies with
    | nil =>
      simp only [hrep, Option.some.injEq] at h
      subst h
      exact ⟨hq,hc,hrep,rfl,by simp⟩
    | cons cb rest => simp [hrep] at h
  | succ k ih =>
    rw [releaseReplies.eq_def] at h
    cases hrep : a.replies with
    | nil =>
      simp only [hrep, Option.some.injEq] at h
      subst h
      exact ⟨hq,hc,hrep,rfl,by simp⟩
    | cons cb rest =>
      simp only [hrep, Option.bind_eq_some_iff] at h
      obtain ⟨mid,hrun,hrest⟩ := h
      have hshift := shift_queued .null hq hrep
      have hlater := runCallback_later hr (by exact hq.subscribed) hrun
      obtain ⟨more,_,hreps,_,hnone,_⟩ := hlater.more
      have hmore : more = [] := hnone hc
      obtain ⟨h1,h2,h3,h4,h5⟩ := ih (hlater.queued hshift)
        (hlater.closing hc) hrest
      refine ⟨h1,h2,h3,h4.trans hlater.history.2.2.1,?_⟩
      rw [h5, hlater.history.1, hreps, hmore]
      simp [noted, shift]

theorem asyncFree_ends {a b : Context} (hr : ∀ n, ∀ c ∈ script n, Regular c)
    (hq : Queued a) (hc : a.disconnecting ∨ a.freeing) (h : asyncFree script a = some b) :
    Queued b ∧ b.freed = true ∧ b.replies = [] ∧
      b.history.received = a.history.received ∧
      b.history.answered = a.history.answered++a.replies.map fun cb => (cb,.null) := by
  simp only [asyncFree, Option.bind_eq_bind, Option.bind_eq_some_iff] at h
  obtain ⟨b₁,h₁,b₂,h₂,b₃,h₃,b₄,h₄,hb⟩ := h
  obtain ⟨hq₁,_,hrep,hrec,hans⟩ := releaseReplies_ends _ hr hq hc h₁
  -- there are no invalid commands and no subscriptions
  obtain ⟨hinv,hchan,hpat⟩ := hq₁.tables
  rw [releaseInvalid.eq_def] at h₂
  simp only [hinv, Option.some.injEq] at h₂
  subst h₂
  simp only [hchan, List.map_nil, List.foldlM_nil, Option.pure_def, Option.some.injEq] at h₃
  subst h₃
  simp only [hpat, List.map_nil, List.foldlM_nil, Option.pure_def, Option.some.injEq] at h₄
  subst h₄
  rw [Option.some.injEq] at hb
  subst hb
  exact ⟨hq₁.congr ⟨rfl,rfl,rfl,rfl,rfl,rfl,rfl,rfl,rfl,rfl,rfl⟩,rfl,hrep,hrec,hans⟩

end Queues

section Answers

/-- The replies in the bytes received, as the reader finds them. -/
def repliesIn (bytes : List UInt8) : List Reply := (exhaust step fresh bytes).1

/-- A context that is in use: the answers given and the bytes that wait account for
everything received. -/
structure Live (ctx : Context) : Prop where
  clean : Clean ctx.reader
  bounded : ctx.reader.buf.length ≤ ctx.history.received.length
  waits : step ctx.reader.begin.core ctx.reader.unread = .wait
  accounts : exhaust step fresh ctx.history.received =
    (ctx.history.answered.map Prod.snd,.waiting ctx.reader.begin.core ctx.reader.unread)

/-- The answers are replies, one after the other, and then null pointers. -/
def Answered (ctx : Context) : Prop :=
  ∃ given left, ctx.history.answered.map Prod.snd = given++List.replicate left .null ∧
    given <+: repliesIn ctx.history.received

/-- The invariant between two events. -/
structure Inv (ctx : Context) : Prop where
  queued : Queued ctx
  answered : Answered ctx
  live : ctx.freed = false → Live ctx
  ended : ctx.freed = true → ctx.replies = []

theorem live_answered {ctx : Context} (h : Live ctx) : Answered ctx :=
  ⟨ctx.history.answered.map Prod.snd,0,by simp,by rw [repliesIn, h.accounts]⟩

variable {script : ℕ → List Call} (hr : ∀ n, ∀ c ∈ script n, Regular c)

include hr

/-- However a connection ends, the invariant holds at its end. -/
theorem asyncFree_inv {a b : Context} (h : asyncFree script a = some b) (hq : Queued a)
    (hc : a.disconnecting ∨ a.freeing)
    (hp : a.history.answered.map Prod.snd <+: repliesIn a.history.received) :
    Inv b ∧ b.history.received = a.history.received := by
  obtain ⟨h1,h2,h3,h4,h5⟩ := asyncFree_ends hr hq hc h
  refine ⟨⟨h1,⟨a.history.answered.map Prod.snd,a.replies.length,?_,by rw [h4]; exact hp⟩,?_,
    fun _ => h3⟩,h4⟩
  · rw [h5, List.map_append, List.map_map]
    congr 1
    exact List.eq_replicate_iff.2 ⟨by simp,by simp⟩
  · intro hf
    rw [h2] at hf
    cases hf

theorem asyncDisconnect_inv {a b : Context} (h : asyncDisconnect script a = some b)
    (hq : Queued a) (hc : a.err = true ∨ a.disconnecting)
    (hp : a.history.answered.map Prod.snd <+: repliesIn a.history.received) :
    Inv b ∧ b.history.received = a.history.received := by
  rw [asyncDisconnect] at h
  split_ifs at h with he hrep
  · have hend := asyncFree_inv hr h (hq.congr ⟨rfl,rfl,rfl,rfl,rfl,rfl,rfl,rfl,rfl,rfl,rfl⟩)
      (.inl rfl) hp
    exact hend
  · exact asyncFree_inv hr h hq (.inl (hc.resolve_left he)) hp

omit hr in
theorem chosen_first {ctx : Context} {first : Callback} {rest : List Callback} (reply : Reply)
    (cb : Option Callback) (h : ctx.replies = first::rest) :
    chosen ctx reply cb = some (shift ctx rest first reply,some first) := by
  simp only [chosen, h]

omit hr in
theorem processCallbacks_reply (k : ℕ) (cb : Option Callback) {ctx : Context} {r : Reader}
    {reply : Reply} (hg : ctx.reader.redisReaderGetReply = some (r,.ok,reply))
    (hnull : reply ≠ .null) :
    processCallbacks script (k+1) cb ctx =
      dispatch script (processCallbacks script k) reply cb { ctx with reader := r } := by
  simp only [processCallbacks, hg]

/-- A batch of replies. In the middle of it the replies that are still in the buffer are
accounted for. -/
theorem processCallbacks_inv (k : ℕ) (cb : Option Callback) {a b : Context} (hq : Queued a)
    (hf : a.freed = false) (hclean : Clean a.reader)
    (hb : a.reader.buf.length ≤ a.history.received.length) (hk : a.reader.unread.length < k)
    (hacc : exhaust step fresh a.history.received =
      (a.history.answered.map Prod.snd++
          (exhaust step a.reader.begin.core a.reader.unread).1,
        (exhaust step a.reader.begin.core a.reader.unread).2))
    (h : processCallbacks script k cb a = some b) :
    Inv b ∧ b.history.received = a.history.received := by
  induction k generalizing a cb with
  | zero => omega
  | succ k ih =>
    have hp : a.history.answered.map Prod.snd <+: repliesIn a.history.received := by
      rw [repliesIn, hacc]
      exact List.prefix_append _ _
    have hgot := getReply_got a.reader hclean
    generalize hg : a.reader.redisReaderGetReply = got at hgot
    cases hgot with
    | fault he => simp [processCallbacks, hg] at h
    | error e he =>
      simp only [processCallbacks, hg] at h
      have hend := asyncDisconnect_inv hr h
        (hq.congr ⟨rfl,rfl,rfl,rfl,rfl,rfl,rfl,rfl,rfl,rfl,rfl⟩) (.inl rfl) hp
      exact hend
    | waits next hn hw he =>
      simp only [processCallbacks, hg] at h
      split_ifs at h with hd
      · have hend := asyncDisconnect_inv hr h
          (hq.congr ⟨rfl,rfl,rfl,rfl,rfl,rfl,rfl,rfl,rfl,rfl,rfl⟩) (.inr hd.1) hp
        exact hend
      · rw [Option.some.injEq] at h
        subst h
        have hlive : Live { a with reader := next } := by
          refine ⟨hn,(getReply_buf hg).trans hb,hw,?_⟩
          rw [he, List.append_nil] at hacc
          exact hacc
        refine ⟨⟨hq.congr ⟨rfl,rfl,rfl,rfl,rfl,rfl,rfl,rfl,rfl,rfl,rfl⟩,live_answered hlive,
          fun _ => hlive,fun hfreed => ?_⟩,rfl⟩
        rw [hf] at hfreed
        cases hfreed
    | reply next reply hn hnull hl he =>
      rw [processCallbacks_reply k cb hg hnull, dispatch] at h
      rw [he] at hacc
      split_ifs at h with herror
      · have hend := asyncDisconnect_inv hr h
          (hq.congr ⟨rfl,rfl,rfl,rfl,rfl,rfl,rfl,rfl,rfl,rfl,rfl⟩) (.inl rfl) hp
        exact hend
      · cases hrep : a.replies with
        | nil => simp [chosen, hrep, hq.subscribed] at h
        | cons first rest =>
          have hchosen := chosen_first reply cb
            (show ({ a with reader := next } : Context).replies = first::rest from hrep)
          simp only [hchosen] at h
          have hshift : Queued (noted (shift { a with reader := next } rest first reply) first
              reply) :=
            shift_queued reply (hq.congr ⟨rfl,rfl,rfl,rfl,rfl,rfl,rfl,rfl,rfl,rfl,rfl⟩) hrep
          have haccounts : exhaust step fresh a.history.received =
              ((a.history.answered++[(first,reply)]).map Prod.snd++
                (exhaust step next.begin.core next.unread).1,
                (exhaust step next.begin.core next.unread).2) := by
            rw [hacc, List.map_append, List.append_assoc]
            rfl
          cases hfn : first.fn with
          | none =>
            simp only [hfn] at h
            rw [noted_none reply hfn] at hshift
            have hrest := ih (some first) hshift hf hn ((getReply_buf hg).trans hb)
              (by change next.unread.length < k; omega) haccounts h
            exact hrest
          | some fn =>
            simp only [hfn] at h
            generalize hrun : runCallback script reply
              (shift { a with reader := next } rest first reply) first = result at h
            cases result with
            | none => simp at h
            | some mid =>
              have hlater := runCallback_later hr (by exact hq.subscribed) hrun
              have hmid := hlater.queued hshift
              have hrec : mid.history.received = a.history.received := hlater.history.2.2.1
              have hans : mid.history.answered = a.history.answered++[(first,reply)] :=
                hlater.history.1
              have hread : mid.reader = next := hlater.reader
              simp only at h
              split_ifs at h with hfree
              · have hend := asyncFree_inv hr h hmid (.inr hfree) (by
                  rw [hans, hrec, repliesIn, haccounts]
                  exact List.prefix_append _ _)
                rwa [hrec] at hend
              · have hrest := ih (some first) hmid (hlater.freed.trans hf) (by rwa [hread])
                  (by rw [hread, hrec]; exact (getReply_buf hg).trans hb) (by rw [hread]; omega)
                  (by rw [hread, hrec, hans, haccounts]) h
                rwa [hrec] at hrest

end Answers

section Runs

theorem congr_inv {a b : Context} (hi : Inv a) (hq : Queued b) (hf : a.freed = false)
    (h : b.freed = a.freed ∧ b.reader = a.reader ∧
      b.history.answered = a.history.answered ∧ b.history.received = a.history.received) :
    Inv b := by
  obtain ⟨h1,h2,h3,h4⟩ := h
  have hl := hi.live hf
  have hlive : Live b := ⟨by rw [h2]; exact hl.clean,by rw [h2, h4]; exact hl.bounded,
    by rw [h2]; exact hl.waits,by rw [h2, h3, h4]; exact hl.accounts⟩
  refine ⟨hq,live_answered hlive,fun _ => hlive,fun hb => ?_⟩
  rw [h1, hf] at hb
  cases hb

theorem live_prefix {ctx : Context} (h : Live ctx) :
    ctx.history.answered.map Prod.snd <+: repliesIn ctx.history.received := by
  rw [repliesIn, h.accounts]

def bytesOf : Event → List UInt8
  | .readable _ (.data piece) => piece
  | _ => []

def RegularEvent : Event → Prop
  | .call c => Regular c
  | _ => True

variable {script : ℕ → List Call} (hr : ∀ n, ∀ c ∈ script n, Regular c)

include hr

theorem outside_inv {a b : Context} {c : Call} (hi : Inv a) (hf : a.freed = false)
    (hc : Regular c) (h : outside script a c = some b) :
    Inv b ∧ b.history.received = a.history.received := by
  have hp := live_prefix (hi.live hf)
  cases c with
  | command cb cmd =>
    have hlater : Later a b := inside_later hc hi.queued.subscribed h
    exact ⟨congr_inv hi (hlater.queued hi.queued) hf
      ⟨hlater.freed,hlater.reader,hlater.history.1,hlater.history.2.2.1⟩,hlater.history.2.2.1⟩
  | disconnect =>
    have hq : Queued { a with disconnecting := true } :=
      hi.queued.congr ⟨rfl,rfl,rfl,rfl,rfl,rfl,rfl,rfl,rfl,rfl,rfl⟩
    rw [outside] at h
    split_ifs at h with hrep
    · have hend := asyncDisconnect_inv hr h hq (.inr rfl) hp
      exact hend
    · rw [Option.some.injEq] at h
      subst h
      exact ⟨congr_inv hi hq hf ⟨rfl,rfl,rfl,rfl⟩,rfl⟩
  | free =>
    have hend := asyncFree_inv hr h
      (hi.queued.congr ⟨rfl,rfl,rfl,rfl,rfl,rfl,rfl,rfl,rfl,rfl,rfl⟩) (.inr rfl) hp
    exact hend

theorem handleConnect_inv {a b : Context} {opening : Opening} (hi : Inv a)
    (hf : a.freed = false) (h : handleConnect script a opening = some b) :
    Inv b ∧ b.history.received = a.history.received := by
  have hp := live_prefix (hi.live hf)
  unfold handleConnect at h
  split_ifs at h with hc
  · rw [Option.some.injEq] at h
    subst h
    exact ⟨hi,rfl⟩
  · cases opening with
    | done =>
      cases h
      exact ⟨congr_inv hi (hi.queued.congr ⟨rfl,rfl,rfl,rfl,rfl,rfl,rfl,rfl,rfl,rfl,rfl⟩) hf
        ⟨rfl,rfl,rfl,rfl⟩,rfl⟩
    | inProgress =>
      cases h
      exact ⟨congr_inv hi (hi.queued.congr ⟨rfl,rfl,rfl,rfl,rfl,rfl,rfl,rfl,rfl,rfl,rfl⟩) hf
        ⟨rfl,rfl,rfl,rfl⟩,rfl⟩
    | failed =>
      have hend := asyncDisconnect_inv hr h
        (hi.queued.congr ⟨rfl,rfl,rfl,rfl,rfl,rfl,rfl,rfl,rfl,rfl,rfl⟩) (.inl rfl) hp
      exact hend

omit hr in
theorem bufferRead_accounts {a b : Context} {incoming : Incoming} (hl : Live a)
    (hlen : (a.history.received++bytesOf (.readable .done incoming)).length < 2^31)
    (h : bufferRead a incoming = some b) :
    Clean b.reader ∧ b.reader.buf.length ≤ b.history.received.length ∧
      exhaust step fresh b.history.received =
        (b.history.answered.map Prod.snd++(exhaust step b.reader.begin.core b.reader.unread).1,
          (exhaust step b.reader.begin.core b.reader.unread).2) := by
  have hsame : exhaust step fresh a.history.received =
      (a.history.answered.map Prod.snd++(exhaust step a.reader.begin.core a.reader.unread).1,
        (exhaust step a.reader.begin.core a.reader.unread).2) := by
    rw [hl.accounts, exhaust_wait step hl.waits, List.append_nil]
  rw [bufferRead.eq_def] at h
  split_ifs at h with he
  · cases h
    exact ⟨hl.clean,hl.bounded,hsame⟩
  · cases incoming with
    | data piece =>
      simp only [Option.map_eq_some_iff] at h
      obtain ⟨next,hfeed,rfl⟩ := h
      have hfed := feed_fed hl.clean hfeed
      refine ⟨hfed.clean,?_,?_⟩
      · have hb := hl.bounded
        rw [hfed.buf]
        simp only [List.length_append]
        omega
      · simp only [hfed.core, hfed.unread]
        rw [exhaust_append step_steady fresh a.history.received piece hlen, hl.accounts]
        rfl
    | again =>
      cases h
      exact ⟨hl.clean,hl.bounded,hsame⟩
    | closed =>
      cases h
      exact ⟨hl.clean,hl.bounded,hsame⟩
    | failed =>
      cases h
      exact ⟨hl.clean,hl.bounded,hsame⟩

omit hr in
theorem bufferRead_queued {a b : Context} {incoming : Incoming} (hq : Queued a)
    (h : bufferRead a incoming = some b) : Queued b := by
  rw [bufferRead.eq_def] at h
  split_ifs at h
  · cases h
    exact hq
  · cases incoming with
    | data piece =>
      simp only [Option.map_eq_some_iff] at h
      obtain ⟨next,-,rfl⟩ := h
      exact hq.congr ⟨rfl,rfl,rfl,rfl,rfl,rfl,rfl,rfl,rfl,rfl,rfl⟩
    | again | closed | failed =>
      cases h
      exact hq.congr ⟨rfl,rfl,rfl,rfl,rfl,rfl,rfl,rfl,rfl,rfl,rfl⟩

omit hr in
theorem bufferRead_received {a b : Context} (opening : Opening) {incoming : Incoming}
    (h : bufferRead a incoming = some b) :
    b.history.received.length ≤
        a.history.received.length+(bytesOf (.readable opening incoming)).length ∧
      b.freed = a.freed := by
  rw [bufferRead.eq_def] at h
  split_ifs at h
  · cases h
    exact ⟨by omega,rfl⟩
  · cases incoming with
    | data piece =>
      simp only [Option.map_eq_some_iff] at h
      obtain ⟨next,-,rfl⟩ := h
      simp [bytesOf]
    | again | closed | failed =>
      cases h
      simp [bytesOf]

theorem handleRead_inv {a b : Context} {opening : Opening} {incoming : Incoming} (hi : Inv a)
    (hf : a.freed = false)
    (hlen : (a.history.received++bytesOf (.readable opening incoming)).length < 2^31)
    (h : handleRead script a opening incoming = some b) :
    Inv b ∧ b.history.received.length ≤
      a.history.received.length+(bytesOf (.readable opening incoming)).length := by
  rw [handleRead] at h
  cases hc : handleConnect script a opening with
  | none => simp [hc] at h
  | some c =>
    obtain ⟨hic,hrc⟩ := handleConnect_inv hr hi hf hc
    simp only [hc] at h
    rw [← hrc] at hlen ⊢
    split_ifs at h with hfreed
    · rw [Option.some.injEq] at h
      subst h
      exact ⟨hic,by omega⟩
    · have hfc : c.freed = false := by
        cases hcf : c.freed with
        | false => rfl
        | true => exact absurd (.inl hcf) hfreed
      have hbytes : bytesOf (.readable opening incoming) = bytesOf (.readable .done incoming) := by
        cases incoming <;> rfl
      rw [hbytes] at hlen ⊢
      cases hread : bufferRead c incoming with
      | none => simp [hread] at h
      | some d =>
        simp only [hread] at h
        obtain ⟨hclean,hbuf,hacc⟩ := bufferRead_accounts (hic.live hfc) hlen hread
        obtain ⟨hrec,hfb⟩ := bufferRead_received .done hread
        have hq := bufferRead_queued hic.queued hread
        split_ifs at h with herr
        · have hend := asyncDisconnect_inv hr h hq (.inl herr) (by
            rw [repliesIn, hacc]
            exact List.prefix_append _ _)
          exact ⟨hend.1,by rw [hend.2]; exact hrec⟩
        · have hend := processCallbacks_inv hr _ none hq (hfb.trans hfc) hclean hbuf
            (Nat.lt_succ_self _) hacc h
          exact ⟨hend.1,by rw [hend.2]; exact hrec⟩

omit hr in
theorem bufferWrite_queued {a : Context} (outgoing : Outgoing) (hq : Queued a) :
    Queued (bufferWrite a outgoing) := by
  unfold bufferWrite
  split_ifs with he
  · exact hq
  · cases outgoing with
    | taken n =>
      refine ⟨hq.callbacks,hq.ran,?_,fun hne => hq.scheduled ?_,hq.subscribed,hq.tables⟩
      · simp only
        rw [List.append_assoc, List.take_append_drop, hq.bytes]
      · exact fun hempty => hne (by simp [hempty])
    | again => exact hq
    | failed => exact hq.congr ⟨rfl,rfl,rfl,rfl,rfl,rfl,rfl,rfl,rfl,rfl,rfl⟩

omit hr in
theorem bufferWrite_same (a : Context) (outgoing : Outgoing) :
    (bufferWrite a outgoing).freed = a.freed ∧ (bufferWrite a outgoing).reader = a.reader ∧
      (bufferWrite a outgoing).history.answered = a.history.answered ∧
      (bufferWrite a outgoing).history.received = a.history.received := by
  unfold bufferWrite
  split_ifs
  · exact ⟨rfl,rfl,rfl,rfl⟩
  · cases outgoing <;> exact ⟨rfl,rfl,rfl,rfl⟩

theorem handleWrite_inv {a b : Context} {opening : Opening} {outgoing : Outgoing} (hi : Inv a)
    (hf : a.freed = false) (h : handleWrite script a opening outgoing = some b) :
    Inv b ∧ b.history.received = a.history.received := by
  rw [handleWrite] at h
  cases hc : handleConnect script a opening with
  | none => simp [hc] at h
  | some c =>
    obtain ⟨hic,hrc⟩ := handleConnect_inv hr hi hf hc
    simp only [hc] at h
    rw [← hrc]
    split_ifs at h with hfreed herr
    · rw [Option.some.injEq] at h
      subst h
      exact ⟨hic,rfl⟩
    all_goals
      have hfc : c.freed = false := by
        cases hcf : c.freed with
        | false => rfl
        | true => exact absurd (.inl hcf) hfreed
      have hq := bufferWrite_queued outgoing hic.queued
      have hsame := bufferWrite_same c outgoing
    · have hend := asyncDisconnect_inv hr h hq (.inl herr) (by
        rw [hsame.2.2.1, hsame.2.2.2]
        exact live_prefix (hic.live hfc))
      rwa [hsame.2.2.2] at hend
    · rw [Option.some.injEq] at h
      subst h
      refine ⟨congr_inv hic ⟨hq.callbacks,hq.ran,hq.bytes,?_,hq.subscribed,hq.tables⟩ hfc hsame,
        hsame.2.2.2⟩
      intro hne
      simpa using hne

theorem handle_inv {a b : Context} {e : Event} (hi : Inv a) (hf : a.freed = false)
    (he : RegularEvent e) (hlen : (a.history.received++bytesOf e).length < 2^31)
    (h : handle script a e = some b) :
    Inv b ∧ b.history.received.length ≤ a.history.received.length+(bytesOf e).length := by
  cases e with
  | call c =>
    obtain ⟨hb,hrec⟩ := outside_inv hr hi hf he h
    exact ⟨hb,by rw [hrec]; omega⟩
  | readable opening incoming => exact handleRead_inv hr hi hf hlen h
  | writable opening outgoing =>
    obtain ⟨hb,hrec⟩ := handleWrite_inv hr hi hf h
    exact ⟨hb,by rw [hrec]; omega⟩

theorem run_inv {a b : Context} (events : List Event) (hi : Inv a)
    (he : ∀ e ∈ events, RegularEvent e)
    (hlen : a.history.received.length+(events.flatMap bytesOf).length < 2^31)
    (h : run script a events = some b) :
    Inv b ∧
      b.history.received.length ≤ a.history.received.length+(events.flatMap bytesOf).length := by
  induction events generalizing a with
  | nil =>
    cases h
    exact ⟨hi,by simp⟩
  | cons e events ih =>
    rw [run] at h
    split_ifs at h with hf
    · cases h
      exact ⟨hi,by omega⟩
    · rw [Option.bind_eq_some_iff] at h
      obtain ⟨mid,hmid,hrest⟩ := h
      rw [List.flatMap_cons, List.length_append] at hlen ⊢
      obtain ⟨hinv,hrec⟩ := handle_inv hr hi (by simpa using hf) (he e (by simp))
        (by rw [List.length_append]; omega) hmid
      obtain ⟨hb,hlast⟩ := ih hinv (fun e hm => he e (List.mem_cons_of_mem _ hm)) (by omega) hrest
      exact ⟨hb,by omega⟩

omit hr in
theorem connect_inv : Inv redisAsyncConnect := by
  have hlive : Live redisAsyncConnect := ⟨create_clean,le_refl _,rfl,exhaust_wait step rfl⟩
  exact ⟨⟨rfl,rfl,rfl,fun h => absurd rfl h,rfl,rfl,rfl,rfl⟩,live_answered hlive,fun _ => hlive,
    fun h => absurd h (by decide)⟩

omit hr in
def quiet : ℕ → List Call := fun _ => []

omit hr in
theorem bufferRead_open {a : Context} {incoming : Incoming} (he : a.err = false)
    (hin : incoming ≠ .closed ∧ incoming ≠ .failed)
    (hlen : a.reader.buf.length+(bytesOf (.readable .done incoming)).length < 2^31) :
    ∃ b, bufferRead a incoming = some b ∧
      b.history.received = a.history.received++bytesOf (.readable .done incoming) ∧
      b.err = false ∧ b.disconnecting = a.disconnecting ∧ b.obuf = a.obuf ∧
      b.replies = a.replies ∧ b.history.answered = a.history.answered := by
  cases incoming with
  | data piece =>
    obtain ⟨next,hnext⟩ : ∃ next, a.reader.redisReaderFeed piece = some next := feed_some hlen
    simp [bufferRead, he, bytesOf, hnext]
  | again => simp [bufferRead, he, bytesOf]
  | closed => exact absurd rfl hin.1
  | failed => exact absurd rfl hin.2

/-- A disconnection that waits for answers does not survive bytes that complete none: it comes
to `__redisAsyncDisconnect` with callbacks that wait, and the assertion that there are none
fails. -/
theorem partial_reply_aborts (events : List Event) (ctx : Context) (opening : Opening)
    (incoming : Incoming) (he : ∀ e ∈ events, RegularEvent e)
    (hlen : (events.flatMap bytesOf).length+(bytesOf (.readable opening incoming)).length < 2^31)
    (h : run script redisAsyncConnect events = some ctx)
    (hopen : ctx.freed = false ∧ ctx.connected = true ∧ ctx.err = false)
    (hdis : ctx.disconnecting = true ∧ ctx.obuf = [] ∧ ctx.replies ≠ [])
    (hin : incoming ≠ .closed ∧ incoming ≠ .failed)
    (hpart : ∃ core rest, exhaust step fresh
      (ctx.history.received++bytesOf (.readable opening incoming)) =
        (repliesIn ctx.history.received,.waiting core rest)) :
    ∃ last : Context, handle script ctx (.readable opening incoming) = asyncDisconnect script last ∧
      last.err = false ∧ last.replies = ctx.replies ∧ asyncDisconnect script last = none := by
  obtain ⟨hi,hrec⟩ := run_inv hr events connect_inv he
    (by simp only [redisAsyncConnect, List.length_nil]; omega) h
  simp only [redisAsyncConnect, List.length_nil] at hrec
  have hl := hi.live hopen.1
  have hbounded := hl.bounded
  have hbytes : bytesOf (.readable opening incoming) = bytesOf (.readable .done incoming) := by
    cases incoming <;> rfl
  rw [hbytes] at hlen hpart
  obtain ⟨mid,hread,hreceived,hsame⟩ := bufferRead_open hopen.2.2 hin (by omega)
  obtain ⟨hclean,-,hacc⟩ := bufferRead_accounts hl (by rw [List.length_append]; omega) hread
  -- nothing is complete in what the reader has
  have hnone : ∃ core rest, exhaust step mid.reader.begin.core mid.reader.unread =
      ([],.waiting core rest) := by
    obtain ⟨core,rest,hpart⟩ := hpart
    rw [← hreceived, hacc, hsame.2.2.2.2, repliesIn, hl.accounts, Prod.mk.injEq,
      List.append_right_eq_self] at hpart
    exact ⟨core,rest,Prod.ext hpart.1 hpart.2⟩
  obtain ⟨core,rest,hnone⟩ := hnone
  have hconnect : handleConnect script ctx opening = some ctx := by
    unfold handleConnect
    rw [if_pos hopen.2.1]
  rw [handle, handleRead, hconnect]
  simp only [hopen.1, hopen.2.1, hread, hsame.1, Bool.false_eq_true, not_true_eq_false, or_self,
    if_false]
  have hgot := getReply_got _ hclean
  generalize hg : mid.reader.redisReaderGetReply = got at hgot
  cases hgot with
  | fault hx => simp [hnone] at hx
  | error e hx => simp [hnone] at hx
  | reply next reply hn hnull hlt hx => simp [hnone] at hx
  | waits next hn hw hx =>
    refine ⟨{ mid with reader := next },?_,hsame.1,hsame.2.2.2.1,?_⟩
    · simp only [processCallbacks, hg]
      rw [if_pos ⟨hsame.2.1.trans hdis.1,hsame.2.2.1.trans hdis.2.1⟩]
    · rw [asyncDisconnect, if_neg (by simp [hsame.1]), if_neg]
      exact fun hempty => hdis.2.2 (hsame.2.2.2.1.symm.trans hempty)

omit hr in
/-- A `PING` that is on its way when the user disconnects, and the first byte of the
answer. -/
theorem ping_aborts : ∃ ctx, run quiet redisAsyncConnect
      [.call (.command ⟨some 1,2⟩ [42,49,13,10,36,52,13,10,80,73,78,71,13,10]),
        .writable .done (.taken 14),.call .disconnect] = some ctx ∧
    ∃ last : Context,
      handle quiet ctx (.readable .done (.data [43])) = asyncDisconnect quiet last ∧
        last.err = false ∧ last.replies = ctx.replies ∧ asyncDisconnect quiet last = none := by
  obtain ⟨ctx,h,hopen,hdis,hrec⟩ : ∃ ctx, run quiet redisAsyncConnect
      [.call (.command ⟨some 1,2⟩ [42,49,13,10,36,52,13,10,80,73,78,71,13,10]),
        .writable .done (.taken 14),.call .disconnect] = some ctx ∧
      (ctx.freed = false ∧ ctx.connected = true ∧ ctx.err = false) ∧
      (ctx.disconnecting = true ∧ ctx.obuf = [] ∧ ctx.replies ≠ []) ∧
      ctx.history.received = [] :=
    ⟨_,rfl,⟨rfl,rfl,rfl⟩,⟨rfl,rfl,List.cons_ne_nil _ _⟩,rfl⟩
  refine ⟨ctx,h,partial_reply_aborts (by simp [quiet]) _ ctx .done (.data [43]) ?_ (by decide) h
    hopen hdis (by simp) ⟨⟨[⟨some .status,-1,-1⟩],.null⟩,[],?_⟩⟩
  · simp [RegularEvent, Regular]
    rfl
  · have htype : step fresh [43] = .take 1 ⟨[⟨some .status,-1,-1⟩],.null⟩ [] := rfl
    have hbegin : repliesIn [] = [] := by rw [repliesIn, exhaust_wait step rfl]
    rw [hrec, hbegin, bytesOf, List.nil_append, exhaust_take step_steady htype, List.drop_one,
      List.tail_cons, exhaust_wait step rfl]
    rfl

end Runs

end Duda.RedisMatching
