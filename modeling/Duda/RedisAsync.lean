import Duda.RedisCommand

/-!
# The asynchronous redis client

A command is put behind the others in the output buffer, and its callback
behind the others in the list of replies. Events of the socket move bytes, and every
reply that is complete goes to the callback at the head of the list. A
connection that ends hands the null pointer to the callbacks that are left. What the
user's code does inside of its callbacks is a script: some calls for each run of a
callback. The history beside the context serves the statements only.
-/

set_option autoImplicit false

namespace Duda.RedisAsync
open Duda.CType Duda.RedisReader Duda.RedisStream

section Commands

/-- `strchr` in a block that ends with a terminator. -/
def strchr (c : UInt8) : List UInt8 → Option (List UInt8)
  | [] => none
  | b::s => if b = c then some (b::s) else if b = 0 then none else strchr c s

/-- `strtol` in base ten, with the bounds of a `long`. -/
def strtol (s : List UInt8) : ℤ :=
  let (sign,digits) := readSign (s.dropWhile isspace)
  max (-2^63) (min (2^63-1)
    (sign*Decimal.value 0 (digits.takeWhile fun c => 48 ≤ c.toNat ∧ c.toNat < 58)))

/-- An argument of a command that is formatted: where it begins, its length, and what
stands behind it. -/
inductive Argument where
  | found (str : List UInt8) (len : ℕ) (next : List UInt8)
  | missing
  | fault
  deriving DecidableEq, Repr

def nextArgument (start : List UInt8) : Argument :=
  match if charAt start 0 = 36 then some start else strchr 36 start with
  | none => .missing
  | some p =>
    match strchr cr p with
    | none => .fault
    | some s =>
      let len := MachineInt.i32 (strtol (p.drop 1))
      if len < 0 then .fault
      else .found (s.drop 2) len.toNat (s.drop (2+len.toNat+2))

/-- `strncasecmp` with all of a text in lower case. -/
def hasText (text s : List UInt8) : Bool :=
  (List.range text.length).all fun i => tolower (charAt s i) = charAt text i

/-- `subscribe` and the end of its line. -/
def subscribeText : List UInt8 := [115,117,98,115,99,114,105,98,101,13,10]

/-- `unsubscribe` and the end of its line. -/
def unsubscribeText : List UInt8 := [117,110,115,117,98,115,99,114,105,98,101,13,10]

/-- What a command is for. The names are those of channels, or of patterns. -/
inductive Purpose where
  | subscribe (pvariant : Bool) (names : List (List UInt8))
  | unsubscribe
  | regular
  deriving DecidableEq, Repr

def namesLoop : ℕ → List UInt8 → Option (List (List UInt8))
  | 0, _ => none
  | k+1, p =>
    match nextArgument p with
    | .missing => some []
    | .fault => none
    | .found str len next => (namesLoop k next).map (str.take len::·)

/-- The first part of `__redisAsyncCommand`. -/
def purpose (cmd : List UInt8) : Option Purpose :=
  match nextArgument cmd with
  | .found str _ next =>
    let pvariant := tolower (charAt str 0) = 112
    let cstr := if pvariant then str.drop 1 else str
    if charAt next 0 = 36 ∧ hasText subscribeText cstr then
      (namesLoop (next.length+1) next).map (.subscribe pvariant)
    else if hasText unsubscribeText cstr then some .unsubscribe
    else some .regular
  | _ => none

end Commands

section Contexts

/-- A callback. The function may be the null pointer. -/
structure Callback where
  fn : Option ℕ
  privdata : ℕ
  deriving DecidableEq, Repr

/-- The callbacks of channels or patterns. -/
abbrev Table := List (List UInt8 × Callback)

def dictReplace (key : List UInt8) (cb : Callback) : Table → Table
  | [] => [(key,cb)]
  | (k,c)::t => if k = key then (k,cb)::t else (k,c)::dictReplace key cb t

def dictFind (key : List UInt8) (t : Table) : Option Callback := t.lookup key

def dictDelete (key : List UInt8) (t : Table) : Table := t.filter fun e => e.1 ≠ key

/-- What happened: the commands that were accepted with a callback for their reply, the
callbacks that were taken from the list of replies with what they got, the bytes that the
socket took and gave, and the callbacks that ran with what they were given. -/
structure History where
  issued : List (Callback × List UInt8)
  answered : List (Callback × Reply)
  written : List UInt8
  received : List UInt8
  ran : List (Callback × Reply)

structure Context where
  connected : Bool
  disconnecting : Bool
  freeing : Bool
  subscribed : Bool
  inCallback : Bool
  err : Bool
  obuf : List UInt8
  reader : Reader
  replies : List Callback
  invalid : List Callback
  channels : Table
  patterns : Table
  writing : Bool
  freed : Bool
  history : History

/-- `redisAsyncInitialize` for a socket that is connecting. -/
def redisAsyncConnect : Context :=
  ⟨false,false,false,false,false,false,[],Reader.redisReaderCreate,[],[],[],[],false,false,
    ⟨[],[],[],[],[]⟩⟩

/-- The calls that the user's code can make. -/
inductive Call where
  | command (cb : Callback) (cmd : List UInt8)
  | disconnect
  | free

/-- `__redisAppendCommand`, and the write that is scheduled. An output buffer whose length
leaves the `int` of its header is not followed further. -/
def append (ctx : Context) (cmd : List UInt8) : Option Context :=
  if (ctx.obuf++cmd).length < 2^31 then some { ctx with obuf := ctx.obuf++cmd, writing := true }
  else none

/-- A callback for every name. -/
def replaceAll (cb : Callback) (names : List (List UInt8)) (t : Table) : Table :=
  names.foldl (fun t name => dictReplace name cb t) t

def register (ctx : Context) (cb : Callback) (pvariant : Bool) (names : List (List UInt8)) :
    Context :=
  if pvariant then
    { ctx with patterns := replaceAll cb names ctx.patterns, subscribed := true }
  else { ctx with channels := replaceAll cb names ctx.channels, subscribed := true }

/-- `__redisPushCallback`. -/
def push (ctx : Context) (cb : Callback) (cmd : List UInt8) : Context :=
  if ctx.subscribed then { ctx with invalid := ctx.invalid++[cb] }
  else { ctx with replies := ctx.replies++[cb], history := { ctx.history with
    issued := ctx.history.issued++[(cb,cmd)] } }

/-- `__redisAsyncCommand`. -/
def redisAsyncCommand (ctx : Context) (cb : Callback) (cmd : List UInt8) : Option Context :=
  if ctx.disconnecting ∨ ctx.freeing then some ctx
  else
    match purpose cmd with
    | none => none
    | some (.subscribe pvariant names) => append (register ctx cb pvariant names) cmd
    | some .unsubscribe => if ctx.subscribed then append ctx cmd else some ctx
    | some .regular => append (push ctx cb cmd) cmd

def inside (ctx : Context) : Call → Option Context
  | .command cb cmd => redisAsyncCommand ctx cb cmd
  | .disconnect => some { ctx with disconnecting := true }
  | .free => some { ctx with freeing := true }

variable (script : ℕ → List Call)

/-- `__redisRunCallback`. -/
def runCallback (reply : Reply) (ctx : Context) (cb : Callback) : Option Context :=
  match cb.fn with
  | none => some ctx
  | some _ =>
    ((script ctx.history.ran.length).foldlM inside { ctx with inCallback := true, history :=
      { ctx.history with ran := ctx.history.ran++[(cb,reply)] } }).map
        fun ctx => { ctx with inCallback := false }

/-- `__redisShiftCallback` on the list of replies, with what the callback gets. -/
def shift (ctx : Context) (rest : List Callback) (cb : Callback) (reply : Reply) : Context :=
  { ctx with replies := rest, history := { ctx.history with
    answered := ctx.history.answered++[(cb,reply)] } }

/-- The pending callbacks get the null pointer. -/
def releaseReplies : ℕ → Context → Option Context
  | k, ctx =>
    match ctx.replies with
    | [] => some ctx
    | cb::rest =>
      match k with
      | 0 => none
      | k+1 => (runCallback script .null (shift ctx rest cb .null) cb).bind (releaseReplies k)

def releaseInvalid : ℕ → Context → Option Context
  | k, ctx =>
    match ctx.invalid with
    | [] => some ctx
    | cb::rest =>
      match k with
      | 0 => none
      | k+1 => (runCallback script .null { ctx with invalid := rest } cb).bind (releaseInvalid k)

/-- `__redisAsyncFree`. -/
def asyncFree (ctx : Context) : Option Context := do
  let ctx ← releaseReplies script ctx.replies.length ctx
  let ctx ← releaseInvalid script ctx.invalid.length ctx
  let ctx ← (ctx.channels.map Prod.snd).foldlM (runCallback script .null) ctx
  let ctx ← (ctx.patterns.map Prod.snd).foldlM (runCallback script .null) ctx
  some { ctx with freed := true }

/-- `__redisAsyncDisconnect`. A clean end has no pending callbacks. -/
def asyncDisconnect (ctx : Context) : Option Context :=
  if ctx.err then asyncFree script { ctx with disconnecting := true }
  else if ctx.replies = [] then asyncFree script ctx
  else none

def outside (ctx : Context) : Call → Option Context
  | .command cb cmd => redisAsyncCommand ctx cb cmd
  | .disconnect =>
    if ctx.replies = [] then asyncDisconnect script { ctx with disconnecting := true }
    else some { ctx with disconnecting := true }
  | .free => asyncFree script { ctx with freeing := true }

/-- A message for the subscriber, taken apart: its type, whether that is a type for
patterns, the name, and the third element. -/
def message : Reply → Option (List UInt8 × Bool × List UInt8 × Option Reply)
  | .array _ (.string stype::.string name::rest) =>
    some (stype,tolower (charAt stype 0) = 112,name,rest.head?)
  | _ => none

/-- Whether a type is that of an unsubscription, up to its terminator. -/
def isUnsubscribe (stype : List UInt8) (pvariant : Bool) : Bool :=
  hasText [117,110,115,117,98,115,99,114,105,98,101,0]
    (if pvariant then stype.drop 1 else stype)

def forget (ctx : Context) (pvariant : Bool) (name : List UInt8) : Context :=
  if pvariant then { ctx with patterns := dictDelete name ctx.patterns }
  else { ctx with channels := dictDelete name ctx.channels }

/-- `__redisGetSubscribeCallback`. The callback of the caller stays as it is where none is
found. -/
def getSubscribeCallback (ctx : Context) (reply : Reply) (cb : Option Callback) :
    Option (Context × Option Callback) :=
  match reply with
  | .array _ _ =>
    match message reply with
    | none => none
    | some (stype,pvariant,name,third) =>
      match dictFind name (if pvariant then ctx.patterns else ctx.channels) with
      | none => some (ctx,cb)
      | some found =>
        if isUnsubscribe stype pvariant then
          match third with
          | some (.integer 0) =>
            some ({ forget ctx pvariant name with subscribed := false },some found)
          | some (.integer _) => some (forget ctx pvariant name,some found)
          | _ => none
        else some (ctx,some found)
  | _ =>
    match ctx.invalid with
    | [] => some (ctx,cb)
    | first::rest => some ({ ctx with invalid := rest },some first)

/-- The callback that a reply goes to. The variable of the caller holds nothing before it
is first set. -/
def chosen (ctx : Context) (reply : Reply) (cb : Option Callback) :
    Option (Context × Option Callback) :=
  match ctx.replies with
  | first::rest => some (shift ctx rest first reply,some first)
  | [] => if ctx.subscribed then getSubscribeCallback ctx reply cb else none

def isError : Reply → Bool
  | .error _ => true
  | _ => false

/-- What `redisProcessCallbacks` does with a reply. The loop goes on with `again`. -/
def dispatch (again : Option Callback → Context → Option Context) (reply : Reply)
    (cb : Option Callback) (ctx : Context) : Option Context :=
  if ctx.replies = [] ∧ ¬ctx.subscribed ∧ isError reply then
    asyncDisconnect script { ctx with err := true }
  else
    match chosen ctx reply cb with
    | none => none
    | some (_,none) => none
    | some (ctx,some cb) =>
      match cb.fn with
      | none => again (some cb) ctx
      | some _ =>
        match runCallback script reply ctx cb with
        | none => none
        | some ctx => if ctx.freeing then asyncFree script ctx else again (some cb) ctx

/-- `redisProcessCallbacks`, with a turn for each byte that is unread. -/
def processCallbacks : ℕ → Option Callback → Context → Option Context
  | 0, _, _ => none
  | k+1, cb, ctx =>
    match ctx.reader.redisReaderGetReply with
    | none => none
    | some (r,.err,_) => asyncDisconnect script { ctx with reader := r, err := true }
    | some (r,.ok,.null) =>
      if ctx.disconnecting ∧ ctx.obuf = [] then asyncDisconnect script { ctx with reader := r }
      else some { ctx with reader := r }
    | some (r,.ok,reply) => dispatch script (processCallbacks k) reply cb { ctx with reader := r }

end Contexts

section Events

/-- What the socket says about a connection that is not yet known to be open. -/
inductive Opening where
  | done | inProgress | failed
  deriving DecidableEq, Repr

/-- What `read` returns. -/
inductive Incoming where
  | data (piece : List UInt8)
  | again
  | closed
  | failed

/-- What `write` returns. -/
inductive Outgoing where
  | taken (n : ℕ)
  | again
  | failed

inductive Event where
  | call (c : Call)
  | readable (opening : Opening) (incoming : Incoming)
  | writable (opening : Opening) (outgoing : Outgoing)

variable (script : ℕ → List Call)

/-- `__redisAsyncHandleConnect`. A context that is handed back goes on only when it is
connected. -/
def handleConnect (ctx : Context) (opening : Opening) : Option Context :=
  if ctx.connected then some ctx
  else
    match opening with
    | .done => some { ctx with connected := true }
    | .inProgress => some { ctx with err := true }
    | .failed => asyncDisconnect script { ctx with err := true }

/-- `redisBufferRead`. -/
def bufferRead (ctx : Context) (incoming : Incoming) : Option Context :=
  if ctx.err then some ctx
  else
    match incoming with
    | .data piece => (ctx.reader.redisReaderFeed piece).map fun reader =>
        { ctx with reader := reader, history :=
          { ctx.history with received := ctx.history.received++piece } }
    | .again => some ctx
    | .closed => some { ctx with err := true }
    | .failed => some { ctx with err := true }

/-- `redisAsyncHandleRead`. -/
def handleRead (ctx : Context) (opening : Opening) (incoming : Incoming) : Option Context :=
  match handleConnect script ctx opening with
  | none => none
  | some ctx =>
    if ctx.freed ∨ ¬ctx.connected then some ctx
    else
      match bufferRead ctx incoming with
      | none => none
      | some ctx =>
        if ctx.err then asyncDisconnect script ctx
        else processCallbacks script (ctx.reader.unread.length+1) none ctx

/-- `redisBufferWrite`. The socket takes at most the bytes that are offered. -/
def bufferWrite (ctx : Context) (outgoing : Outgoing) : Context :=
  if ctx.err ∨ ctx.obuf = [] then ctx
  else
    match outgoing with
    | .taken n => { ctx with obuf := ctx.obuf.drop n, history :=
        { ctx.history with written := ctx.history.written++ctx.obuf.take n } }
    | .again => ctx
    | .failed => { ctx with err := true }

/-- `redisAsyncHandleWrite`. -/
def handleWrite (ctx : Context) (opening : Opening) (outgoing : Outgoing) : Option Context :=
  match handleConnect script ctx opening with
  | none => none
  | some ctx =>
    if ctx.freed ∨ ¬ctx.connected then some ctx
    else if (bufferWrite ctx outgoing).err then
      asyncDisconnect script (bufferWrite ctx outgoing)
    else some { bufferWrite ctx outgoing with writing := (bufferWrite ctx outgoing).obuf ≠ [] }

/-- One event. Nothing happens to a context that was freed. -/
def handle (ctx : Context) : Event → Option Context
  | .call c => outside script ctx c
  | .readable opening incoming => handleRead script ctx opening incoming
  | .writable opening outgoing => handleWrite script ctx opening outgoing

def run : Context → List Event → Option Context
  | ctx, [] => some ctx
  | ctx, e::es => if ctx.freed then some ctx else (handle script ctx e).bind (run · es)

end Events

end Duda.RedisAsync
