import Duda.CString
import Duda.RedisRoundTrip

/-!
# Commands for the redis server

A command is written as an array of strings. Its size is computed first, the
block is allocated, and the text is written into it. The other way to a
command is a format, in which spaces separate the arguments and a conversion puts
the bytes of an argument of the call into the current one.
-/

set_option autoImplicit false

namespace Duda.RedisCommand
open Duda.CString Duda.Decimal Duda.MachineInt Duda.RedisReader Duda.RedisRoundTrip

section Building

/-- The loop of `intlen`. -/
def countDigits (i : ℕ) : ℕ := if i/10 = 0 then 1 else countDigits (i/10)+1

def intlen (i : ℤ) : ℕ := (if i < 0 then 1 else 0)+countDigits i.natAbs

/-- `bulklen`, which passes the length on as an `int`. -/
def bulklen (len : ℕ) : ℕ := 1+intlen (i32 len)+2+len+2

/-- What a formatting function ends with: a command and the number it returns, the
number -1, or an access outside of the memory it owns. -/
inductive Formatted where
  | done (cmd : List UInt8) (totlen : ℤ)
  | failed
  | fault
  deriving DecidableEq, Repr

/-- Bytes behind those that are written already, in a block of some size. -/
def put (size : ℕ) (cmd bytes : List UInt8) : Option (List UInt8) :=
  if cmd.length+bytes.length ≤ size then some (cmd++bytes) else none

/-- The same for `sprintf`, which writes a terminator. -/
def print (size : ℕ) (cmd bytes : List UInt8) : Option (List UInt8) :=
  if cmd.length+bytes.length+1 ≤ size then some (cmd++bytes) else none

def putArgs (size : ℕ) : List (List UInt8) → List UInt8 → Option (List UInt8)
  | [], cmd => some cmd
  | arg::argv, cmd => do
    let cmd ← print size cmd (36::(decimal arg.length++crlf))
    let cmd ← put size cmd arg
    let cmd ← put size cmd [cr]
    let cmd ← put size cmd [lf]
    putArgs size argv cmd

/-- The common end of both functions. The size of the block is computed as an `int`. One
that is negative cannot be allocated, and a wrong one is caught by the assertion if the block
was not overrun. -/
def build (totlen : ℤ) (argv : List (List UInt8)) : Formatted :=
  let size := i32 (totlen+1)
  if size < 0 then .failed
  else
    match print size.toNat [] (42::(decimal argv.length++crlf)) with
    | none => .fault
    | some cmd =>
      match putArgs size.toNat argv cmd with
      | none => .fault
      | some cmd => if cmd.length = totlen then .done cmd totlen else .fault

def redisFormatCommandArgv (argv : List (List UInt8)) : Formatted :=
  build (argv.foldl (fun totlen arg => i32 (totlen+bulklen arg.length))
    (1+intlen argv.length+2)) argv

end Building

section Formats

/-- An argument of the call. -/
inductive Arg where
  | str (text : Text)
  | bin (bytes : List UInt8)
  | int (v : ℤ)
  | long (v : ℤ)
  | longLong (v : ℤ)
  | double (bits : UInt64)
  deriving DecidableEq, Repr

inductive Kind where
  | int | long | longLong | double
  deriving DecidableEq, Repr

def Arg.kind : Arg → Option Kind
  | .int _ => some .int
  | .long _ => some .long
  | .longLong _ => some .longLong
  | .double _ => some .double
  | _ => none

def isdigit (c : UInt8) : Bool := 48 ≤ c.toNat ∧ c.toNat < 58

/-- `diouxX`. -/
def intfmts : List UInt8 := [100,105,111,117,120,88]

/-- `eEfFgGaA`. -/
def doublefmts : List UInt8 := [101,69,102,70,103,71,97,65]

def skipFlag (flag : UInt8) : List UInt8 → List UInt8
  | [] => []
  | c::p => if c = flag then p else c::p

/-- The flags, in this order only, and the field width. -/
def skipWidth (p : List UInt8) : List UInt8 :=
  (skipFlag 43 (skipFlag 32 (skipFlag 45 (skipFlag 48 (skipFlag 35 p))))).dropWhile isdigit

def skipPrecision : List UInt8 → List UInt8
  | 46::p => p.dropWhile isdigit
  | p => p

/-- A conversion, and what stands behind it. Behind the terminator nothing stands. -/
inductive Conversion where
  | valid (kind : Kind) (rest : Option (List UInt8))
  | invalid
  deriving DecidableEq, Repr

/-- An integer conversion behind a modifier. -/
def sized (kind : Kind) : List UInt8 → Conversion
  | [] => .invalid
  | c::p => if c ∈ intfmts then .valid kind (some p) else .invalid

/-- What follows a modifier that may be doubled. -/
def modified (twice once : Kind) (modifier : UInt8) : List UInt8 → Conversion
  | [] => .invalid
  | c::p => if c = modifier then sized twice p else sized once (c::p)

/-- The conversion behind flags, width and precision. The terminator is found in the list
of conversions, as `strchr` finds it. -/
def conversionAt : List UInt8 → Conversion
  | [] => .valid .int none
  | c::p =>
    if c ∈ intfmts then .valid .int (some p)
    else if c ∈ doublefmts then .valid .double (some p)
    else if c = 104 then modified .int .int 104 p
    else if c = 108 then modified .longLong .long 108 p
    else .invalid

def conversion (p : List UInt8) : Conversion := conversionAt (skipPrecision (skipWidth p))

/-- The variables of the loop. -/
structure Format where
  curarg : List UInt8
  touched : Bool
  argv : List (List UInt8)
  totlen : ℤ
  deriving DecidableEq, Repr

def start : Format := ⟨[],false,[],0⟩

def Format.add (f : Format) (bytes : List UInt8) : Format :=
  { f with curarg := f.curarg++bytes, touched := true }

/-- The current argument is put behind the others when it was touched. -/
def Format.close (f : Format) : Format :=
  if f.touched then ⟨[],false,f.argv++[f.curarg],i32 (f.totlen+bulklen f.curarg.length)⟩ else f

/-- What the loop ends with. -/
inductive Scanned where
  | done (f : Format)
  | failed
  | fault
  deriving DecidableEq, Repr

variable (printf : List UInt8 → Arg → List UInt8)

/-- What follows a percent sign, as the switch handles it: where the format and the
arguments go on, and the bytes for the current argument. -/
inductive Converted where
  | next (p : List UInt8) (args : List Arg) (bytes : List UInt8)
  | failed
  | fault
  deriving DecidableEq, Repr

/-- The default case. A conversion of more than 13 bytes is not printed: its argument is
gone, and the rest of it is taken for text. -/
def convertPrintf (p : List UInt8) (args : List Arg) : Converted :=
  match conversion p, args with
  | .invalid, _ => .failed
  | .valid _ _, [] => .fault
  | .valid kind (some rest), arg::args =>
    if arg.kind ≠ some kind then .fault
    else if 1+(p.length-rest.length) < 14 then
      .next rest args (printf (37::p.take (p.length-rest.length)) arg)
    else .next p.tail args []
  | .valid kind none, arg::args =>
    if arg.kind ≠ some kind then .fault
    -- the position would be behind the terminator
    else if 1+(p.length+1) < 14 then .fault
    else .next p.tail args []

def convert (p : List UInt8) (args : List Arg) : Converted :=
  if charAt p 0 = 115 then
    match args with
    | .str text::args => .next p.tail args text.bytes
    | _ => .fault
  else if charAt p 0 = 98 then
    match args with
    | .bin bytes::args => .next p.tail args bytes
    | _ => .fault
  else if charAt p 0 = 37 then .next p.tail args [37]
  else convertPrintf printf p args

/-- The loop of `redisvFormatCommand`, with one turn for each byte of the format. -/
def formatLoop : ℕ → List UInt8 → List Arg → Format → Scanned
  | 0, _, _, f => .done f
  | _+1, [], _, f => .done f
  | k+1, c::p, args, f =>
    if c ≠ 37 ∨ p = [] then
      if c = 32 then formatLoop k p args f.close else formatLoop k p args (f.add [c])
    else
      match convert printf p args with
      | .failed => .failed
      | .fault => .fault
      | .next p args bytes => formatLoop k p args (f.add bytes)

def redisvFormatCommand (format : Text) (args : List Arg) : Formatted :=
  match formatLoop printf (format.bytes.length+1) format.bytes args start with
  | .failed => .failed
  | .fault => .fault
  | .done f =>
    let f := f.close
    build (i32 (f.totlen+(1+intlen f.argv.length+2))) f.argv

end Formats

section Sizes

theorem countDigits_decimal (n : ℕ) : countDigits n = (decimal n).length := by
  induction n using decimal.induct with
  | case1 n h => rw [decimal, if_pos h, countDigits, if_pos (by omega), List.length_singleton]
  | case2 n h ih =>
    rw [decimal, if_neg h, countDigits, if_neg (by omega), ih, List.length_append,
      List.length_singleton]

theorem intlen_natCast (n : ℕ) : intlen n = (decimal n).length := by
  rw [intlen, if_neg (by omega), Int.natAbs_natCast, countDigits_decimal, Nat.zero_add]

/-- What a server reads as the strings. -/
def command (argv : List (List UInt8)) : List UInt8 :=
  encode (.array argv.length (argv.map .string))

theorem encode_string_length (arg : List UInt8) (h : arg.length < 2^31) :
    (encode (.string arg)).length = bulklen arg.length := by
  rw [bulklen, i32_natCast _ h, intlen_natCast]
  simp only [encode, crlf, List.length_cons, List.length_append, List.length_nil]
  omega

theorem i32_add (a b : ℤ) : i32 (i32 a+b) = i32 (a+b) := by
  simp only [i32, u32]
  split_ifs <;> omega

/-- A block that is large enough is filled with the arguments. -/
theorem putArgs_fits (size : ℕ) (argv : List (List UInt8)) (cmd : List UInt8)
    (h : cmd.length+(encodeAll (argv.map .string)).length < size) :
    putArgs size argv cmd = some (cmd++encodeAll (argv.map .string)) := by
  induction argv generalizing cmd with
  | nil => simp [putArgs, encodeAll]
  | cons arg argv ih =>
    simp only [List.map_cons, encodeAll, encode, crlf, List.length_append, List.length_cons,
      List.length_nil] at h ⊢
    have h1 : print size cmd (36::(decimal arg.length++[cr,lf])) =
        some (cmd++36::(decimal arg.length++[cr,lf])) := by
      rw [print, if_pos]
      simp only [List.length_append, List.length_cons, List.length_nil]
      omega
    have h2 : ∀ done bytes : List UInt8, done.length+bytes.length ≤ size →
        put size done bytes = some (done++bytes) := fun done bytes hd => if_pos hd
    rw [putArgs, crlf, h1]
    simp only [Option.bind_eq_bind, Option.bind_some]
    rw [h2, Option.bind_some, h2, Option.bind_some, h2, Option.bind_some, ih]
    · simp
    all_goals
      simp only [List.length_append, List.length_cons, List.length_nil]
      omega

variable (argv : List (List UInt8))

/-- A command of the right size is built. -/
theorem build_command (h : (command argv).length+1 < 2^31) :
    build (command argv).length argv = .done (command argv) (command argv).length := by
  have hsize : i32 (((command argv).length:ℤ)+1) = ((command argv).length:ℤ)+1 :=
    i32_natCast ((command argv).length+1) h
  have hcommand : command argv =
      42::(decimal argv.length++crlf)++encodeAll (argv.map .string) := by
    simp only [command, encode, List.cons_append, List.append_assoc]
  have hprint : print (((command argv).length:ℤ)+1).toNat [] (42::(decimal argv.length++crlf)) =
      some (42::(decimal argv.length++crlf)) := by
    rw [print, if_pos, List.nil_append]
    rw [hcommand, List.length_append]
    simp only [List.length_nil]
    omega
  simp only [build, hsize]
  rw [if_neg (by omega), hprint]
  simp only
  rw [putArgs_fits _ _ _ (by rw [hcommand, List.length_append]; omega), ← hcommand]
  simp only [if_true]

def bulks (argv : List (List UInt8)) : ℕ := (argv.map fun arg => bulklen arg.length).sum

theorem bulks_length (h : ∀ arg ∈ argv, arg.length < 2^31) :
    bulks argv = (encodeAll (argv.map .string)).length := by
  induction argv with
  | nil => rfl
  | cons arg argv ih =>
    rw [bulks, List.map_cons, List.sum_cons, List.map_cons, encodeAll, List.length_append,
      encode_string_length arg (h arg (by simp)),
      ← ih (fun arg ha => h arg (List.mem_cons_of_mem _ ha))]
    rfl

theorem encodeAll_string_le : ∀ arg ∈ argv, arg.length ≤ (encodeAll (argv.map .string)).length := by
  induction argv with
  | nil => simp
  | cons first argv ih =>
    intro arg ha
    simp only [List.map_cons, encodeAll, encode, List.length_append, List.length_cons]
    rcases List.mem_cons.1 ha with rfl | ha
    · omega
    · have hle := ih arg ha
      omega

theorem command_args_short {argv : List (List UInt8)} (h : (command argv).length < 2^31) :
    ∀ arg ∈ argv, arg.length < 2^31 := by
  intro arg ha
  have hle := encodeAll_string_le argv arg ha
  simp only [command, encode, List.length_cons, List.length_append] at h
  omega

theorem command_length (h : (command argv).length < 2^31) :
    (command argv).length = 1+intlen argv.length+2+bulks argv := by
  rw [bulks_length argv (command_args_short h), intlen_natCast]
  simp only [command, encode, crlf, List.length_cons, List.length_append, List.length_nil]
  omega

theorem foldl_bulklen (totlen : ℤ) (h : i32 totlen = totlen) :
    argv.foldl (fun totlen arg => i32 (totlen+bulklen arg.length)) totlen =
      i32 (totlen+bulks argv) := by
  induction argv generalizing totlen with
  | nil => simp [bulks, h]
  | cons arg argv ih =>
    have hi : i32 (i32 (totlen+bulklen arg.length)) = i32 (totlen+bulklen arg.length) := by
      simpa using i32_add (totlen+bulklen arg.length) 0
    rw [List.foldl_cons, ih _ hi, i32_add]
    simp only [bulks, List.map_cons, List.sum_cons]
    push_cast
    rw [add_assoc]

theorem argv_command (h : (command argv).length+1 < 2^31) :
    redisFormatCommandArgv argv = .done (command argv) (command argv).length := by
  have hlen := command_length argv (Nat.lt_of_succ_lt h)
  rw [redisFormatCommandArgv, foldl_bulklen _ _ (i32_of_range _ (by omega) (by omega)),
    i32_of_range _ (by omega) (by omega)]
  have htot : (1:ℤ)+intlen argv.length+2+bulks argv = ((command argv).length:ℕ) := by
    rw [hlen]
    push_cast
    rfl
  rw [htot, build_command argv h]

/-- A command is read back as its arguments, however it arrives. -/
theorem command_read_back (h : (command argv).length < 2^31) (pieces : List (List UInt8))
    (hp : pieces.flatten = command argv) :
    ∃ r, RedisStream.Reader.redisReaderCreate.receiveAll pieces =
        some (r,[.array argv.length (argv.map .string)]) ∧ r.err = none ∧ r.unread = [] := by
  have hone : encodeAll [.array argv.length (argv.map .string)] = command argv := by
    simp only [encodeAll, command, List.append_nil]
  have hall : FitAll 2 (argv.map .string) := by
    rw [fitAll_iff]
    intro e he
    obtain ⟨arg,_,rfl⟩ := List.mem_map.1 he
    simp [Fits]
  have hfit : FitAll 3 [.array argv.length (argv.map .string)] := by simp [FitAll, Fits, hall]
  have hd := RedisStream.create_drained pieces (by rw [hp]; exact h)
  rw [hp, ← hone] at hd
  exact drained_all (encodeAll_exhausted _ hfit (by rw [hone]; exact h)) hd

/-- The size that is computed is the size of the text, and a reader finds the arguments in
it byte for byte. -/
theorem argv_read_back (argv : List (List UInt8)) (h : (command argv).length+1 < 2^31) :
    ∃ cmd : List UInt8, redisFormatCommandArgv argv = .done cmd cmd.length ∧
      ∀ pieces : List (List UInt8), pieces.flatten = cmd →
        ∃ r, RedisStream.Reader.redisReaderCreate.receiveAll pieces =
            some (r,[.array argv.length (argv.map .string)]) ∧ r.err = none ∧ r.unread = [] :=
  ⟨_,argv_command argv h,fun pieces => command_read_back argv (Nat.lt_of_succ_lt h) pieces⟩

/-- `GET` and an empty key. -/
theorem get_read_back : ∃ cmd : List UInt8,
    redisFormatCommandArgv [[71,69,84],[]] = .done cmd cmd.length ∧
      ∀ pieces : List (List UInt8), pieces.flatten = cmd →
        ∃ r, RedisStream.Reader.redisReaderCreate.receiveAll pieces =
            some (r,[.array 2 [.string [71,69,84],.string []]]) ∧ r.err = none ∧ r.unread = [] :=
  argv_read_back [[71,69,84],[]] (by simp [command, encode, encodeAll, decimal, crlf])

end Sizes

section Tokens

/-- The parts of a format, with the arguments they take. -/
inductive Token where
  | space
  | lit (c : UInt8)
  | str (text : Text)
  | bin (bytes : List UInt8)
  | percent
  | conv (spec : List UInt8) (arg : Arg)
  deriving DecidableEq

def Token.text : Token → List UInt8
  | .space => [32]
  | .lit c => [c]
  | .str _ => [37,115]
  | .bin _ => [37,98]
  | .percent => [37,37]
  | .conv spec _ => 37::spec

def Token.args : Token → List Arg
  | .str text => [.str text]
  | .bin bytes => [.bin bytes]
  | .conv _ arg => [arg]
  | _ => []

/-- A literal byte is no space and no percent sign. A conversion is complete, short enough
to be printed, and has an argument of its kind. -/
def Token.Valid : Token → Prop
  | .lit c => c ≠ 37 ∧ c ≠ 32
  | .conv spec arg => spec.length < 13 ∧
      ∃ kind, conversion spec = .valid kind (some []) ∧ arg.kind = some kind
  | _ => True

variable (printf : List UInt8 → Arg → List UInt8)

def Token.value : Token → List UInt8
  | .space => []
  | .lit c => [c]
  | .str text => text.bytes
  | .bin bytes => bytes
  | .percent => [37]
  | .conv spec arg => printf (37::spec) arg

def Token.apply (f : Format) (t : Token) : Format :=
  match t with
  | .space => f.close
  | t => f.add (t.value printf)

section Conversions

theorem skipFlag_append {flag : UInt8} {p : List UInt8} (q : List UInt8)
    (h : skipFlag flag p ≠ []) : skipFlag flag (p++q) = skipFlag flag p++q := by
  cases p with
  | nil => simp [skipFlag] at h
  | cons c p =>
    simp only [List.cons_append, skipFlag]
    split_ifs <;> rfl

theorem dropWhile_append {d : UInt8 → Bool} {p : List UInt8} (q : List UInt8)
    (h : p.dropWhile d ≠ []) : (p++q).dropWhile d = p.dropWhile d++q := by
  rw [List.dropWhile_append, if_neg (by simpa using h)]

theorem skipFlag_ne {flag : UInt8} {p : List UInt8} (h : skipFlag flag p ≠ []) : p ≠ [] := by
  rintro rfl
  exact h rfl

theorem dropWhile_ne {d : UInt8 → Bool} {p : List UInt8} (h : p.dropWhile d ≠ []) : p ≠ [] := by
  rintro rfl
  exact h rfl

theorem skipWidth_append {p : List UInt8} (q : List UInt8) (h : skipWidth p ≠ []) :
    skipWidth (p++q) = skipWidth p++q := by
  have h5 := dropWhile_ne h
  have h4 := skipFlag_ne h5
  have h3 := skipFlag_ne h4
  have h2 := skipFlag_ne h3
  have h1 := skipFlag_ne h2
  rw [skipWidth, skipFlag_append q h1, skipFlag_append q h2, skipFlag_append q h3,
    skipFlag_append q h4, skipFlag_append q h5, dropWhile_append q h]
  rfl

theorem skipPrecision_append {p : List UInt8} (q : List UInt8) (h : skipPrecision p ≠ []) :
    p ≠ [] ∧ skipPrecision (p++q) = skipPrecision p++q := by
  cases p with
  | nil => simp [skipPrecision] at h
  | cons c p =>
    refine ⟨List.cons_ne_nil _ _,?_⟩
    by_cases hc : c = 46
    · subst hc
      exact dropWhile_append q h
    · have hplain : ∀ r, skipPrecision (c::r) = c::r := by
        intro r
        rw [skipPrecision]
        rintro q ⟨rfl,_⟩
        exact hc rfl
      rw [List.cons_append, hplain, hplain, List.cons_append]

theorem sized_append {kind k : Kind} {p r : List UInt8} (q : List UInt8)
    (h : sized kind p = .valid k (some r)) : sized kind (p++q) = .valid k (some (r++q)) := by
  cases p with
  | nil => simp [sized] at h
  | cons c p =>
    simp only [sized, List.cons_append] at h ⊢
    split_ifs at h ⊢ with hc
    cases h
    rfl

theorem modified_append {twice once kind : Kind} {m : UInt8} {p r : List UInt8} (q : List UInt8)
    (h : modified twice once m p = .valid kind (some r)) :
    modified twice once m (p++q) = .valid kind (some (r++q)) := by
  cases p with
  | nil => simp [modified] at h
  | cons c p =>
    simp only [modified, List.cons_append] at h ⊢
    split_ifs at h ⊢ with hc
    · exact sized_append q h
    · exact sized_append q h

theorem conversionAt_append {kind : Kind} {p r : List UInt8} (q : List UInt8)
    (h : conversionAt p = .valid kind (some r)) :
    conversionAt (p++q) = .valid kind (some (r++q)) := by
  cases p with
  | nil => simp [conversionAt] at h
  | cons c p =>
    simp only [conversionAt, List.cons_append] at h ⊢
    split_ifs at h ⊢ with h1 h2 h3 h4
    · cases h
      rfl
    · cases h
      rfl
    · exact modified_append q h
    · exact modified_append q h

/-- A conversion that is complete ends where it ends, whatever follows. -/
theorem conversion_append {kind : Kind} {p : List UInt8} (q : List UInt8)
    (h : conversion p = .valid kind (some [])) :
    conversion (p++q) = .valid kind (some q) := by
  rw [conversion] at h
  have hne : skipPrecision (skipWidth p) ≠ [] := by
    intro he
    rw [he] at h
    cases h
  obtain ⟨hw,hp⟩ := skipPrecision_append q hne
  rw [conversion, skipWidth_append q hw, hp, conversionAt_append q h, List.nil_append]

/-- None of the letters that have a case of their own begins a conversion. -/
theorem conversion_letter {c : UInt8} (p : List UInt8) (hc : c = 115 ∨ c = 98 ∨ c = 37) :
    conversion (c::p) = .invalid := by
  rcases hc with rfl | rfl | rfl <;> rfl

end Conversions

section Loop

theorem loop_next (k : ℕ) {p rest : List UInt8} {args more : List Arg} {bytes : List UInt8}
    (f : Format) (hp : p ≠ []) (h : convert printf p args = .next rest more bytes) :
    formatLoop printf (k+1) (37::p) args f = formatLoop printf k rest more (f.add bytes) := by
  rw [formatLoop, if_neg (by simp [hp]), h]

theorem convert_printf {c : UInt8} {p : List UInt8} (args : List Arg)
    (hc : conversion (c::p) ≠ .invalid) :
    convert printf (c::p) args = convertPrintf printf (c::p) args := by
  have h1 : c ≠ 115 := fun hd => hc (conversion_letter p (.inl hd))
  have h2 : c ≠ 98 := fun hd => hc (conversion_letter p (.inr (.inl hd)))
  have h3 : c ≠ 37 := fun hd => hc (conversion_letter p (.inr (.inr hd)))
  simp only [convert, charAt, List.getD_cons_zero, if_neg h1, if_neg h2, if_neg h3]

theorem convert_printed {spec rest : List UInt8} {kind : Kind} {arg : Arg} (args : List Arg)
    (hc : conversion spec = .valid kind (some [])) (hk : arg.kind = some kind)
    (hl : spec.length < 13) :
    convert printf (spec++rest) (arg::args) = .next rest args (printf (37::spec) arg) := by
  have hfull := conversion_append rest hc
  have hlen : (spec++rest).length-rest.length = spec.length := by
    rw [List.length_append]
    omega
  have hprintf : convertPrintf printf (spec++rest) (arg::args) =
      .next rest args (printf (37::spec) arg) := by
    simp only [convertPrintf, hfull, hlen, List.take_left]
    rw [if_neg (by simp [hk]), if_pos (by omega)]
  cases spec with
  | nil => cases hc
  | cons c spec =>
    rw [List.cons_append] at hfull hprintf ⊢
    rw [convert_printf printf _ (by simp [hfull]), hprintf]

theorem loop_token (k : ℕ) (t : Token) (ht : t.Valid) (rest : List UInt8) (args : List Arg)
    (f : Format) :
    formatLoop printf (k+1) (t.text++rest) (t.args++args) f =
      formatLoop printf k rest args (t.apply printf f) := by
  cases t with
  | space => simp [Token.text, Token.args, Token.apply, formatLoop]
  | lit c => simp [Token.text, Token.args, Token.apply, Token.value, formatLoop, ht.1, ht.2]
  | str text => exact loop_next printf k f (List.cons_ne_nil _ _) rfl
  | bin bytes => exact loop_next printf k f (List.cons_ne_nil _ _) rfl
  | percent => exact loop_next printf k f (List.cons_ne_nil _ _) rfl
  | conv spec arg =>
    obtain ⟨hl,kind,hc,hk⟩ := ht
    apply loop_next printf k f _ (convert_printed printf args hc hk hl)
    intro he
    rw [(List.append_eq_nil_iff.1 he).1] at hc
    cases hc

def render (tokens : List Token) : List UInt8 := tokens.flatMap Token.text

def arguments (tokens : List Token) : List Arg := tokens.flatMap Token.args

theorem loop_tokens (k : ℕ) (tokens : List Token) (ht : ∀ t ∈ tokens, t.Valid)
    (rest : List UInt8) (args : List Arg) (f : Format) :
    formatLoop printf (tokens.length+k) (render tokens++rest) (arguments tokens++args) f =
      formatLoop printf k rest args (tokens.foldl (Token.apply printf) f) := by
  induction tokens generalizing f with
  | nil => simp [render, arguments]
  | cons t tokens ih =>
    have hfuel : (t::tokens).length+k = (tokens.length+k)+1 := by
      rw [List.length_cons]
      omega
    rw [hfuel, render, arguments, List.flatMap_cons, List.flatMap_cons, List.append_assoc,
      List.append_assoc, loop_token printf _ t (ht t (by simp))]
    exact ih (fun t h => ht t (List.mem_cons_of_mem _ h)) _

theorem render_length (tokens : List Token) : tokens.length ≤ (render tokens).length := by
  induction tokens with
  | nil => simp
  | cons t tokens ih =>
    have h1 : 1 ≤ t.text.length := by cases t <;> simp [Token.text]
    rw [render, List.flatMap_cons, List.length_append, List.length_cons]
    rw [render] at ih
    omega

end Loop

section Words

def Token.isSpace : Token → Bool
  | .space => true
  | _ => false

/-- The arguments of the command: what stands between spaces, put together. -/
def joined (groups : List (List Token)) : List (List UInt8) :=
  (groups.filter (· ≠ [])).map fun group => group.flatMap (Token.value printf)

def words (tokens : List Token) : List (List UInt8) :=
  joined printf (tokens.splitOnP Token.isSpace)

/-- The sizes are up to date, and an argument that was not touched is empty. -/
structure Kept (f : Format) : Prop where
  sized : f.totlen = i32 (bulks f.argv)
  blank : f.touched = false → f.curarg = []

theorem close_kept {f : Format} (h : Kept f) : Kept f.close := by
  rw [Format.close]
  split_ifs with ht
  · refine ⟨?_,fun _ => rfl⟩
    simp only [h.sized, i32_add]
    congr 1
    simp [bulks]
  · exact h

theorem apply_kept {f : Format} (t : Token) (h : Kept f) : Kept (t.apply printf f) := by
  cases t with
  | space => exact close_kept h
  | _ => exact ⟨h.sized,fun ht => absurd ht (by simp [Token.apply, Format.add])⟩

theorem foldl_kept {f : Format} (tokens : List Token) (h : Kept f) :
    Kept (tokens.foldl (Token.apply printf) f) := by
  induction tokens generalizing f with
  | nil => exact h
  | cons t tokens ih => exact ih (apply_kept printf t h)

theorem foldl_words {f : Format} (tokens first : List Token) (more : List (List Token))
    (h : Kept f) (hs : tokens.splitOnP Token.isSpace = first::more) :
    ((tokens.foldl (Token.apply printf) f).close).argv =
      f.argv++
        (if f.touched ∨ first ≠ [] then [f.curarg++first.flatMap (Token.value printf)] else [])
        ++joined printf more := by
  induction tokens generalizing f first more with
  | nil =>
    rw [List.splitOnP_nil, List.cons.injEq] at hs
    obtain ⟨rfl,rfl⟩ := hs
    rw [List.foldl_nil, Format.close]
    by_cases ht : f.touched = true <;> simp [ht, joined]
  | cons t tokens ih =>
    rw [List.splitOnP_cons_eq_if_modifyHead] at hs
    obtain ⟨g,gs,hg⟩ := List.exists_cons_of_ne_nil (List.splitOnP_ne_nil Token.isSpace tokens)
    rw [hg] at hs
    rw [List.foldl_cons, ih g gs (apply_kept printf t h) hg]
    cases t with
    | space =>
      simp only [Token.isSpace, if_true, List.cons.injEq] at hs
      obtain ⟨rfl,rfl⟩ := hs
      simp only [Token.apply, Format.close]
      by_cases ht : f.touched = true
      · by_cases hgs : g = [] <;> simp [ht, joined, hgs]
      · have hblank := h.blank (by simpa using ht)
        by_cases hgs : g = [] <;> simp [ht, joined, hgs, hblank]
    | _ =>
      simp only [Token.isSpace, Bool.false_eq_true, if_false, List.modifyHead_cons,
        List.cons.injEq] at hs
      obtain ⟨rfl,rfl⟩ := hs
      simp [Token.apply, Format.add]

theorem kept_start : Kept start := ⟨rfl,fun _ => rfl⟩

theorem foldl_argv (tokens : List Token) :
    ((tokens.foldl (Token.apply printf) start).close).argv =
      words printf tokens := by
  obtain ⟨g,gs,hg⟩ := List.exists_cons_of_ne_nil (List.splitOnP_ne_nil Token.isSpace tokens)
  rw [foldl_words printf tokens g gs kept_start hg, words, hg]
  by_cases hgs : g = [] <;> simp [joined, hgs, start]

/-- A format builds the command of its words. -/
theorem format_command (tokens : List Token) (ht : ∀ t ∈ tokens, t.Valid) (format : Text)
    (hf : format.bytes = render tokens)
    (hl : (command (words printf tokens)).length+1 < 2^31) :
    redisvFormatCommand printf format (arguments tokens) =
      .done (command (words printf tokens)) (command (words printf tokens)).length := by
  have hfuel : format.bytes.length+1 = tokens.length+(format.bytes.length-tokens.length+1) := by
    have h := render_length tokens
    rw [hf]
    omega
  have hloop := loop_tokens printf (format.bytes.length-tokens.length+1) tokens ht [] []
    start
  rw [List.append_nil, List.append_nil, ← hf, ← hfuel] at hloop
  have hkept := close_kept (foldl_kept printf tokens kept_start)
  have hlen := command_length _ (Nat.lt_of_succ_lt hl)
  rw [redisvFormatCommand, hloop]
  simp only [formatLoop, hkept.sized, foldl_argv, i32_add]
  have htot : (bulks (words printf tokens):ℤ)+(1+intlen (words printf tokens).length+2) =
      ((command (words printf tokens)).length:ℕ) := by
    rw [hlen]
    push_cast
    ring
  rw [htot, i32_natCast _ (Nat.lt_of_succ_lt hl), build_command _ hl]

/-- The bytes of the arguments never make an argument end or begin: a format does what the
call with an array of its words does. -/
theorem format_agrees (tokens : List Token) (ht : ∀ t ∈ tokens, t.Valid) (format : Text)
    (hf : format.bytes = render tokens)
    (hl : (command (words printf tokens)).length+1 < 2^31) :
    redisvFormatCommand printf format (arguments tokens) =
      redisFormatCommandArgv (words printf tokens) := by
  rw [format_command printf tokens ht format hf hl, argv_command _ hl]

/-- A format that ends inside of a conversion is read on behind its terminator. -/
theorem unfinished_overruns (tokens : List Token) (ht : ∀ t ∈ tokens, t.Valid) (format : Text)
    (c : UInt8) (p : List UInt8) (args : List Arg)
    (hf : format.bytes = render tokens++37::c::p)
    (hc : conversion (c::p) = .valid .int none) (hp : p.length < 11) :
    redisvFormatCommand printf format (arguments tokens++args) = .fault := by
  have hfuel : format.bytes.length+1 =
      tokens.length+(format.bytes.length-tokens.length-1+1+1) := by
    have h := render_length tokens
    rw [hf, List.length_append, List.length_cons]
    omega
  have hfault : convert printf (c::p) args = .fault := by
    rw [convert_printf printf args (by simp [hc])]
    cases args with
    | nil => simp only [convertPrintf, hc]
    | cons arg args =>
      simp only [convertPrintf, hc, List.length_cons, if_pos (show 1+(p.length+1+1) < 14 by omega),
        ite_self]
  rw [redisvFormatCommand, hfuel, hf, loop_tokens printf _ tokens ht, formatLoop,
    if_neg (by simp), hfault]

/-- `SET %s x%d` with a key that has a space and a line break. -/
theorem set_agrees :
    redisvFormatCommand (fun _ _ => [52,50]) ⟨[83,69,84,32,37,115,32,120,37,100],by decide⟩
        [.str ⟨[97,32,13,10],by decide⟩,.int 42] =
      redisFormatCommandArgv [[83,69,84],[97,32,13,10],[120,52,50]] := by
  refine format_agrees (fun _ _ => [52,50])
    [.lit 83,.lit 69,.lit 84,.space,.str ⟨[97,32,13,10],by decide⟩,.space,.lit 120,
      .conv [100] (.int 42)] ?_ _ rfl ?_
  · have hconv : ∃ kind, conversion [100] = .valid kind (some []) ∧
        (Arg.int 42).kind = some kind := ⟨.int,rfl,rfl⟩
    simpa [Token.Valid] using hconv
  · change (command [[83,69,84],[97,32,13,10],[120,52,50]]).length+1 < 2^31
    simp [command, encode, encodeAll, decimal, crlf]

/-- `GET %5`. -/
theorem get_overruns : redisvFormatCommand (fun _ _ => []) ⟨[71,69,84,32,37,53],by decide⟩
    [.int 1] = .fault :=
  unfinished_overruns _ [.lit 71,.lit 69,.lit 84,.space]
    (by simp [Token.Valid]) _ 53 [] [.int 1] rfl rfl (by decide)

end Words

end Tokens

end Duda.RedisCommand
