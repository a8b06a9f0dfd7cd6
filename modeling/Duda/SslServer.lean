import Duda.Runs

/-!
# The event loop of the SSL server

All connections are read into one buffer of 4096 bytes. The callback for a
read is given the buffer with its size, not with the number of bytes that
`ssl_read` returned. Events, results of `accept` and results of `ssl_read` are
inputs; the calls of the callbacks are the output.
-/

set_option autoImplicit false

namespace Duda.SslServer
open Duda.Runs

def bufSize : ℕ := 4096

/-- The bytes of a positive result of `ssl_read`. -/
structure Plain where
  bytes : List UInt8
  nonempty : bytes ≠ []
  fits : bytes.length ≤ bufSize

inductive SslRead where
  | data (plain : Plain)
  | wantRead
  | wantWrite
  | connEof
  | failed

/-- `ssls_conn_t`, with the node it is allocated as. -/
structure Conn where
  node : ℕ
  fd : ℤ
  deriving DecidableEq, Repr

/-- Which callbacks of the context are set. -/
structure Callbacks where
  accepted : Bool
  read : Bool
  write : Bool
  close : Bool
  deriving DecidableEq, Repr

structure Server where
  fd : ℤ
  conns : List Conn
  next : ℕ
  buf : Vector UInt8 bufSize

/-- An event, with the results of the calls that its handling makes. -/
structure Event where
  fd : ℤ
  epollin : Bool
  epollout : Bool
  remoteFd : ℤ
  allocated : Bool
  read : SslRead

inductive Call where
  | accepted (conn : Option Conn) (fd : ℤ)
  | read (conn : Option Conn) (fd : ℤ) (buf : Option (List UInt8)) (len : ℤ)
  | write (conn : Option Conn) (fd : ℤ)
  | close (conn : Conn) (fd : ℤ)
  deriving DecidableEq, Repr

inductive Fault where
  | exit
  deriving DecidableEq, Repr

def registerConnection (s : Server) (fd : ℤ) (allocated : Bool) : Server × Option Conn :=
  if allocated then ({ s with conns := s.conns++[⟨s.next,fd⟩], next := s.next+1 },some ⟨s.next,fd⟩)
  else (s,none)

def getConnection (conns : List Conn) (fd : ℤ) : Option Conn := conns.find? (fun c => c.fd = fd)

def removeConnection (conns : List Conn) (fd : ℤ) : List Conn := conns.eraseP (fun c => c.fd = fd)

/-- An event on the listening socket. -/
def serverEvent (cb : Callbacks) (s : Server) (e : Event) : Server × List Call :=
  if e.remoteFd < 0 then (s,[])
  else
    let (s,conn) := registerConnection s e.remoteFd e.allocated
    (s,if cb.accepted then [.accepted conn e.remoteFd] else [])

/-- What `ssl_read` leaves in the buffer. -/
def overlay (buf : Vector UInt8 bufSize) (bytes : List UInt8) : Vector UInt8 bufSize :=
  Vector.ofFn (fun i => bytes.getD i (buf.get i))

def connEvent (cb : Callbacks) (s : Server) (e : Event) (conn : Conn) :
    Except Fault (Server × List Call) :=
  match e.read with
  | .wantRead => .ok (s,[])
  | .wantWrite => .ok (s,[])
  | .connEof => .error .exit
  | .data plain =>
    let buf := overlay s.buf plain.bytes
    .ok ({ s with buf := buf },
      if cb.read then [.read (some conn) e.fd (some buf.toList) bufSize] else [])
  | .failed =>
    .ok ({ s with conns := removeConnection s.conns e.fd },
      if cb.close then [.close conn e.fd] else [])

def handle (cb : Callbacks) (s : Server) (e : Event) : Except Fault (Server × List Call) :=
  if e.epollin then
    if e.fd = s.fd then .ok (serverEvent cb s e)
    else
      match getConnection s.conns e.fd with
      | none => .ok (s,if cb.read then [.read none e.fd none (-1)] else [])
      | some conn => connEvent cb s e conn
  else if e.epollout then
    .ok (s,if cb.write then [.write (getConnection s.conns e.fd) e.fd] else [])
  else .ok (s,[])

def step (cb : Callbacks) (s : Server) (e : Event) : Except Fault Server :=
  (handle cb s e).map Prod.fst

/-- The calls of a run, up to an exit. -/
def callLog (cb : Callbacks) : List Event → Server → List Call
  | [], _ => []
  | e::es, s =>
    match handle cb s e with
    | .ok (s,calls) => calls++callLog cb es s
    | .error _ => []

/-- The bytes and lengths that the read callback is given for a connection. -/
def readsOf (node : ℕ) (calls : List Call) : List (Option (List UInt8) × ℤ) :=
  calls.filterMap (fun call =>
    match call with
    | .read (some conn) _ buf len => if conn.node = node then some (buf,len) else none
    | _ => none)

def Reads (s : Server) (e : Event) (conn : Conn) (plain : Plain) : Prop :=
  e.epollin = true ∧ e.fd ≠ s.fd ∧ getConnection s.conns e.fd = some conn ∧ e.read = .data plain

/-- What is handed to the read callback is what `ssl_read` returned. -/
def HandsExactly (cb : Callbacks) (s : Server) (e : Event) (_ : Except Fault Server) : Prop :=
  ∀ t calls, handle cb s e = .ok (t,calls) → ∀ conn fd buf (len : ℤ),
    .read (some conn) fd buf len ∈ calls →
      ∃ plain, e.read = .data plain ∧ buf = some plain.bytes ∧ len = plain.bytes.length

def FullRead (cb : Callbacks) (s : Server) (e : Event) (_ : Except Fault Server) : Prop :=
  cb.read = true → ∀ conn plain, Reads s e conn plain → plain.bytes.length = bufSize

/-- The same event, with other bytes if it reads some. -/
def SameEvent (e e' : Event) : Prop :=
  e' = e ∨ ∃ plain plain', e.read = .data plain ∧ e' = { e with read := .data plain' }

/-- Two sequences of events that differ in the data of other connections. -/
def OthersDiffer (cb : Callbacks) (node : ℕ) : Server → List Event → List Event → Prop
  | _, [], [] => True
  | s, e::es, e'::es' => SameEvent e e' ∧
      (∀ conn, getConnection s.conns e.fd = some conn → conn.node = node → e' = e) ∧
      ∀ t, step cb s e = .ok t → OthersDiffer cb node t es es'
  | _, _, _ => False

theorem overlay_full (buf : Vector UInt8 bufSize) (bytes : List UInt8)
    (h : bytes.length = bufSize) : (overlay buf bytes).toList = bytes := by
  apply List.ext_getElem
  · rw [Vector.length_toList, h]
  · intro i h1 h2
    simp [overlay, h2]

/-- A byte beyond what was read is what the buffer held before. -/
theorem overlay_beyond (buf : Vector UInt8 bufSize) (bytes : List UInt8) (i : ℕ)
    (h : bytes.length ≤ i) : (overlay buf bytes).toList[i]? = buf.toList[i]? := by
  rcases lt_or_ge i bufSize with hi | hi
  · have hget : buf.get ⟨i,hi⟩ = buf[i] := rfl
    simp [overlay, hi, h, hget]
  · simp [hi]

theorem overlay_within (buf : Vector UInt8 bufSize) (bytes : List UInt8) (i : ℕ)
    (h : i < bytes.length) (hi : i < bufSize) :
    (overlay buf bytes).toList[i]? = bytes[i]? := by
  simp [overlay, hi, h]

section OneEvent

variable (cb : Callbacks) (s : Server) (e : Event)

theorem handle_data (conn : Conn) (plain : Plain) (h : Reads s e conn plain) :
    handle cb s e = .ok ({ s with buf := overlay s.buf plain.bytes },
      if cb.read then
        [.read (some conn) e.fd (some (overlay s.buf plain.bytes).toList) bufSize]
      else []) := by
  obtain ⟨hin,hfd,hconn,hread⟩ := h
  simp [handle, hin, hfd, hconn, connEvent, hread]

theorem sameEvent_refl : SameEvent e e := .inl rfl

theorem serverEvent_buf (e' : Event) (h : SameEvent e e') (b : Vector UInt8 bufSize) :
    serverEvent cb { s with buf := b } e' =
      ({ (serverEvent cb s e).1 with buf := b },(serverEvent cb s e).2) := by
  have hfd : e'.remoteFd = e.remoteFd ∧ e'.allocated = e.allocated := by
    rcases h with rfl | ⟨_,_,_,rfl⟩
    · exact ⟨rfl,rfl⟩
    · exact ⟨rfl,rfl⟩
  simp only [serverEvent, registerConnection, hfd]
  split_ifs <;> rfl

theorem serverEvent_calls (conn : Conn) (fd : ℤ) (buf : Option (List UInt8)) (len : ℤ) :
    .read (some conn) fd buf len ∉ (serverEvent cb s e).2 := by
  simp only [serverEvent]
  split_ifs <;> simp

/-- A call of `ssl_read` without bytes: the loop exits, or the buffer takes no
part in what is done, and the read callback gets no data. -/
theorem connEvent_other (conn : Conn) (h : ∀ plain, e.read ≠ .data plain) :
    (∀ b, connEvent cb { s with buf := b } e conn = .error .exit) ∨
    ∃ (t : Server) (calls : List Call),
      (∀ conn fd buf (len : ℤ), .read (some conn) fd buf len ∉ calls) ∧
      ∀ b, connEvent cb { s with buf := b } e conn = .ok ({ t with buf := b },calls) := by
  cases hread : e.read with
  | data plain => exact absurd hread (h plain)
  | wantRead => exact .inr ⟨s,[],by simp,fun b => by simp [connEvent, hread]⟩
  | wantWrite => exact .inr ⟨s,[],by simp,fun b => by simp [connEvent, hread]⟩
  | connEof => exact .inl (fun b => by simp [connEvent, hread])
  | failed =>
    refine .inr ⟨{ s with conns := removeConnection s.conns e.fd },
      if cb.close then [.close conn e.fd] else [],?_,fun b => by simp [connEvent, hread]⟩
    intro conn fd buf len
    split_ifs <;> simp

/-- An event that reads no bytes exits, or does something in which neither the
buffer nor other bytes take part, and hands no data to the read callback. -/
theorem handle_other (h : ∀ conn plain, ¬Reads s e conn plain) :
    (∀ b e', SameEvent e e' → handle cb { s with buf := b } e' = .error .exit) ∨
    ∃ (t : Server) (calls : List Call),
      (∀ conn fd buf (len : ℤ), .read (some conn) fd buf len ∉ calls) ∧
      ∀ b e', SameEvent e e' →
        handle cb { s with buf := b } e' = .ok ({ t with buf := b },calls) := by
  have same {e'} (he : SameEvent e e') : e'.fd = e.fd ∧ e'.epollin = e.epollin ∧
      e'.epollout = e.epollout := by
    rcases he with rfl | ⟨_,_,_,rfl⟩ <;> exact ⟨rfl,rfl,rfl⟩
  cases hin : e.epollin with
  | false =>
    cases hout : e.epollout with
    | false => exact .inr ⟨s,[],by simp,fun b e' he => by simp [handle, same he, hin, hout]⟩
    | true =>
      refine .inr ⟨s,if cb.write then [.write (getConnection s.conns e.fd) e.fd] else [],?_,
        fun b e' he => by simp [handle, same he, hin, hout]⟩
      intro conn fd buf len
      split_ifs <;> simp
  | true =>
    by_cases hfd : e.fd = s.fd
    · refine .inr ⟨(serverEvent cb s e).1,(serverEvent cb s e).2,serverEvent_calls cb s e,?_⟩
      intro b e' he
      simp [handle, same he, hin, hfd, serverEvent_buf cb s e e' he]
    · cases hconn : getConnection s.conns e.fd with
      | none =>
        refine .inr ⟨s,if cb.read then [.read none e.fd none (-1)] else [],?_,
          fun b e' he => by simp [handle, same he, hin, hfd, hconn]⟩
        intro conn fd buf len
        split_ifs <;> simp
      | some conn =>
        -- the event reads the connection, but `ssl_read` returns no bytes
        have hno : ∀ plain, e.read ≠ .data plain :=
          fun plain hread => h conn plain ⟨hin,hfd,hconn,hread⟩
        have hsame {e'} (he : SameEvent e e') : e' = e := by
          rcases he with rfl | ⟨plain,_,hread,_⟩
          · rfl
          · exact absurd hread (hno plain)
        have hrun b : handle cb { s with buf := b } e =
            connEvent cb { s with buf := b } e conn := by
          simp [handle, hin, hfd, hconn]
        rcases connEvent_other cb s e conn hno with hexit | ⟨t,calls,hnone,hall⟩
        · exact .inl (fun b e' he => by rw [hsame he, hrun, hexit])
        · exact .inr ⟨t,calls,hnone,fun b e' he => by rw [hsame he, hrun, hall]⟩

/-- The callback is handed the right bytes exactly when they fill the buffer. -/
theorem hands_iff (r : Except Fault Server) : HandsExactly cb s e r ↔ FullRead cb s e r := by
  constructor
  · intro h hcb conn plain hd
    have hrun := handle_data cb s e conn plain hd
    rw [if_pos hcb] at hrun
    obtain ⟨plain',hread,_,hlen⟩ := h _ _ hrun _ _ _ _ (List.mem_singleton_self _)
    have hplain : plain' = plain := SslRead.data.inj (hread.symm.trans hd.2.2.2)
    rw [hplain] at hlen
    exact_mod_cast hlen.symm
  · intro h t calls hrun conn fd buf len hm
    by_cases hd : ∃ conn plain, Reads s e conn plain
    · obtain ⟨conn',plain,hd⟩ := hd
      rw [handle_data cb s e conn' plain hd] at hrun
      obtain ⟨-,rfl⟩ := Prod.mk.inj (Except.ok.inj hrun)
      split at hm
      · next hcb =>
        have hfull := h hcb conn' plain hd
        rw [overlay_full s.buf plain.bytes hfull, List.mem_singleton] at hm
        obtain ⟨-,-,hbuf,hlen⟩ := Call.read.inj hm
        exact ⟨plain,hd.2.2.2,hbuf,by rw [hlen, hfull]⟩
      · cases hm
    · simp only [not_exists] at hd
      rcases handle_other cb s e hd with hexit | ⟨u,calls',hnone,hall⟩
      · rw [hexit s.buf e (sameEvent_refl e)] at hrun
        cases hrun
      · rw [hall s.buf e (sameEvent_refl e)] at hrun
        obtain ⟨-,rfl⟩ := Prod.mk.inj (Except.ok.inj hrun)
        exact absurd hm (hnone conn fd buf len)

end OneEvent

theorem readsOf_append (node : ℕ) (calls calls' : List Call) :
    readsOf node (calls++calls') = readsOf node calls++readsOf node calls' :=
  List.filterMap_append

section TwoRuns

variable (cb : Callbacks) (node : ℕ)

/-- One event in two runs whose buffers differ. -/
theorem step_agrees (s : Server) (b : Vector UInt8 bufSize) (e e' : Event)
    (hfull : FullRead cb s e (step cb s e)) (hsame : SameEvent e e')
    (hown : ∀ conn, getConnection s.conns e.fd = some conn → conn.node = node → e' = e) :
    (∃ x, handle cb s e = .error x ∧ handle cb { s with buf := b } e' = .error x) ∨
    ∃ (t : Server) (calls calls' : List Call) (b' : Vector UInt8 bufSize),
      handle cb s e = .ok (t,calls) ∧
      handle cb { s with buf := b } e' = .ok ({ t with buf := b' },calls') ∧
      readsOf node calls = readsOf node calls' := by
  by_cases hd : ∃ conn plain, Reads s e conn plain
  · obtain ⟨conn,plain,hd⟩ := hd
    obtain ⟨plain',hd',hplain⟩ : ∃ plain', Reads { s with buf := b } e' conn plain' ∧
        (conn.node = node → plain' = plain) := by
      obtain ⟨hin,hfd,hconn,hread⟩ := hd
      rcases hsame with rfl | ⟨_,plain',_,rfl⟩
      · exact ⟨plain,⟨hin,hfd,hconn,hread⟩,fun _ => rfl⟩
      · refine ⟨plain',⟨hin,hfd,hconn,rfl⟩,fun hnode => ?_⟩
        have he := congrArg Event.read (hown conn hconn hnode)
        exact SslRead.data.inj (he.trans hread)
    refine .inr ⟨_,_,_,_,handle_data cb s e conn plain hd,
      handle_data cb { s with buf := b } e' conn plain' hd',?_⟩
    by_cases hcb : cb.read = true
    · by_cases hnode : conn.node = node
      · have hlen := hfull hcb conn plain hd
        rw [hplain hnode, overlay_full _ _ hlen, overlay_full _ _ hlen]
        simp [readsOf, hcb, hnode]
      · simp [readsOf, hcb, hnode]
    · simp [hcb]
  · simp only [not_exists] at hd
    rcases handle_other cb s e hd with hexit | ⟨t,calls,hnone,hall⟩
    · exact .inl ⟨_,hexit s.buf e (sameEvent_refl e),hexit b e' hsame⟩
    · exact .inr ⟨_,calls,calls,b,hall s.buf e (sameEvent_refl e),hall b e' hsame,rfl⟩

theorem log_agrees (es es' : List Event) (s : Server) (b : Vector UInt8 bufSize)
    (hfull : Along (step cb) (FullRead cb) es s) (hdiff : OthersDiffer cb node s es es') :
    readsOf node (callLog cb es s) = readsOf node (callLog cb es' { s with buf := b }) := by
  induction es generalizing es' s b with
  | nil =>
    cases es' with
    | nil => rfl
    | cons e' es' => exact hdiff.elim
  | cons e es ih =>
    cases es' with
    | nil => exact hdiff.elim
    | cons e' es' =>
      obtain ⟨hsame,hown,hrest⟩ := hdiff
      rcases step_agrees cb node s b e e' hfull.1 hsame hown with
        ⟨x,h,h'⟩ | ⟨t,calls,calls',b',h,h',hreads⟩
      · simp only [callLog, h, h']
      · have hstep : step cb s e = .ok t := by rw [step, h]; rfl
        simp only [callLog, h, h', readsOf_append, hreads]
        rw [ih es' t b' (hfull.2 t hstep) (hrest t hstep)]

end TwoRuns

/-- For every sequence of events, the read callback is handed exactly the bytes
that `ssl_read` returned, and what it is handed for a connection does not depend
on the data of the others, exactly when every read for the callback fills the
buffer. -/
theorem read_exact_iff (cb : Callbacks) (es : List Event) (s : Server) :
    (Along (step cb) (HandsExactly cb) es s ∧
      ∀ node es', OthersDiffer cb node s es es' →
        readsOf node (callLog cb es s) = readsOf node (callLog cb es' s)) ↔
    Along (step cb) (FullRead cb) es s := by
  have hands : Along (step cb) (HandsExactly cb) es s ↔ Along (step cb) (FullRead cb) es s :=
    along_iff (I := fun _ => True) (fun _ _ _ _ _ _ => trivial)
      (fun s e _ => hands_iff cb s e (step cb s e)) es s trivial
  constructor
  · intro h
    exact hands.mp h.1
  · intro h
    exact ⟨hands.mpr h,fun node es' hdiff => log_agrees cb node es es' s s.buf h hdiff⟩

def pairServer : Server where
  fd := 3
  conns := [⟨0,5⟩,⟨1,6⟩]
  next := 2
  buf := Vector.replicate bufSize 0

def readEvent (fd : ℤ) (plain : Plain) : Event where
  fd := fd
  epollin := true
  epollout := false
  remoteFd := -1
  allocated := false
  read := .data plain

def secretData : Plain := ⟨[1,2],by simp,by simp [bufSize]⟩

def shortData : Plain := ⟨[9],by simp,by simp [bufSize]⟩

def readOnly : Callbacks := ⟨false,true,false,false⟩

/-- The second connection sends one byte; its callback is handed 4096, the
second of which the first connection had sent. -/
theorem short_read_leaks :
    ∃ data, readsOf 1 (callLog readOnly [readEvent 5 secretData,readEvent 6 shortData] pairServer) =
        [(some data,4096)] ∧
      data[1]? = some 2 ∧ data ≠ shortData.bytes := by
  have hfirst : Reads pairServer (readEvent 5 secretData) ⟨0,5⟩ secretData :=
    ⟨rfl,by decide,rfl,rfl⟩
  have hsecond (b : Vector UInt8 bufSize) :
      Reads { pairServer with buf := b } (readEvent 6 shortData) ⟨1,6⟩ shortData :=
    ⟨rfl,(by decide : (6:ℤ) ≠ 3),rfl,rfl⟩
  have hbyte (b : Vector UInt8 bufSize) :
      (overlay (overlay b secretData.bytes) shortData.bytes).toList[1]? = some 2 := by
    rw [overlay_beyond _ _ 1 (by simp [shortData]),
      overlay_within _ _ 1 (by simp [secretData]) (by simp [bufSize])]
    rfl
  refine ⟨_,?_,hbyte pairServer.buf,?_⟩
  · simp only [callLog, handle_data _ _ _ _ _ hfirst, handle_data _ _ _ _ _ (hsecond _)]
    rfl
  · intro h
    have hb := hbyte pairServer.buf
    rw [h] at hb
    simp [shortData] at hb

end Duda.SslServer
