import Duda.MariadbFrame

/-!
# The callback of a request for a connection

A connection is asked for with `connect_async`, or with `pool_get_conn_async`,
which takes a connection out of the pool or creates one beyond the maximum size
of the pool. For a connection of the pool `mariadb_pool_get_conn` connects
without a callback, stores the callback in the connection and calls it itself.
This module follows one request, with everything that the library, the event
loop and the user do with the connection, and settles when its callback is
called at most once, never on a freed connection, and with `MARIADB_OK` only in
the state `CONNECTED`.
-/

set_option autoImplicit false

namespace Duda.MariadbConnect
open Duda.Mariadb Duda.MariadbFrame Duda.Runs
open Duda.MariadbMoves (onRead_spec step_moves)

/-- A new connection of the user, a connection beyond the maximum size of the
pool, a new connection of the pool, and one that was returned to the pool. -/
inductive Kind where
  | direct
  | beyond
  | fresh
  | reused
  deriving DecidableEq, Repr

/-- The request comes once; what happens to the connection besides is an input
of the connection. -/
inductive Input where
  | request
  | own (a : Mariadb.Input)
  deriving DecidableEq, Repr

/-- The faults of the connection, and a callback on a freed connection. -/
inductive Fault where
  | conn (f : Mariadb.Fault)
  | freedCallback
  deriving DecidableEq, Repr

/-- The request; while it is `getting`, `mariadb_pool_get_conn` waits for
`mariadb_async_handle_connect` to return. -/
structure Request where
  kind : Kind
  asked : Bool
  getting : Bool
  machine : Machine
  deriving DecidableEq, Repr

/-- A connection that waits in the pool after `mariadb_pool_reclaim_conn`. -/
def pooled (multi : Bool) : Machine :=
  { connCreate multi with state := .connected, linked := true, polled := true }

def start (kind : Kind) (multi : Bool) : Request :=
  match kind with
  | .reused => ⟨.reused,false,false,pooled multi⟩
  | kind => ⟨kind,false,false,connCreate multi⟩

/-- The end of `mariadb_pool_get_conn`, which uses the connection whatever
`mariadb_async_handle_connect` returned; that is `MARIADB_OK` unless the
connection was freed. In the callback and after it the user has control. -/
def getConnEnd (m : Machine) : Except Fault Machine :=
  if m.alive then .ok ({ m with connect_cb := true }.logged (.connect true))
  else .error .freedCallback

/-- What `mariadb_pool_get_conn` does when the handler of the connection has
returned. -/
def getConn (r : Request) : Except Fault Request :=
  if r.getting = true ∧ r.machine.point = none then
    (getConnEnd r.machine).map fun m => { r with getting := false, machine := m }
  else .ok r

/-- The connection is known to the user before the request only if the user
created it. -/
def step (r : Request) : Input → Except Fault Request
  | .request =>
    if r.asked = false ∧ r.machine.point = none ∧ r.machine.alive = true then
      match r.kind with
      | .direct | .beyond => .ok { r with asked := true, machine := handleConnect r.machine true }
      | .fresh | .reused =>
        getConn { r with asked := true, getting := true, machine := handleConnect r.machine false }
    else .error (.conn .notEnabled)
  | .own (.connectAsync _) => .error (.conn .notEnabled)
  | .own a =>
    if r.asked = true ∨ r.kind = .direct then
      match Mariadb.step r.machine a with
      | .ok m => getConn { r with machine := m }
      | .error f => .error (.conn f)
    else .error (.conn .notEnabled)

/-- A new connection of the pool is established at once. -/
def Immediate (r : Request) : Input → Prop
  | .own (.answer a) => r.getting = true → a ≠ .wouldBlock ∧ a ≠ .failed
  | _ => True

def waiting (multi : Bool) : Request :=
  ⟨.fresh,true,true,(connCreate multi).await .connectStart []⟩

/-- How far the request is. -/
inductive Phase (r : Request) : Prop where
  | unknown (multi : Bool) (hk : r.kind ≠ .direct) (hr : r = start r.kind multi)
  | unasked (hk : r.kind = .direct) (ha : r.asked = false) (hg : r.getting = false)
      (hc : connects r.machine.log = []) (hst : r.machine.state = .closed)
      (hp : r.machine.point = none) (hs : r.machine.stack = []) (hpoll : r.machine.polled = false)
  | starting (ha : r.asked = true) (hg : r.getting = false) (hc : connects r.machine.log = [])
      (hst : r.machine.state = .closed) (hp : r.machine.point = some .connectStart)
      (hs : r.machine.stack = []) (hcb : r.machine.connect_cb = true)
      (hl : r.machine.alive = true)
  | getting (multi : Bool) (hr : r = waiting multi)
  | connecting (ha : r.asked = true) (hg : r.getting = false) (hc : connects r.machine.log = [])
      (hst : r.machine.state = .connecting)
      (hp : r.machine.point = none ∨ r.machine.point = some .connectCont)
      (hs : r.machine.stack = []) (hcb : r.machine.connect_cb = true)
      (hl : r.machine.alive = true)
  | refused (ha : r.asked = true) (hg : r.getting = false)
      (hc : (connects r.machine.log).length = 1) (hst : r.machine.state = .connecting)
      (hp : r.machine.point = none)
      (hs : r.machine.stack = [.readRefusedCb] ∨ r.machine.stack = [] ∧ r.machine.polled = false)
  | settled (ha : r.asked = true) (hg : r.getting = false)
      (hc : (connects r.machine.log).length = 1) (hst : r.machine.state ≠ .connecting)
      (hp : r.machine.point ≠ some .connectStart) (hp' : r.machine.point ≠ some .connectCont)
      (hr : Ready r.machine)

/-- What a step has to show. -/
structure Sound (r : Request) (res : Except Fault Request) : Prop where
  live : res ≠ .error .freedCallback
  phase : ∀ t, res = .ok t → Phase t
  established : ∀ t, res = .ok t → connects t.machine.log = connects r.machine.log ∨
    ∃ ok, connects t.machine.log = connects r.machine.log++[ok] ∧ t.machine.alive = true ∧
      (ok = true → t.machine.state = .connected)

section Steps

variable {r : Request}

theorem sound_conn (f : Mariadb.Fault) : Sound r (.error (.conn f)) where
  live := fun h => by cases h
  phase := fun _ ht => by cases ht
  established := fun _ ht => by cases ht

theorem sound_same {t : Request} (hp : Phase t)
    (hc : connects t.machine.log = connects r.machine.log) : Sound r (.ok t) := by
  refine ⟨fun h => (by cases h),?_,?_⟩
  · intro u hu
    cases hu
    exact hp
  · intro u hu
    cases hu
    exact .inl hc

theorem sound_call {t : Request} (hp : Phase t) (ok : Bool)
    (hc : connects t.machine.log = connects r.machine.log++[ok]) (hl : t.machine.alive = true)
    (hst : ok = true → t.machine.state = .connected) : Sound r (.ok t) := by
  refine ⟨fun h => (by cases h),?_,?_⟩
  · intro u hu
    cases hu
    exact hp
  · intro u hu
    cases hu
    exact .inr ⟨ok,hc,hl,hst⟩

/-- An input of the connection outside of `mariadb_pool_get_conn`. -/
theorem sound_own (hg : r.getting = false) (a : Mariadb.Input)
    (h : (∀ cb, a ≠ .connectAsync cb) → ∀ m, Mariadb.step r.machine a = .ok m →
      Sound r (.ok { r with machine := m })) : Sound r (step r (.own a)) := by
  have hstep : (∀ cb, a ≠ .connectAsync cb) → Sound r
      (if r.asked = true ∨ r.kind = .direct then
        match Mariadb.step r.machine a with
        | .ok m => getConn { r with machine := m }
        | .error f => .error (.conn f)
      else .error (.conn .notEnabled)) := by
    intro hne
    split
    · split
      · next m hm =>
        rw [getConn, if_neg (by simp [hg])]
        exact h hne m hm
      · exact sound_conn _
    · exact sound_conn _
  cases a with
  | connectAsync cb => exact sound_conn _
  | queryAsync s c w e => exact hstep (fun _ h => by cases h)
  | disconnectAsync cb => exact hstep (fun _ h => by cases h)
  | abortAsync q => exact hstep (fun _ h => by cases h)
  | read => exact hstep (fun _ h => by cases h)
  | answer a => exact hstep (fun _ h => by cases h)
  | callbackReturns => exact hstep (fun _ h => by cases h)

theorem sound_asked (ha : r.asked = true) : Sound r (step r .request) := by
  rw [step, if_neg (by simp [ha])]
  exact sound_conn _

end Steps

/-- What a call of the user leaves alone while the connection is not
established. -/
structure Same (m t : Machine) : Prop where
  log : t.log = m.log
  state : t.state = m.state
  point : t.point = m.point
  stack : t.stack = m.stack
  polled : t.polled = m.polled
  alive : t.alive = m.alive
  connect_cb : t.connect_cb = m.connect_cb

/-- Without an established connection the calls of the user only leave a note. -/
theorem user_same {m : Machine} (hp : m.point = none) (hst : m.state ≠ .connected)
    (hret : ∀ u, ret m.stack u = .ok (u.user m.stack)) (a : Mariadb.Input)
    (hc : ∀ cb, a ≠ .connectAsync cb) (hr : a ≠ .read) (hb : a ≠ .callbackReturns) (t : Machine)
    (h : Mariadb.step m a = .ok t) : Same m t := by
  cases step_moves a h with
  | connects cb | connecting cb => exact absurd rfl (hc cb)
  | waits s c w e t _ _ _ hadd =>
    cases (hret _).symm.trans hadd
    exact ⟨rfl,rfl,hp.symm,rfl,rfl,rfl,rfl⟩
  | leaves | aborts => exact ⟨rfl,rfl,rfl,rfl,rfl,rfl,rfl⟩
  | looks _ _ _ _ _ _ _ hconn | releases _ _ _ _ hconn => exact absurd hconn hst
  | idle | reads => exact absurd rfl hr
  | answers p a e t hq => cases hp.symm.trans hq
  | returns => exact absurd rfl hb

section Phases

variable {r : Request}

theorem settled_user (ha : r.asked = true) (hg : r.getting = false)
    (hc : (connects r.machine.log).length = 1) (s : ConnState) (hst : r.machine.state = s)
    (hs : s ≠ .connecting) (hp : r.machine.point = none) (hk : Nested r.machine.stack) :
    Phase r := by
  refine .settled ha hg hc (hst ▸ hs) ?_ ?_ (.user hp (.nested _ hk))
  · rw [hp]
    simp
  · rw [hp]
    simp

theorem called_once {m : Machine} {l : List Bool} {ok : Bool}
    (hlog : connects m.log = l++[ok]) (hl : l = []) : (connects m.log).length = 1 := by
  rw [hlog, hl]
  rfl

/-- Before the request nothing happens to a connection of the user. -/
theorem sound_unasked (hk : r.kind = .direct) (ha : r.asked = false) (hg : r.getting = false)
    (hc : connects r.machine.log = []) (hst : r.machine.state = .closed)
    (hp : r.machine.point = none) (hs : r.machine.stack = []) (hpoll : r.machine.polled = false)
    (a : Input) : Sound r (step r a) := by
  cases a with
  | request =>
    rw [step, hk]
    split
    · next h =>
      refine sound_same ?_ ?_
      · refine .starting rfl hg ?_ ?_ ?_ ?_ ?_ ?_
        all_goals simp [handleConnect, Machine.await, hst, hc, hs, h.2.2]
      · simp [handleConnect, Machine.await, hst]
    · exact sound_conn _
  | own a =>
    apply sound_own hg
    intro hne m hm
    by_cases hr : a = .read
    · subst hr
      simp [Mariadb.step, hpoll] at hm
    by_cases hb : a = .callbackReturns
    · subst hb
      simp [Mariadb.step, hp, hs, returned] at hm
    · have hsame := user_same hp (by simp [hst]) (by simp [hs, ret]) a hne hr hb m hm
      refine sound_same (.unasked hk ha hg ?_ ?_ ?_ ?_ ?_) ?_
      · exact (congrArg connects hsame.log).trans hc
      · exact hsame.state.trans hst
      · exact hsame.point.trans hp
      · exact hsame.stack.trans hs
      · exact hsame.polled.trans hpoll
      · exact congrArg connects hsame.log

section Requested

variable (ha : r.asked = true) (hg : r.getting = false) (hc : connects r.machine.log = [])
  (hs : r.machine.stack = []) (hcb : r.machine.connect_cb = true) (hl : r.machine.alive = true)

include ha hg hc hs hcb hl

theorem sound_starting (hst : r.machine.state = .closed)
    (hp : r.machine.point = some .connectStart) (a : Input) : Sound r (step r a) := by
  cases a with
  | request => exact sound_asked ha
  | own a =>
    apply sound_own hg
    intro hne m hm
    obtain ⟨x,rfl,hx⟩ := called_answer hp a m hm
    rw [hs] at hx
    cases x with
    | wouldBlock =>
      cases hx
      exact sound_same (.connecting ha hg hc rfl (.inl rfl) rfl hcb hl) rfl
    | failed =>
      cases (if_pos hcb).symm.trans hx
      have hlog := connects_logged r.machine (.connect false)
      exact sound_call (settled_user ha hg (called_once hlog hc) .closed hst (by decide) rfl
        ⟨rfl,.inl rfl,trivial⟩) false hlog hl (fun h => by cases h)
    | done =>
      cases (if_pos hcb).symm.trans hx
      have hlog := connects_logged r.machine (.connect true)
      exact sound_call (settled_user ha hg (called_once hlog hc) .connected rfl (by decide) rfl
        ⟨rfl,.inl rfl,trivial⟩) true hlog hl (fun _ => rfl)
    | result _ | row | noRow _ | next _ => cases hx

theorem sound_connecting (hst : r.machine.state = .connecting)
    (hp : r.machine.point = none ∨ r.machine.point = some .connectCont) (a : Input) :
    Sound r (step r a) := by
  cases a with
  | request => exact sound_asked ha
  | own a =>
    apply sound_own hg
    intro hne m hm
    rcases hp with hp | hp
    · by_cases hr : a = .read
      · subst hr
        rw [Mariadb.step] at hm
        obtain ⟨-,hm⟩ := guard_ok hm
        rw [onRead, if_pos hl, hst] at hm
        cases hm
        exact sound_same (.connecting ha hg hc hst (.inr rfl) rfl hcb hl) rfl
      by_cases hb : a = .callbackReturns
      · subst hb
        simp [Mariadb.step, hp, hs, returned] at hm
      · have hsame := user_same hp (by simp [hst]) (by simp [hs, ret]) a hne hr hb m hm
        refine sound_same (.connecting ha hg ?_ ?_ (.inl ?_) ?_ ?_ ?_) ?_
        · exact (congrArg connects hsame.log).trans hc
        · exact hsame.state.trans hst
        · exact hsame.point.trans hp
        · exact hsame.stack.trans hs
        · exact hsame.connect_cb.trans hcb
        · exact hsame.alive.trans hl
        · exact congrArg connects hsame.log
    · obtain ⟨x,rfl,hx⟩ := called_answer hp a m hm
      rw [hs] at hx
      cases x with
      | wouldBlock =>
        cases hx
        exact sound_same (.connecting ha hg hc hst (.inl rfl) rfl hcb hl) rfl
      | failed =>
        cases (if_pos hcb).symm.trans hx
        have hlog := connects_logged r.machine (.connect false)
        exact sound_call (.refused ha hg (called_once hlog hc) hst rfl (.inl rfl)) false hlog hl
          (fun h => by cases h)
      | done =>
        cases (if_pos hcb).symm.trans hx
        have hlog := connects_logged r.machine (.connect true)
        exact sound_call (settled_user ha hg (called_once hlog hc) .connected rfl (by decide) rfl
          ⟨rfl,.inr rfl,trivial⟩) true hlog hl (fun _ => rfl)
      | result _ | row | noRow _ | next _ => cases hx

end Requested

/-- After a refused connection the event loop does not read again. -/
theorem sound_refused (ha : r.asked = true) (hg : r.getting = false)
    (hc : (connects r.machine.log).length = 1) (hst : r.machine.state = .connecting)
    (hp : r.machine.point = none)
    (hs : r.machine.stack = [.readRefusedCb] ∨ r.machine.stack = [] ∧ r.machine.polled = false)
    (a : Input) : Sound r (step r a) := by
  cases a with
  | request => exact sound_asked ha
  | own a =>
    apply sound_own hg
    intro hne m hm
    by_cases hr : a = .read
    · subst hr
      rcases hs with hs | hs
      · simp [Mariadb.step, hs] at hm
      · simp [Mariadb.step, hs.2] at hm
    by_cases hb : a = .callbackReturns
    · subst hb
      rw [Mariadb.step, if_pos hp] at hm
      rcases hs with hs | ⟨hs,-⟩
      · rw [hs] at hm
        cases hm
        exact sound_same (.refused ha hg hc hst rfl (.inr ⟨rfl,rfl⟩)) rfl
      · rw [hs] at hm
        cases hm
    · have hret : ∀ u, ret r.machine.stack u = .ok (u.user r.machine.stack) := by
        intro u
        rcases hs with hs | ⟨hs,-⟩
        · rw [hs]
          rfl
        · rw [hs]
          rfl
      have hsame := user_same hp (by simp [hst]) hret a hne hr hb m hm
      refine sound_same (.refused ha hg ?_ ?_ ?_ ?_) ?_
      · exact (congrArg List.length (congrArg connects hsame.log)).trans hc
      · exact hsame.state.trans hst
      · exact hsame.point.trans hp
      · show m.stack = _ ∨ m.stack = _ ∧ m.polled = _
        rw [hsame.stack, hsame.polled]
        exact hs
      · exact congrArg connects hsame.log

theorem noted_same (m : Machine) (a : Mariadb.Input) :
    (noted m a).log = m.log ∧ (noted m a).state = m.state := by
  cases a with
  | connectAsync _ | queryAsync _ _ _ _ | disconnectAsync _ | abortAsync _ | read | answer _
  | callbackReturns => exact ⟨rfl,rfl⟩

/-- Once the callback was called for an established connection, or by the first
call of the library, no handler calls it again. -/
theorem sound_settled (ha : r.asked = true) (hg : r.getting = false)
    (hc : (connects r.machine.log).length = 1) (hst : r.machine.state ≠ .connecting)
    (hp : r.machine.point ≠ some .connectStart) (hp' : r.machine.point ≠ some .connectCont)
    (hr : Ready r.machine) (a : Input) : Sound r (step r a) := by
  cases a with
  | request => exact sound_asked ha
  | own a =>
    apply sound_own hg
    intro hne m hm
    have hready := step_ready hr a m hm
    by_cases hread : a = .read
    · subst hread
      rw [Mariadb.step] at hm
      obtain ⟨-,hm⟩ := guard_ok hm
      obtain ⟨-,⟨rfl,-⟩ | ⟨p,hcont,rfl⟩⟩ := onRead_spec m hm
      · exact sound_same (.settled ha hg hc hst hp hp' hr) rfl
      · obtain ⟨-,-,hstart,-,hconn⟩ := continuation_point hcont
        refine sound_same (.settled ha hg hc hst ?_ ?_ hready) rfl
        · exact fun h => hstart (Option.some.inj h)
        · exact fun h => hst (hconn (Option.some.inj h))
    · have htame := step_tame a hp hp' hm
      obtain ⟨hstart,hcont⟩ := step_unconnected a hne hread hm
      obtain ⟨hnlog,hnst⟩ := noted_same r.machine a
      have hlog : connects m.log = connects r.machine.log := hnlog ▸ htame.connects
      refine sound_same (.settled ha hg ?_ ?_ hstart hcont hready) hlog
      · exact (congrArg List.length hlog).trans hc
      · intro h
        exact hst (hnst.symm.trans (htame.connecting h))

theorem sound_unknown (kind : Kind) (multi : Bool) (hk : kind ≠ .direct) (a : Input) :
    Sound (start kind multi) (step (start kind multi) a) := by
  cases a with
  | request =>
    cases kind with
    | direct => exact absurd rfl hk
    | beyond => exact sound_same (.starting rfl rfl rfl rfl rfl rfl rfl rfl) rfl
    | fresh => exact sound_same (.getting multi rfl) rfl
    | reused =>
      exact sound_call (settled_user rfl rfl rfl .connected rfl (by decide) rfl trivial) true rfl
        rfl (fun _ => rfl)
  | own a =>
    have hunknown : step (start kind multi) (.own a) = .error (.conn .notEnabled) := by
      cases kind with
      | direct => exact absurd rfl hk
      | beyond | fresh | reused => cases a <;> rfl
    rw [hunknown]
    exact sound_conn _

theorem sound_getting (multi : Bool) (a : Input) (hi : Immediate (waiting multi) a) :
    Sound (waiting multi) (step (waiting multi) a) := by
  cases a with
  | request => exact sound_asked rfl
  | own a =>
    cases a with
    | answer a =>
      cases a with
      | wouldBlock => exact absurd rfl (hi rfl).1
      | failed => exact absurd rfl (hi rfl).2
      | done =>
        exact sound_call (settled_user rfl rfl rfl .connected rfl (by decide) rfl trivial) true rfl
          rfl (fun _ => rfl)
      | result _ | row | noRow _ | next _ => exact sound_conn _
    | connectAsync _ | queryAsync _ _ _ _ | disconnectAsync _ | abortAsync _ | read
    | callbackReturns => exact sound_conn _

theorem step_sound (h : Phase r) (a : Input) (hi : Immediate r a) : Sound r (step r a) := by
  cases h with
  | unknown multi hk hr =>
    rw [hr]
    exact sound_unknown r.kind multi hk a
  | unasked hk ha hg hc hst hp hs hpoll => exact sound_unasked hk ha hg hc hst hp hs hpoll a
  | starting ha hg hc hst hp hs hcb hl => exact sound_starting ha hg hc hs hcb hl hst hp a
  | getting multi hr =>
    subst hr
    exact sound_getting multi a hi
  | connecting ha hg hc hst hp hs hcb hl => exact sound_connecting ha hg hc hs hcb hl hst hp a
  | refused ha hg hc hst hp hs => exact sound_refused ha hg hc hst hp hs a
  | settled ha hg hc hst hp hp' hr => exact sound_settled ha hg hc hst hp hp' hr a

end Phases

end Duda.MariadbConnect
