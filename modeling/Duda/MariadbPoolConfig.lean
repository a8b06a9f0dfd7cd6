import Duda.MariadbPool

/-!
# The configurations of the connection pools

`mariadb_pool_create` appends a configuration to a list that all threads read.
The pool of a thread is created when the thread asks for a connection the first
time, and refers to the configuration that the lookup of its key returns. The
lookup keeps the last element it has seen, so that a key without a
configuration gets the last one of the list.
-/

set_option autoImplicit false

namespace Duda.MariadbPoolConfig
open Duda.Runs
open Duda.MariadbPool (Worker Connect Fault initial getConn poolDefaultMinSize initial_inv
  getConn_next opStep_refused Unrefused)

variable {κ τ α : Type}

/-- `mariadb_conn_config_t` without the files for SSL. -/
structure ConnConfig (α : Type) where
  user : Option α
  password : Option α
  host : Option α
  db : Option α
  port : ℕ
  unix_socket : Option α
  client_flag : ℕ
  deriving DecidableEq, Repr

structure SslConfig (α : Type) where
  ssl_key : Option α
  ssl_cert : Option α
  ssl_ca : Option α
  ssl_capath : Option α
  ssl_cipher : Option α
  deriving DecidableEq, Repr

/-- `mariadb_pool_config_t`; `use_ssl` is set together with the files. -/
structure PoolConfig (κ α : Type) where
  pool_key : κ
  conn_config : ConnConfig α
  ssl : Option (SslConfig α)
  min_size : ℤ
  max_size : ℤ
  deriving DecidableEq, Repr

def mariadbOk : ℤ := 0

def mariadbErr : ℤ := -1

/-- `MARIADB_POOL_DEFAULT_MAX_SIZE`. -/
def poolDefaultMaxSize : ℤ := 8

/-- The configuration that `mariadb_pool_create` fills. -/
def newConfig (pool_key : κ) (min_size max_size : ℤ) (conn_config : ConnConfig α) :
    PoolConfig κ α where
  pool_key := pool_key
  conn_config := conn_config
  ssl := none
  min_size := if min_size = 0 then poolDefaultMinSize else min_size
  max_size := if max_size = 0 then poolDefaultMaxSize else max_size

/-- `mariadb_pool_create`; `allocated` is the success of `mem_alloc`. -/
def poolCreate (configs : List (PoolConfig κ α)) (allocated : Bool) (pool_key : κ)
    (min_size max_size : ℤ) (conn_config : ConnConfig α) : List (PoolConfig κ α) × ℤ :=
  if allocated then (configs++[newConfig pool_key min_size max_size conn_config],mariadbOk)
  else (configs,mariadbErr)

def setSslAt (configs : List (PoolConfig κ α)) (i : ℕ) (files : SslConfig α) :
    List (PoolConfig κ α) :=
  configs.modify i (fun c => { c with ssl := some files })

def Created (configs : List (PoolConfig κ α)) (pool_key : κ) : Prop :=
  ∃ c ∈ configs, c.pool_key = pool_key

/-- The configuration at `i` was created with the key. -/
def Owns (configs : List (PoolConfig κ α)) (pool_key : κ) (i : ℕ) : Prop :=
  ∃ c, configs[i]? = some c ∧ c.pool_key = pool_key

theorem owns_created {configs : List (PoolConfig κ α)} {pool_key : κ} {i : ℕ}
    (h : Owns configs pool_key i) : Created configs pool_key := by
  obtain ⟨c,hc,hkey⟩ := h
  exact ⟨c,List.mem_of_getElem? hc,hkey⟩

theorem not_created_nil (pool_key : κ) : ¬Created ([] : List (PoolConfig κ α)) pool_key := by
  rintro ⟨c,hc,_⟩
  simp at hc

theorem owns_append {configs : List (PoolConfig κ α)} {pool_key : κ} {i : ℕ}
    (h : Owns configs pool_key i) (cs : List (PoolConfig κ α)) :
    Owns (configs++cs) pool_key i := by
  obtain ⟨c,hc,hkey⟩ := h
  obtain ⟨hi,_⟩ := List.getElem?_eq_some_iff.mp hc
  exact ⟨c,by rw [List.getElem?_append_left hi, hc],hkey⟩

theorem owns_setSsl {configs : List (PoolConfig κ α)} {pool_key : κ} {i : ℕ}
    (h : Owns configs pool_key i) (j : ℕ) (files : SslConfig α) :
    Owns (setSslAt configs j files) pool_key i := by
  obtain ⟨c,hc,hkey⟩ := h
  rw [Owns, setSslAt, List.getElem?_modify, hc]
  by_cases hj : j = i
  · exact ⟨{ c with ssl := some files },by simp [hj],hkey⟩
  · exact ⟨c,by simp [hj],hkey⟩

variable [DecidableEq κ] [DecidableEq τ]

/-- The loop of `__mariadb_pool_get_config`, where `config` is the variable of
that name: a place in the list and what stands there. -/
def getConfigLoop (pool_key : κ) : ℕ → Option (ℕ × PoolConfig κ α) → List (PoolConfig κ α) →
    Option (ℕ × PoolConfig κ α)
  | _, config, [] => config
  | i, _, c::cs =>
    if c.pool_key = pool_key then some (i,c) else getConfigLoop pool_key (i+1) (some (i,c)) cs

/-- `__mariadb_pool_get_config`. -/
def poolGetConfig (configs : List (PoolConfig κ α)) (pool_key : κ) :
    Option (ℕ × PoolConfig κ α) :=
  getConfigLoop pool_key 0 none configs

/-- `mariadb_pool_set_ssl`. -/
def poolSetSsl (configs : List (PoolConfig κ α)) (pool_key : κ) (files : SslConfig α) :
    List (PoolConfig κ α) × ℤ :=
  match poolGetConfig configs pool_key with
  | none => (configs,mariadbErr)
  | some (i,_) => (setSslAt configs i files,mariadbOk)

/-- The pool of a thread, with the place of its configuration. -/
structure ThreadPool where
  config : ℕ
  worker : Worker

/-- What a call returns: a code, `NULL` before there is a pool, or what the rest
of `mariadb_pool_get_conn` finds in the pool of a configuration. -/
inductive Answer where
  | ret (code : ℤ)
  | null
  | fromPool (config : ℕ)
  deriving DecidableEq, Repr

structure State (κ τ α : Type) where
  configs : List (PoolConfig κ α)
  pools : τ → κ → Option ThreadPool
  answer : Answer

def start : State κ τ α := ⟨[],fun _ _ => none,.ret mariadbOk⟩

/-- `mariadb_pool_get_conn` once the pool is known. -/
def connFrom (s : State κ τ α) (thread : τ) (pool_key : κ) (pool : ThreadPool)
    (isAsync created : Bool) (connect : Connect) : Except Fault (State κ τ α) :=
  (getConn pool.worker isAsync created connect).map fun w =>
    { s with
      pools := Function.update s.pools thread
        (Function.update (s.pools thread) pool_key (some { pool with worker := w }))
      answer := .fromPool pool.config }

/-- `mariadb_pool_get_conn`; `allocated` is the success of `mem_alloc`, and
`created` and `connect` are what creating and connecting a connection come to. -/
def poolGetConn (s : State κ τ α) (thread : τ) (pool_key : κ) (isAsync allocated created : Bool)
    (connect : Connect) : Except Fault (State κ τ α) :=
  match s.pools thread pool_key with
  | some pool => connFrom s thread pool_key pool isAsync created connect
  | none =>
    if allocated then
      match poolGetConfig s.configs pool_key with
      | none => .ok { s with answer := .null }
      | some (i,c) => connFrom s thread pool_key ⟨i,initial c.max_size⟩ isAsync created connect
    else .ok { s with answer := .null }

inductive Op (κ τ α : Type) where
  | create (allocated : Bool) (pool_key : κ) (min_size max_size : ℤ) (conn_config : ConnConfig α)
  | setSsl (pool_key : κ) (files : SslConfig α)
  | getConn (thread : τ) (pool_key : κ) (isAsync allocated created : Bool) (connect : Connect)

def opStep (s : State κ τ α) : Op κ τ α → Except Fault (State κ τ α)
  | .create allocated pool_key min_size max_size conn_config =>
    let r := poolCreate s.configs allocated pool_key min_size max_size conn_config
    .ok { s with configs := r.1, answer := .ret r.2 }
  | .setSsl pool_key files =>
    let r := poolSetSsl s.configs pool_key files
    .ok { s with configs := r.1, answer := .ret r.2 }
  | .getConn thread pool_key isAsync allocated created connect =>
    poolGetConn s thread pool_key isAsync allocated created connect

/-- What is expected of `mariadb_pool_set_ssl`. -/
def SslKeyed (s : State κ τ α) (pool_key : κ) (files : SslConfig α) (t : State κ τ α) : Prop :=
  (∃ i, Owns s.configs pool_key i ∧
    t = { s with configs := setSslAt s.configs i files, answer := .ret mariadbOk }) ∨
  (¬Created s.configs pool_key ∧ t = { s with answer := .ret mariadbErr })

/-- What is expected of the first `mariadb_pool_get_conn` of a thread: the pool
that it creates has a configuration of the key, and nothing else changes. -/
def ConnKeyed (s : State κ τ α) (thread : τ) (pool_key : κ) (t : State κ τ α) : Prop :=
  (∃ i, Owns s.configs pool_key i ∧ t.answer = .fromPool i ∧ t.configs = s.configs ∧
    (t.pools thread pool_key).map ThreadPool.config = some i ∧
    ∀ thread' key', ¬(thread' = thread ∧ key' = pool_key) →
      t.pools thread' key' = s.pools thread' key') ∨
  t = { s with answer := .null }

/-- The configuration that the lookup chooses is one of the key. -/
def Chosen (configs : List (PoolConfig κ α)) (pool_key : κ) : Prop :=
  ∃ i c, poolGetConfig configs pool_key = some (i,c) ∧ Owns configs pool_key i

/-- The calls keep to the key. A call whose new connection is refused at once to
an asynchronous caller ends in a fault, after it has chosen a configuration. -/
def Keyed (s : State κ τ α) (o : Op κ τ α) (r : Except Fault (State κ τ α)) : Prop :=
  match o with
  | .create _ _ _ _ _ => True
  | .setSsl pool_key files => ∃ t, r = .ok t ∧ SslKeyed s pool_key files t
  | .getConn thread pool_key _ _ _ _ =>
    s.pools thread pool_key = none →
      (∃ t, r = .ok t ∧ ConnKeyed s thread pool_key t) ∨
        r = .error .useAfterFree ∧ Chosen s.configs pool_key

/-- The lookup can tell: the key was used to create a pool, or there is none at
all. -/
def Known (configs : List (PoolConfig κ α)) (pool_key : κ) : Prop :=
  Created configs pool_key ∨ configs = []

/-- The calls that look for a configuration know their key. -/
def Looked (s : State κ τ α) (o : Op κ τ α) : Prop :=
  match o with
  | .create _ _ _ _ _ => True
  | .setSsl pool_key _ => Known s.configs pool_key
  | .getConn thread pool_key _ allocated _ _ =>
    s.pools thread pool_key = none → allocated = true → Known s.configs pool_key

theorem getConfigLoop_spec (pool_key : κ) (i : ℕ) (config : Option (ℕ × PoolConfig κ α))
    (cs : List (PoolConfig κ α)) :
    (∃ j c, cs[j]? = some c ∧ c.pool_key = pool_key ∧
      getConfigLoop pool_key i config cs = some (i+j,c)) ∨
    ((∀ c ∈ cs, c.pool_key ≠ pool_key) ∧
      (cs = [] ∧ getConfigLoop pool_key i config cs = config ∨
        ∃ j c, cs[j]? = some c ∧ getConfigLoop pool_key i config cs = some (i+j,c))) := by
  induction cs generalizing i config with
  | nil => exact .inr ⟨by simp,.inl ⟨rfl,rfl⟩⟩
  | cons c cs ih =>
    by_cases hc : c.pool_key = pool_key
    · exact .inl ⟨0,c,rfl,hc,by rw [getConfigLoop, if_pos hc, add_zero]⟩
    · have hnext : getConfigLoop pool_key i config (c::cs) =
          getConfigLoop pool_key (i+1) (some (i,c)) cs := by
        rw [getConfigLoop, if_neg hc]
      have hcons : (∀ d ∈ cs, d.pool_key ≠ pool_key) → ∀ d ∈ c::cs, d.pool_key ≠ pool_key :=
        fun h => List.forall_mem_cons.mpr ⟨hc,h⟩
      rw [hnext]
      rcases ih (i+1) (some (i,c)) with ⟨j,d,hd,hkey,hr⟩ | ⟨hnone,⟨_,hr⟩ | ⟨j,d,hd,hr⟩⟩
      · exact .inl ⟨j+1,d,hd,hkey,by rw [hr, add_assoc, add_comm 1]⟩
      · exact .inr ⟨hcons hnone,.inr ⟨0,c,rfl,hr⟩⟩
      · exact .inr ⟨hcons hnone,.inr ⟨j+1,d,hd,by rw [hr, add_assoc, add_comm 1]⟩⟩

section Lookup

variable (configs : List (PoolConfig κ α)) (pool_key : κ)

theorem getConfig_created (h : Created configs pool_key) :
    ∃ i c, poolGetConfig configs pool_key = some (i,c) ∧ Owns configs pool_key i := by
  rcases getConfigLoop_spec pool_key 0 none configs with ⟨j,c,hc,hkey,hr⟩ | ⟨hnone,_⟩
  · exact ⟨j,c,by rw [poolGetConfig, hr, zero_add],c,hc,hkey⟩
  · obtain ⟨c,hc,hkey⟩ := h
    exact absurd hkey (hnone c hc)

/-- A key that no pool was created with gets the configuration of another. -/
theorem getConfig_foreign (h : ¬Created configs pool_key) (hne : configs ≠ []) :
    ∃ i c, poolGetConfig configs pool_key = some (i,c) := by
  rcases getConfigLoop_spec pool_key 0 none configs with
    ⟨j,c,hc,hkey,_⟩ | ⟨_,⟨hnil,_⟩ | ⟨j,c,_,hr⟩⟩
  · exact absurd ⟨c,List.mem_of_getElem? hc,hkey⟩ h
  · exact absurd hnil hne
  · exact ⟨_,c,hr⟩

theorem getConfig_cases :
    Chosen configs pool_key ∨
    (configs = [] ∧ poolGetConfig configs pool_key = none) ∨
    (¬Known configs pool_key ∧ ∃ i c, poolGetConfig configs pool_key = some (i,c)) := by
  by_cases h : Created configs pool_key
  · exact .inl (getConfig_created configs pool_key h)
  · by_cases hne : configs = []
    · exact .inr (.inl ⟨hne,by rw [hne]; rfl⟩)
    · exact .inr (.inr ⟨fun hk => hk.elim h hne,getConfig_foreign configs pool_key h hne⟩)

end Lookup

section Calls

variable (s : State κ τ α) (pool_key : κ)

theorem setSsl_keyed_iff (files : SslConfig α) :
    Keyed s (.setSsl pool_key files) (opStep s (.setSsl pool_key files)) ↔
      Known s.configs pool_key := by
  simp only [Keyed, opStep, poolSetSsl, Except.ok.injEq, exists_eq_left']
  rcases getConfig_cases s.configs pool_key with ⟨i,c,hr,ho⟩ | ⟨hnil,hr⟩ | ⟨hk,i,c,hr⟩
  · simp only [hr]
    exact iff_of_true (.inl ⟨i,ho,rfl⟩) (.inl (owns_created ho))
  · simp only [hr]
    exact iff_of_true (.inr ⟨hnil ▸ not_created_nil pool_key,rfl⟩) (.inr hnil)
  · simp only [hr]
    refine iff_of_false ?_ hk
    rintro (⟨j,ho,_⟩ | ⟨_,he⟩)
    · exact hk (.inl (owns_created ho))
    · have hanswer := congrArg State.answer he
      simp [mariadbOk, mariadbErr] at hanswer

variable (thread : τ)

theorem connFrom_fresh (i : ℕ) (max_size : ℤ) (isAsync created : Bool) (connect : Connect) :
    connFrom s thread pool_key ⟨i,initial max_size⟩ isAsync created connect =
        .error .useAfterFree ∨
    ∃ t, connFrom s thread pool_key ⟨i,initial max_size⟩ isAsync created connect = .ok t ∧
      t.answer = .fromPool i ∧ t.configs = s.configs ∧
      (t.pools thread pool_key).map ThreadPool.config = some i ∧
      ∀ thread' key', ¬(thread' = thread ∧ key' = pool_key) →
        t.pools thread' key' = s.pools thread' key' := by
  have hinv := initial_inv max_size
  by_cases hu : Unrefused (initial max_size) (.get isAsync created connect)
  · obtain ⟨w,hw,_⟩ := getConn_next (initial max_size) isAsync created connect hinv hu
    refine .inr ⟨{ s with
        pools := Function.update s.pools thread
          (Function.update (s.pools thread) pool_key (some ⟨i,w⟩))
        answer := .fromPool i },by simp only [connFrom, hw, Except.map],rfl,rfl,by simp,?_⟩
    intro thread' key' hne
    by_cases ht : thread' = thread
    · subst ht
      have hk : key' ≠ pool_key := fun hk => hne ⟨rfl,hk⟩
      simp only [Function.update_self, Function.update_of_ne hk]
    · simp only [Function.update_of_ne ht]
  · have hr : getConn (initial max_size) isAsync created connect = .error .useAfterFree :=
      opStep_refused _ (.get isAsync created connect) hinv hu
    exact .inl (by simp only [connFrom, hr, Except.map])

omit [DecidableEq τ] in
theorem chosen_created (h : Chosen s.configs pool_key) : Created s.configs pool_key := by
  obtain ⟨_,_,_,ho⟩ := h
  exact owns_created ho

theorem getConn_keyed_iff (isAsync allocated created : Bool) (connect : Connect)
    (hfirst : s.pools thread pool_key = none) :
    ((∃ t, opStep s (.getConn thread pool_key isAsync allocated created connect) = .ok t ∧
        ConnKeyed s thread pool_key t) ∨
      opStep s (.getConn thread pool_key isAsync allocated created connect) =
        .error .useAfterFree ∧ Chosen s.configs pool_key) ↔
      (allocated = true → Known s.configs pool_key) := by
  cases allocated with
  | false =>
    refine iff_of_true (.inl ⟨_,?_,.inr rfl⟩) (by simp)
    simp [opStep, poolGetConn, hfirst]
  | true =>
    simp only [opStep, poolGetConn, hfirst, if_true, true_imp_iff]
    rcases getConfig_cases s.configs pool_key with hchosen | ⟨hnil,hr⟩ | ⟨hk,i,c,hr⟩
    · refine iff_of_true ?_ (.inl (chosen_created s pool_key hchosen))
      obtain ⟨i,c,hr,ho⟩ := hchosen
      simp only [hr]
      rcases connFrom_fresh s pool_key thread i c.max_size isAsync created connect with
        he | ⟨t,ht,hrest⟩
      · exact .inr ⟨he,i,c,hr,ho⟩
      · exact .inl ⟨t,ht,.inl ⟨i,ho,hrest⟩⟩
    · simp only [hr]
      exact iff_of_true (.inl ⟨_,rfl,.inr rfl⟩) (.inr hnil)
    · simp only [hr]
      refine iff_of_false ?_ hk
      rintro (⟨t,ht,⟨j,ho,_⟩ | rfl⟩ | ⟨_,hchosen⟩)
      · exact hk (.inl (owns_created ho))
      · rcases connFrom_fresh s pool_key thread i c.max_size isAsync created connect with
          he | ⟨u,hu,hanswer,_⟩
        · cases he.symm.trans ht
        · cases hu.symm.trans ht
          cases hanswer
      · exact hk (.inl (chosen_created s pool_key hchosen))

theorem opStep_keyed_iff (o : Op κ τ α) : Keyed s o (opStep s o) ↔ Looked s o := by
  cases o with
  | create => exact Iff.rfl
  | setSsl pool_key files => exact setSsl_keyed_iff s pool_key files
  | getConn thread pool_key isAsync allocated created connect =>
    simp only [Keyed, Looked]
    exact imp_congr_right fun hfirst =>
      getConn_keyed_iff s pool_key thread isAsync allocated created connect hfirst

end Calls

/-- Over every sequence of calls, of any threads: setting the SSL files and
creating the pool of a thread keep to the configurations of their key exactly
when each key that is looked up was used to create a pool, or no pool was
created at all. -/
theorem calls_keyed_iff (ops : List (Op κ τ α)) :
    Along opStep Keyed ops (start : State κ τ α) ↔
      Along opStep (fun s o _ => Looked s o) ops (start : State κ τ α) :=
  along_iff (I := fun _ => True) (fun _ _ _ _ _ _ => trivial) (fun s o _ => opStep_keyed_iff s o)
    ops start trivial

/-- Every pool of a thread refers to a configuration of its key. -/
def PoolsOwn (s : State κ τ α) : Prop :=
  ∀ thread pool_key pool, s.pools thread pool_key = some pool →
    Owns s.configs pool_key pool.config

theorem connFrom_own (s t : State κ τ α) (thread : τ) (pool_key : κ) (pool : ThreadPool)
    (isAsync created : Bool) (connect : Connect) (h : PoolsOwn s)
    (ho : Owns s.configs pool_key pool.config)
    (ht : connFrom s thread pool_key pool isAsync created connect = .ok t) : PoolsOwn t := by
  obtain ⟨w,_,rfl⟩ := map_ok ht
  intro thread' key' p hp
  by_cases hthread : thread' = thread
  · subst hthread
    by_cases hkey : key' = pool_key
    · subst hkey
      simp only [Function.update_self] at hp
      cases hp
      exact ho
    · simp only [Function.update_self, Function.update_of_ne hkey] at hp
      exact h thread' key' p hp
  · simp only [Function.update_of_ne hthread] at hp
    exact h thread' key' p hp

theorem opStep_own (s : State κ τ α) (o : Op κ τ α) (t : State κ τ α) (h : PoolsOwn s)
    (hg : Looked s o) (ht : opStep s o = .ok t) : PoolsOwn t := by
  cases o with
  | create allocated pool_key min_size max_size conn_config =>
    cases ht
    intro thread key p hp
    cases allocated with
    | true => exact owns_append (h thread key p hp) _
    | false => exact h thread key p hp
  | setSsl pool_key files =>
    cases ht
    intro thread key p hp
    have ho := h thread key p hp
    simp only [poolSetSsl]
    cases poolGetConfig s.configs pool_key with
    | none => exact ho
    | some r => exact owns_setSsl ho r.1 files
  | getConn thread pool_key isAsync allocated created connect =>
    simp only [opStep, poolGetConn] at ht
    cases hfirst : s.pools thread pool_key with
    | some pool =>
      rw [hfirst] at ht
      exact connFrom_own s t thread pool_key pool isAsync created connect h
        (h thread pool_key pool hfirst) ht
    | none =>
      simp only [hfirst] at ht
      cases allocated with
      | false => cases ht; exact h
      | true =>
        simp only [if_true] at ht
        rcases getConfig_cases s.configs pool_key with ⟨i,c,hr,ho⟩ | ⟨_,hr⟩ | ⟨hk,_⟩
        · simp only [hr] at ht
          exact connFrom_own s t thread pool_key _ isAsync created connect h ho ht
        · simp only [hr] at ht
          cases ht
          exact h
        · exact absurd (hg hfirst rfl) hk

/-- In a run that looks up known keys only, no thread ever works with the
configuration of another pool. -/
theorem pools_own (ops : List (Op κ τ α)) (t : State κ τ α)
    (hg : Along opStep (fun s o _ => Looked s o) ops (start : State κ τ α))
    (hr : run opStep ops start = .ok t) : PoolsOwn t :=
  run_invariant (fun s o t h hg ht => opStep_own s o t h hg ht) ops start t
    (fun _ _ _ hp => by simp [start] at hp) hg hr

def loginOf (user : String) : ConnConfig String := ⟨some user,none,none,none,0,none,0⟩

/-- One pool is created, with the key 0. The SSL files for the key 1 go to that
pool, and the pool of a thread for the key 1 works with its login data. -/
theorem foreign_config_used :
    ∃ t : State ℕ ℕ String,
      run opStep [.create true 0 2 8 (loginOf "guest"),.setSsl 1 ⟨none,none,none,none,none⟩,
        .getConn 0 1 true true true .done] start = .ok t ∧
      t.configs = [{ newConfig 0 2 8 (loginOf "guest") with
        ssl := some ⟨none,none,none,none,none⟩ }] ∧
      t.answer = .fromPool 0 ∧ ¬Created t.configs 1 := by
  refine ⟨_,rfl,rfl,rfl,?_⟩
  rintro ⟨c,hc,hkey⟩
  cases List.mem_singleton.mp hc
  cases hkey

end Duda.MariadbPoolConfig
