import Duda.CommandLine
import Duda.Router

/-!
# Creating a service from its directories

`duda_service_create` checks directories first and computes the paths that the
service keeps afterwards, with the root in front of the relative ones. The
paths that are checked and the paths that are kept differ. The files that can
be loaded and the file system are parameters.
-/

set_option autoImplicit false

namespace Duda.ServiceCreate
open Duda.CString Duda.Router
open Duda.CommandLine (Create Dirs)

/-- What `stat` says of a path, whether it is a directory, and whether `access`
grants reading and searching it. -/
structure FileSystem where
  stat : Text → Option Bool
  access : Text → Bool

/-- `validate_dir`. The path may be `NULL`, for which `stat` fails. -/
def validateDir (fs : FileSystem) (path : Option Text) : ℤ :=
  match path.bind fs.stat with
  | none => -1
  | some isDir => if isDir = false then -1 else if (path.any fs.access) = false then -1 else 0

/-- `root`, a slash and `path`, as `snprintf` composes them. -/
def joined (root path : Text) : Text where
  bytes := root.bytes++slash::path.bytes
  nulFree := by
    simp only [List.mem_append, List.mem_cons, not_or]
    exact ⟨root.nulFree,by decide,path.nulFree⟩

/-- `service_path`: an absolute path never uses the root. -/
def servicePath (root : Option Text) (path : Text) : Text :=
  match root with
  | none => path
  | some root => if cstr path.bytes 0 = slash then path else joined root path

/-- `struct duda_service`, with the paths. -/
structure DudaService where
  path_root : Option Text
  path_log : Option Text
  path_data : Option Text
  path_html : Option Text
  path_service : Text
  deriving DecidableEq, Repr

/-- A service file for the loader: it does not load, it lacks the symbol
`_duda_bootstrap`, or it has it. -/
inductive Library where
  | missing
  | invalid
  | bootstrap
  deriving DecidableEq, Repr

inductive Fault where
  | nullPointer
  deriving DecidableEq, Repr

/-- One of the four blocks in front: with the argument `given` the directory
`path` is checked. -/
def refuses (fs : FileSystem) (given path : Option Text) : Bool :=
  given.isSome ∧ validateDir fs path ≠ 0

def newService (c : Create Text) : DudaService where
  path_root := c.dirs.opt_root
  path_log := c.dirs.opt_logdir.map (servicePath c.dirs.opt_root)
  path_data := c.dirs.opt_datadir.map (servicePath c.dirs.opt_root)
  path_html := c.dirs.opt_htmldir.map (servicePath c.dirs.opt_root)
  path_service := servicePath c.dirs.opt_root c.service

/-- `duda_service_create`; `allocated` is the success of `mk_mem_alloc_z`. The
block for the data directory checks the log directory once more. A library
without its symbol is called all the same. -/
def serviceCreate (fs : FileSystem) (lib : Text → Library) (allocated : Bool)
    (d : Option (List DudaService)) (c : Create Text) :
    Except Fault (Option DudaService × Option (List DudaService)) :=
  match d with
  | none => .ok (none,none)
  | some services =>
    if refuses fs c.dirs.opt_root c.dirs.opt_root then .ok (none,d)
    else if refuses fs c.dirs.opt_logdir c.dirs.opt_logdir then .ok (none,d)
    else if refuses fs c.dirs.opt_datadir c.dirs.opt_logdir then .ok (none,d)
    else if refuses fs c.dirs.opt_htmldir c.dirs.opt_htmldir then .ok (none,d)
    else
      match lib c.service with
      | .missing => .ok (none,d)
      | .invalid => if allocated then .error .nullPointer else .ok (none,d)
      | .bootstrap =>
        if allocated then .ok (some (newService c),some (services++[newService c]))
        else .ok (none,d)

def Valid (fs : FileSystem) (path : Option Text) : Prop := validateDir fs path = 0

instance (fs : FileSystem) (path : Option Text) : Decidable (Valid fs path) :=
  inferInstanceAs (Decidable (_ = _))

/-- The directories that the blocks in front check. -/
def checkedPaths (dirs : Dirs Text) : List (Option Text) :=
  [dirs.opt_root,dirs.opt_logdir,dirs.opt_htmldir].filter Option.isSome++
    if dirs.opt_datadir.isSome then [dirs.opt_logdir] else []

/-- The directories that the service keeps. -/
def storedPaths (ds : DudaService) : List (Option Text) :=
  [ds.path_root,ds.path_log,ds.path_data,ds.path_html].filter Option.isSome

/-- A service is returned, and registered, exactly when the directories that it
keeps are valid; otherwise the services stay as they are. -/
def AsDocumented (fs : FileSystem) (services : List DudaService) (c : Create Text)
    (r : Except Fault (Option DudaService × Option (List DudaService))) : Prop :=
  ((∀ path ∈ storedPaths (newService c), Valid fs path) →
    r = .ok (some (newService c),some (services++[newService c]))) ∧
  (¬(∀ path ∈ storedPaths (newService c), Valid fs path) → r = .ok (none,some services))

theorem refuses_iff (fs : FileSystem) (given path : Option Text) :
    refuses fs given path = true ↔ given.isSome = true ∧ ¬Valid fs path := by
  simp [refuses, Valid]

theorem checked_iff (fs : FileSystem) (dirs : Dirs Text) :
    (∀ path ∈ checkedPaths dirs, Valid fs path) ↔
      ¬refuses fs dirs.opt_root dirs.opt_root = true ∧
      ¬refuses fs dirs.opt_logdir dirs.opt_logdir = true ∧
      ¬refuses fs dirs.opt_datadir dirs.opt_logdir = true ∧
      ¬refuses fs dirs.opt_htmldir dirs.opt_htmldir = true := by
  simp only [refuses_iff, checkedPaths, List.mem_append, List.mem_filter, List.mem_cons,
    List.not_mem_nil, or_false, not_and, not_not]
  constructor
  · intro h
    refine ⟨fun hs => h _ (.inl ⟨.inl rfl,hs⟩),fun hs => h _ (.inl ⟨.inr (.inl rfl),hs⟩),?_,
      fun hs => h _ (.inl ⟨.inr (.inr rfl),hs⟩)⟩
    intro hs
    exact h _ (.inr (by simp [hs]))
  · rintro ⟨hroot,hlog,hdata,hhtml⟩ path (⟨rfl | rfl | rfl,hs⟩ | hs)
    · exact hroot hs
    · exact hlog hs
    · exact hhtml hs
    · split at hs
      · next hd =>
        cases List.mem_singleton.mp hs
        exact hdata hd
      · cases hs

section Calls

variable (lib : Text → Library) (services : List DudaService) (c : Create Text)

/-- The code creates the service exactly when the directories that it checks
are valid. -/
theorem serviceCreate_eq (fs : FileSystem) (hlib : lib c.service = .bootstrap) :
    serviceCreate fs lib true (some services) c =
      if ∀ path ∈ checkedPaths c.dirs, Valid fs path then
        .ok (some (newService c),some (services++[newService c]))
      else .ok (none,some services) := by
  simp only [checked_iff, serviceCreate, hlib, if_true]
  by_cases hroot : refuses fs c.dirs.opt_root c.dirs.opt_root = true
  · simp [hroot]
  · by_cases hlog : refuses fs c.dirs.opt_logdir c.dirs.opt_logdir = true
    · simp [hroot, hlog]
    · by_cases hdata : refuses fs c.dirs.opt_datadir c.dirs.opt_logdir = true
      · simp [hroot, hlog, hdata]
      · by_cases hhtml : refuses fs c.dirs.opt_htmldir c.dirs.opt_htmldir = true
        · simp [hroot, hlog, hdata, hhtml]
        · simp [hroot, hlog, hdata, hhtml]

/-- The outcome is the one wanted exactly when the checks of the two lists of
paths agree. -/
theorem create_documented (fs : FileSystem) (hlib : lib c.service = .bootstrap) :
    AsDocumented fs services c (serviceCreate fs lib true (some services) c) ↔
      ((∀ path ∈ checkedPaths c.dirs, Valid fs path) ↔
        ∀ path ∈ storedPaths (newService c), Valid fs path) := by
  rw [serviceCreate_eq lib services c fs hlib, AsDocumented]
  by_cases hchecked : ∀ path ∈ checkedPaths c.dirs, Valid fs path
  · rw [if_pos hchecked]
    constructor
    · intro h
      refine iff_of_true hchecked ?_
      by_contra hstored
      cases h.2 hstored
    · intro h
      exact ⟨fun _ => rfl,fun hstored => absurd (h.mp hchecked) hstored⟩
  · rw [if_neg hchecked]
    constructor
    · intro h
      refine iff_of_false hchecked ?_
      intro hstored
      cases h.1 hstored
    · intro h
      exact ⟨fun hstored => absurd (h.mpr hstored) hchecked,fun _ => rfl⟩

end Calls

/-- The file system in which exactly the paths of a list are directories that
can be read. -/
def onlyPaths (paths : List (Option Text)) : FileSystem where
  stat := fun _ => some true
  access := fun path => decide (some path ∈ paths)

theorem onlyPaths_valid (paths : List (Option Text)) (path : Option Text) :
    Valid (onlyPaths paths) path ↔ path.isSome = true ∧ path ∈ paths := by
  cases path with
  | none => simp [Valid, validateDir]
  | some path => simp [Valid, validateDir, onlyPaths]

theorem stored_some (ds : DudaService) (path : Option Text) (h : path ∈ storedPaths ds) :
    path.isSome = true :=
  (List.mem_filter.mp h).2

/-- For every file system a service is created exactly when the directories
that it keeps are valid: this holds of the arguments for which the checked
paths are the paths that are kept. In one file system it holds when the two
lists happen to be checked with the same result. -/
theorem create_documented_iff (lib : Text → Library) (services : List DudaService)
    (c : Create Text) (hlib : lib c.service = .bootstrap) :
    (∀ fs, AsDocumented fs services c (serviceCreate fs lib true (some services) c) ↔
      ((∀ path ∈ checkedPaths c.dirs, Valid fs path) ↔
        ∀ path ∈ storedPaths (newService c), Valid fs path)) ∧
    ((∀ fs, AsDocumented fs services c (serviceCreate fs lib true (some services) c)) ↔
      ∀ path, path ∈ checkedPaths c.dirs ↔ path ∈ storedPaths (newService c)) := by
  refine ⟨fun fs => create_documented lib services c fs hlib,?_⟩
  simp only [create_documented lib services c _ hlib]
  constructor
  · intro h
    -- First only the kept paths are valid, then only the checked ones.
    have hsub : ∀ path ∈ checkedPaths c.dirs, path ∈ storedPaths (newService c) := by
      intro path hpath
      have hall := (h (onlyPaths (storedPaths (newService c)))).mpr
        (fun p hp => (onlyPaths_valid _ p).mpr ⟨stored_some _ p hp,hp⟩)
      exact ((onlyPaths_valid _ path).mp (hall path hpath)).2
    intro path
    refine ⟨hsub path,?_⟩
    intro hpath
    have hall := (h (onlyPaths (checkedPaths c.dirs))).mp
      (fun p hp => (onlyPaths_valid _ p).mpr ⟨stored_some _ p (hsub p hp),hp⟩)
    exact ((onlyPaths_valid _ path).mp (hall path hpath)).2
  · intro h fs
    exact forall_congr' fun path => by rw [h path]

/-- The paths `/l`, `/d` and `s`. -/
def logPath : Text := ⟨[47,108],by decide⟩

def dataPath : Text := ⟨[47,100],by decide⟩

def servicePathS : Text := ⟨[115],by decide⟩

theorem log_only_documented :
    AsDocumented (onlyPaths [some logPath]) [] ⟨⟨none,some logPath,none,none⟩,servicePathS⟩
      (serviceCreate (onlyPaths [some logPath]) (fun _ => .bootstrap) true (some [])
        ⟨⟨none,some logPath,none,none⟩,servicePathS⟩) := by
  refine (create_documented_iff (fun _ => .bootstrap) [] _ rfl).2.mpr ?_ _
  intro path
  simp [checkedPaths, storedPaths, newService, servicePath]

/-- Only the log directory exists. The service is created with a data directory
that does not exist; without the log directory it is refused though its data
directory exists. -/
theorem data_dir_unchecked :
    serviceCreate (onlyPaths [some logPath]) (fun _ => .bootstrap) true (some [])
        ⟨⟨none,some logPath,some dataPath,none⟩,servicePathS⟩ =
      .ok (some ⟨none,some logPath,some dataPath,none,servicePathS⟩,
        some [⟨none,some logPath,some dataPath,none,servicePathS⟩]) ∧
    ¬Valid (onlyPaths [some logPath]) (some dataPath) ∧
    serviceCreate (onlyPaths [some dataPath]) (fun _ => .bootstrap) true (some [])
        ⟨⟨none,none,some dataPath,none⟩,servicePathS⟩ = .ok (none,some []) ∧
    Valid (onlyPaths [some dataPath]) (some dataPath) := by
  decide

end Duda.ServiceCreate
