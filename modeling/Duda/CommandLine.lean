import Mathlib.Tactic

/-!
# The command line of the service launcher

The options are what `getopt_long` delivers, one after the other. The launcher
keeps the directories and the service file seen so far in variables. A second
service file is meant to load the service that is pending.
-/

set_option autoImplicit false

namespace Duda.CommandLine

variable {α : Type}

/-- The options for the directories of a service. -/
inductive DirOpt (α : Type) where
  | root (optarg : α)
  | logdir (optarg : α)
  | datadir (optarg : α)
  | htmldir (optarg : α)
  deriving DecidableEq, Repr

inductive Opt (α : Type) where
  | dir (opt : DirOpt α)
  | webservice (optarg : α)
  | port (optarg : α)
  | help
  | version
  | unknown
  deriving DecidableEq, Repr

/-- The variables `opt_root`, `opt_logdir`, `opt_datadir` and `opt_htmldir`. -/
structure Dirs (α : Type) where
  opt_root : Option α
  opt_logdir : Option α
  opt_datadir : Option α
  opt_htmldir : Option α
  deriving DecidableEq, Repr

def noDirs : Dirs α := ⟨none,none,none,none⟩

def Dirs.set (d : Dirs α) : DirOpt α → Dirs α
  | .root optarg => { d with opt_root := some optarg }
  | .logdir optarg => { d with opt_logdir := some optarg }
  | .datadir optarg => { d with opt_datadir := some optarg }
  | .htmldir optarg => { d with opt_htmldir := some optarg }

/-- A call of `duda_service_create`. -/
structure Create (α : Type) where
  dirs : Dirs α
  service : α
  deriving DecidableEq, Repr

/-- The calls that `main` makes from the loop over the options on, where
`created` tells which of them return a service. A call that does not, and the
help and version options, end the program. -/
def mainCalls (created : Create α → Bool) : List (Opt α) → Dirs α → Option α → List (Create α)
  | [], _, none => []
  | [], dirs, some opt_webservice => [⟨dirs,opt_webservice⟩]
  | .dir opt::opts, dirs, opt_webservice => mainCalls created opts (dirs.set opt) opt_webservice
  | .webservice optarg::opts, dirs, none => mainCalls created opts dirs (some optarg)
  | .webservice optarg::opts, dirs, some _ =>
    ⟨dirs,optarg⟩::if created ⟨dirs,optarg⟩ then mainCalls created opts noDirs none else []
  | .port _::opts, dirs, opt_webservice => mainCalls created opts dirs opt_webservice
  | .help::_, _, _ => []
  | .version::_, _, _ => []
  | .unknown::_, _, _ => []

/-- A service file with the options behind it. -/
structure Group (α : Type) where
  file : α
  opts : List (DirOpt α)

/-- The form of the usage text. -/
def usage : List (Group α) → List (Opt α)
  | [] => []
  | g::gs => .webservice g.file::(g.opts.map .dir++usage gs)

/-- The call that a group asks for: of an option given twice the last counts. -/
def wanted (g : Group α) : Create α := ⟨g.opts.foldl Dirs.set noDirs,g.file⟩

section Calls

variable (created : Create α → Bool)

theorem mainCalls_dirs (opts : List (DirOpt α)) (rest : List (Opt α)) (dirs : Dirs α)
    (pending : Option α) :
    mainCalls created (opts.map .dir++rest) dirs pending =
      mainCalls created rest (opts.foldl Dirs.set dirs) pending := by
  induction opts generalizing dirs with
  | nil => rfl
  | cons opt opts ih => exact ih (dirs.set opt)

/-- Two files go into one call: with a pending service the next file is used
up, without one it becomes the pending service. -/
theorem mainCalls_length (gs : List (Group α)) (dirs : Dirs α) :
    2*(mainCalls created (usage gs) dirs none).length ≤ gs.length+1 ∧
      ∀ file, 2*(mainCalls created (usage gs) dirs (some file)).length ≤ gs.length+2 := by
  induction gs generalizing dirs with
  | nil => simp [usage, mainCalls]
  | cons g gs ih =>
    constructor
    · rw [usage, mainCalls, mainCalls_dirs, List.length_cons]
      exact (ih _).2 g.file
    · intro file
      rw [usage, mainCalls, List.length_cons, List.length_cons]
      by_cases hc : created ⟨dirs,g.file⟩ = true
      · rw [if_pos hc, mainCalls_dirs]
        have hrest := (ih (g.opts.foldl Dirs.set noDirs)).1
        omega
      · rw [if_neg hc, List.length_nil]
        omega

/-- The launcher creates the services of a command line, each with its own
options, exactly when there is only one. -/
theorem services_created_iff (g : Group α) (gs : List (Group α)) :
    mainCalls created (usage (g::gs)) noDirs none = (g::gs).map wanted ↔ gs = [] := by
  constructor
  · intro h
    have hlen := congrArg List.length h
    have hbound := (mainCalls_length created (g::gs) noDirs).1
    rw [hlen, List.length_map, List.length_cons] at hbound
    apply List.eq_nil_of_length_eq_zero
    omega
  · intro h
    rw [h, usage, mainCalls, mainCalls_dirs]
    rfl

end Calls

/-- Two services without options: one call, with the second file; the first is
never loaded. -/
theorem first_service_lost :
    mainCalls (fun _ => true) (usage [⟨"one.duda",[]⟩,⟨"two.duda",[]⟩]) noDirs none =
      [⟨noDirs,"two.duda"⟩] := rfl

end Duda.CommandLine
