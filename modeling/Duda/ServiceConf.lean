import Duda.Runs
import Duda.ServiceLookup

/-!
# The configured web services

The sections of the virtual hosts become services. A service is one node that
three places refer to: the list of its virtual host, the list of all loaded
services and, for a root service, the root pointer of the host. Nodes are
numbered in the order of their allocation.
-/

set_option autoImplicit false

namespace Duda.ServiceConf
open Duda.CString Duda.Router Duda.Runs Duda.ServiceLookup

/-- `mk_ptr_t`. -/
structure Ptr where
  data : List UInt8
  len : ℕ
  deriving DecidableEq, Repr

/-- A configuration section with the keys that are read. A Boolean key holds
the number the configuration reader returns for it. -/
structure ConfSection where
  name : List UInt8
  app_name : Option Text
  app_enabled : ℤ
  app_is_root : ℤ
  app_docroot : Option Text
  app_confdir : Option Text
  app_datadir : Option Text
  app_logdir : Option Text

/-- `struct web_service`, with the node it is allocated as. -/
structure Service where
  node : ℕ
  routing : WebService
  enabled : ℤ
  docroot : Option Ptr
  confdir : Option Ptr
  datadir : Option Ptr
  logdir : Option Ptr
  deriving DecidableEq, Repr

/-- `struct vhost_services`. -/
structure VhostServices where
  services : List Service
  root_service : Option ℕ
  deriving DecidableEq, Repr

/-- The messages with which the program exits. -/
inductive Exit where
  | documentRoot
  | confDir
  | dataDir
  | logDir
  | webService
  deriving DecidableEq, Repr

def mkFalse : ℤ := 0

def mkTrue : ℤ := 1

def isBool (x : ℤ) : Prop := x = mkTrue ∨ x = mkFalse

instance (x : ℤ) : Decidable (isBool x) := inferInstanceAs (Decidable (_ ∨ _))

def lower (c : UInt8) : UInt8 := if 65 ≤ c ∧ c ≤ 90 then c+32 else c

/-- `strcasecmp(a, b) == 0`. -/
def strcasecmpZero (a b : List UInt8) : Bool := decide (a.map lower = b.map lower)

/-- `WEB_SERVICE`. -/
def webServiceName : List UInt8 := [87,69,66,95,83,69,82,86,73,67,69]

/-- A directory with its slash; `extra` is what the length grows by when the
slash is added. -/
def withSlash (extra : ℕ) (dir : Text) : Ptr :=
  if dir.bytes.getLast? = some slash then ⟨dir.bytes,dir.bytes.length⟩
  else ⟨dir.bytes++[slash],dir.bytes.length+extra⟩

section Directories

variable (isDirectory : List UInt8 → Bool)

def setDir (extra : ℕ) (put : Service → Ptr → Service) (ws : Service) (dir : Text) :
    Option Service :=
  if isDirectory dir.bytes then some (put ws (withSlash extra dir)) else none

def setDocroot : Service → Text → Option Service :=
  setDir isDirectory 1 (fun ws p => { ws with docroot := some p })

/-- `duda_conf_set_confdir`. -/
def confSetConfdir : Service → Text → Option Service :=
  setDir isDirectory 2 (fun ws p => { ws with confdir := some p })

/-- `duda_conf_set_datadir`. -/
def confSetDatadir : Service → Text → Option Service :=
  setDir isDirectory 2 (fun ws p => { ws with datadir := some p })

/-- `duda_conf_set_logdir`. -/
def confSetLogdir : Service → Text → Option Service :=
  setDir isDirectory 2 (fun ws p => { ws with logdir := some p })

/-- One directory key of a section: an invalid directory ends the program. -/
def initDir (set : Service → Text → Option Service) (exit : Exit) (key : Option Text)
    (ws : Service) : Except Exit Service :=
  match key with
  | none => .ok ws
  | some dir =>
    match set ws dir with
    | none => .error exit
    | some ws => .ok ws

/-- The node of a section before its directories are read. -/
def newService (node : ℕ) (name : Text) (sec : ConfSection) : Service where
  node := node
  routing := ⟨name,name,decide (sec.app_is_root = mkTrue)⟩
  enabled := sec.app_enabled
  docroot := none
  confdir := none
  datadir := none
  logdir := none

def initService (node : ℕ) (name : Text) (sec : ConfSection) : Except Exit Service :=
  (initDir (setDocroot isDirectory) .documentRoot sec.app_docroot (newService node name sec)).bind
    fun ws => (initDir (confSetConfdir isDirectory) .confDir sec.app_confdir ws).bind
    fun ws => (initDir (confSetDatadir isDirectory) .dataDir sec.app_datadir ws).bind
    fun ws => initDir (confSetLogdir isDirectory) .logDir sec.app_logdir ws

/-- What the loop over the sections of a host carries along: the host, the
list of all services and the next node. -/
structure Building where
  vs : VhostServices
  services_loaded : List ℕ
  next : ℕ

def initSection (b : Building) (sec : ConfSection) : Except Exit Building :=
  if strcasecmpZero sec.name webServiceName then
    match sec.app_name with
    | none => .ok b
    | some name =>
      if isBool sec.app_enabled then
        (initService isDirectory b.next name sec).map fun ws =>
          { vs :=
              { services := b.vs.services++[ws]
                root_service :=
                  if sec.app_is_root = mkTrue then some ws.node else b.vs.root_service }
            services_loaded := b.services_loaded++[ws.node]
            next := b.next+1 }
      else .ok b
  else .ok b

def initSections : List ConfSection → Building → Except Exit Building
  | [], b => .ok b
  | sec::rest, b => (initSection isDirectory b sec).bind (initSections rest)

/-- `services_list` and `services_loaded`. -/
structure Services where
  services_list : List VhostServices
  services_loaded : List ℕ
  next : ℕ

/-- One host. A host without configuration is not linked. -/
def initHost (s : Services) : Option (List ConfSection) → Except Exit Services
  | none => .ok s
  | some sections =>
    (initSections isDirectory sections ⟨⟨[],none⟩,s.services_loaded,s.next⟩).map fun b =>
      ⟨s.services_list++[b.vs],b.services_loaded,b.next⟩

def initHosts : List (Option (List ConfSection)) → Services → Except Exit Services
  | [], s => .ok s
  | host::hosts, s => (initHost isDirectory s host).bind (initHosts hosts)

/-- `duda_conf_vhost_init`. -/
def confVhostInit (hosts : List (Option (List ConfSection))) : Except Exit Services :=
  initHosts isDirectory hosts ⟨[],[],0⟩

end Directories

/-- `duda_conf_service_name`. -/
def confServiceName (ws : WebService) (name : Text) : WebService := { ws with name := name }

def allNodes (vhosts : List VhostServices) : List ℕ :=
  vhosts.flatMap (fun vs => vs.services.map Service.node)

theorem allNodes_append (as bs : List VhostServices) :
    allNodes (as++bs) = allNodes as++allNodes bs := List.flatMap_append

theorem mem_allNodes (vhosts : List VhostServices) (n : ℕ) :
    n ∈ allNodes vhosts ↔ ∃ vs ∈ vhosts, n ∈ vs.services.map Service.node :=
  List.mem_flatMap

section Built

variable (isDirectory : List UInt8 → Bool)

theorem setDir_keeps (extra : ℕ) (put : Service → Ptr → Service)
    (hput : ∀ ws p, (put ws p).node = ws.node ∧ (put ws p).routing = ws.routing)
    (ws ws' : Service) (dir : Text) (h : setDir isDirectory extra put ws dir = some ws') :
    ws'.node = ws.node ∧ ws'.routing = ws.routing := by
  simp only [setDir] at h
  split_ifs at h
  rw [← Option.some.inj h]
  exact hput ws _

theorem initDir_keeps (extra : ℕ) (put : Service → Ptr → Service) (exit : Exit) (key : Option Text)
    (ws ws' : Service) (h : initDir (setDir isDirectory extra put) exit key ws = .ok ws')
    (hput : ∀ ws p, (put ws p).node = ws.node ∧ (put ws p).routing = ws.routing) :
    ws'.node = ws.node ∧ ws'.routing = ws.routing := by
  cases key with
  | none =>
    cases h
    exact ⟨rfl,rfl⟩
  | some dir =>
    simp only [initDir] at h
    cases hs : setDir isDirectory extra put ws dir with
    | none => simp [hs] at h
    | some v =>
      rw [hs] at h
      cases h
      exact setDir_keeps isDirectory extra put hput ws ws' dir hs

/-- A configured service has its own node, and the name of its section both
as its name and as its fixed name. -/
theorem initService_spec (node : ℕ) (name : Text) (sec : ConfSection) (ws : Service)
    (h : initService isDirectory node name sec = .ok ws) :
    ws.node = node ∧ ws.routing = ⟨name,name,decide (sec.app_is_root = mkTrue)⟩ := by
  obtain ⟨a,ha,h⟩ := bind_ok h
  obtain ⟨b,hb,h⟩ := bind_ok h
  obtain ⟨c,hc,h⟩ := bind_ok h
  have h1 := initDir_keeps isDirectory _ _ _ _ _ _ ha (fun _ _ => ⟨rfl,rfl⟩)
  have h2 := initDir_keeps isDirectory _ _ _ _ _ _ hb (fun _ _ => ⟨rfl,rfl⟩)
  have h3 := initDir_keeps isDirectory _ _ _ _ _ _ hc (fun _ _ => ⟨rfl,rfl⟩)
  have h4 := initDir_keeps isDirectory _ _ _ _ _ _ h (fun _ _ => ⟨rfl,rfl⟩)
  rw [h4.1, h3.1, h2.1, h1.1, h4.2, h3.2, h2.2, h1.2]
  exact ⟨rfl,rfl⟩

end Built

end Duda.ServiceConf
