import Duda.ServiceConf

/-!
# Loading the configured services

A service whose library does not load is unlinked from its virtual host and
freed. The other two places that refer to services are left as they are, so
they agree with the hosts exactly when every library loads.
-/

set_option autoImplicit false

namespace Duda.ServiceLoading
open Duda.CString Duda.Runs Duda.ServiceConf Duda.ServiceLookup

/-- The calls on the configuration object that `duda_main` may make. -/
inductive ConfCall where
  | serviceName (name : Text)
  | serviceRoot
  deriving DecidableEq, Repr

/-- What the path of a service holds: nothing that loads, a library without
the bootstrap symbol, or a service with the calls of its `duda_main`. -/
inductive Library where
  | missing
  | invalid
  | service (calls : List ConfCall)
  deriving DecidableEq, Repr

def confCall (ws : Service) : ConfCall → Service
  | .serviceName name => { ws with routing := confServiceName ws.routing name }
  | .serviceRoot => { ws with routing := { ws.routing with isRoot := true } }

/-- `duda_service_register`, for the service `ws` of the host. -/
def serviceRegister (vs : VhostServices) (ws : Service) (calls : List ConfCall) :
    VhostServices where
  services := vs.services.map fun w => if w.node = ws.node then calls.foldl confCall w else w
  root_service := if .serviceRoot ∈ calls then some ws.node else vs.root_service

/-- The body of the loop of `duda_load_services`. -/
def loadService (lib : ℕ → Library) (vs : VhostServices) (ws : Service) :
    Except Exit VhostServices :=
  match lib ws.node with
  | .missing => .ok { vs with services := vs.services.filter (fun w => w.node ≠ ws.node) }
  | .invalid => .error .webService
  | .service calls => .ok (serviceRegister vs ws calls)

/-- The loop over the services that the host had when it started. -/
def loadLoop (lib : ℕ → Library) : List Service → VhostServices → Except Exit VhostServices
  | [], vs => .ok vs
  | ws::rest, vs => (loadService lib vs ws).bind (loadLoop lib rest)

def loadHosts (lib : ℕ → Library) : List VhostServices → Except Exit (List VhostServices)
  | [] => .ok []
  | vs::rest =>
    (loadLoop lib vs.services vs).bind fun vs => (loadHosts lib rest).map fun rest => vs::rest

/-- `duda_load_services`. -/
def loadServices (lib : ℕ → Library) (s : Services) : Except Exit Services :=
  (loadHosts lib s.services_list).map fun hosts => { s with services_list := hosts }

def nodes (vs : VhostServices) : List ℕ := vs.services.map Service.node

/-- The root pointer of a host refers to a service of the host. -/
def RootLinked (vs : VhostServices) : Prop := ∀ n, vs.root_service = some n → n ∈ nodes vs

/-- The three places agree on the services there are. -/
structure Consistent (s : Services) : Prop where
  loaded : ∀ n ∈ s.services_loaded, ∃ vs ∈ s.services_list, n ∈ nodes vs
  root : ∀ vs ∈ s.services_list, RootLinked vs
  kept : ∀ vs ∈ s.services_list, ∀ n ∈ nodes vs, n ∈ s.services_loaded

section Configured

variable (isDirectory : List UInt8 → Bool)

/-- The host under construction: its services are the end of the list of all
services. -/
structure Built (before : List ℕ) (b : Building) : Prop where
  loaded : b.services_loaded = before++nodes b.vs
  root : RootLinked b.vs

theorem Built.add {before : List ℕ} {b : Building} (hb : Built before b) (ws : Service)
    (root : Option ℕ) (hr : root = some ws.node ∨ root = b.vs.root_service) :
    Built before ⟨⟨b.vs.services++[ws],root⟩,b.services_loaded++[ws.node],b.next+1⟩ := by
  have hnodes : nodes ⟨b.vs.services++[ws],root⟩ = nodes b.vs++[ws.node] := by simp [nodes]
  constructor
  · show b.services_loaded++[ws.node] = before++nodes ⟨b.vs.services++[ws],root⟩
    rw [hb.loaded, hnodes, List.append_assoc]
  · intro n h
    rw [hnodes]
    rcases hr with hr | hr
    · rw [hr] at h
      exact List.mem_append_right _ (by rw [Option.some.inj h]; exact List.mem_singleton.mpr rfl)
    · rw [hr] at h
      exact List.mem_append_left _ (hb.root n h)

theorem initSection_built (before : List ℕ) (b b' : Building) (sec : ConfSection)
    (hb : Built before b) (h : initSection isDirectory b sec = .ok b') : Built before b' := by
  simp only [initSection] at h
  by_cases hsec : strcasecmpZero sec.name webServiceName = true
  · rw [if_pos hsec] at h
    cases hname : sec.app_name with
    | none =>
      rw [hname] at h
      cases h
      exact hb
    | some name =>
      rw [hname] at h
      by_cases henabled : isBool sec.app_enabled
      · simp only [if_pos henabled] at h
        obtain ⟨ws,-,rfl⟩ := map_ok h
        apply hb.add ws
        by_cases hroot : sec.app_is_root = mkTrue
        · exact .inl (if_pos hroot)
        · exact .inr (if_neg hroot)
      · simp only [if_neg henabled] at h
        cases h
        exact hb
  · rw [if_neg hsec] at h
    cases h
    exact hb

theorem initSections_built (before : List ℕ) (sections : List ConfSection) (b b' : Building)
    (hb : Built before b) (h : initSections isDirectory sections b = .ok b') :
    Built before b' := by
  induction sections generalizing b with
  | nil =>
    cases h
    exact hb
  | cons sec rest ih =>
    obtain ⟨c,hc,h⟩ := bind_ok h
    exact ih c (initSection_built isDirectory before b c sec hb hc) h

/-- All hosts linked so far. -/
structure Linked (s : Services) : Prop where
  loaded : s.services_loaded = allNodes s.services_list
  root : ∀ vs ∈ s.services_list, RootLinked vs

theorem initHost_linked (s t : Services) (host : Option (List ConfSection)) (hs : Linked s)
    (h : initHost isDirectory s host = .ok t) : Linked t := by
  cases host with
  | none =>
    cases h
    exact hs
  | some sections =>
    obtain ⟨b,hb,rfl⟩ := map_ok h
    have hstart : Built s.services_loaded ⟨⟨[],none⟩,s.services_loaded,s.next⟩ :=
      ⟨by simp [nodes],fun n h => by cases h⟩
    have hbuilt := initSections_built isDirectory _ sections _ b hstart hb
    constructor
    · show b.services_loaded = allNodes (s.services_list++[b.vs])
      rw [allNodes_append, hbuilt.loaded, hs.loaded]
      simp [allNodes, nodes]
    · intro vs hvs
      rcases List.mem_append.mp hvs with hvs | hvs
      · exact hs.root vs hvs
      · rw [List.mem_singleton.mp hvs]
        exact hbuilt.root

theorem initHosts_linked (hosts : List (Option (List ConfSection))) (s t : Services)
    (hs : Linked s) (h : initHosts isDirectory hosts s = .ok t) : Linked t := by
  induction hosts generalizing s with
  | nil =>
    cases h
    exact hs
  | cons host hosts ih =>
    obtain ⟨u,hu,h⟩ := bind_ok h
    exact ih u (initHost_linked isDirectory s u host hs hu) h

theorem confVhostInit_linked (hosts : List (Option (List ConfSection))) (s : Services)
    (h : confVhostInit isDirectory hosts = .ok s) : Linked s := by
  apply initHosts_linked isDirectory hosts ⟨[],[],0⟩ s _ h
  exact ⟨rfl,fun vs h => by cases h⟩

end Configured

section Loading

variable (lib : ℕ → Library)

theorem confCalls_node (calls : List ConfCall) (ws : Service) :
    (calls.foldl confCall ws).node = ws.node := by
  induction calls generalizing ws with
  | nil => rfl
  | cons call calls ih =>
    rw [List.foldl_cons, ih]
    cases call <;> rfl

theorem serviceRegister_nodes (vs : VhostServices) (ws : Service) (calls : List ConfCall) :
    nodes (serviceRegister vs ws calls) = nodes vs := by
  simp only [nodes, serviceRegister, List.map_map]
  apply List.map_congr_left
  intro w _
  simp only [Function.comp_apply]
  split_ifs
  · exact confCalls_node calls w
  · rfl

theorem loadService_nodes (vs vs' : VhostServices) (ws : Service)
    (h : loadService lib vs ws = .ok vs') (n : ℕ) :
    n ∈ nodes vs' ↔ n ∈ nodes vs ∧ ¬(n = ws.node ∧ lib n = .missing) := by
  simp only [loadService] at h
  cases hl : lib ws.node with
  | missing =>
    rw [hl] at h
    cases h
    have hmem : n ∈ nodes { vs with services := vs.services.filter (fun w => w.node ≠ ws.node) } ↔
        n ∈ nodes vs ∧ n ≠ ws.node := by
      simp only [nodes, List.mem_map, List.mem_filter, decide_eq_true_eq]
      constructor
      · rintro ⟨w,⟨hw,hne⟩,rfl⟩
        exact ⟨⟨w,hw,rfl⟩,hne⟩
      · rintro ⟨⟨w,hw,rfl⟩,hne⟩
        exact ⟨w,⟨hw,hne⟩,rfl⟩
    rw [hmem]
    apply and_congr_right
    intro _
    constructor
    · exact fun hne he => hne he.1
    · exact fun hne he => hne ⟨he,he ▸ hl⟩
  | invalid => simp [hl] at h
  | service calls =>
    rw [hl] at h
    cases h
    rw [serviceRegister_nodes]
    constructor
    · intro hn
      refine ⟨hn,?_⟩
      rintro ⟨rfl,hm⟩
      rw [hl] at hm
      cases hm
    · exact fun hn => hn.1

theorem loadLoop_nodes (rest : List Service) (vs vs' : VhostServices)
    (h : loadLoop lib rest vs = .ok vs') (n : ℕ) :
    n ∈ nodes vs' ↔ n ∈ nodes vs ∧ ¬(n ∈ rest.map Service.node ∧ lib n = .missing) := by
  induction rest generalizing vs with
  | nil =>
    cases h
    simp
  | cons ws rest ih =>
    obtain ⟨u,hu,h⟩ := bind_ok h
    rw [ih u h, loadService_nodes lib vs u ws hu n, List.map_cons, List.mem_cons]
    tauto

theorem loadVhost_nodes (vs vs' : VhostServices) (h : loadLoop lib vs.services vs = .ok vs')
    (n : ℕ) : n ∈ nodes vs' ↔ n ∈ nodes vs ∧ lib n ≠ .missing := by
  rw [loadLoop_nodes lib vs.services vs vs' h n]
  apply and_congr_right
  intro hn
  constructor
  · exact fun hno hm => hno ⟨hn,hm⟩
  · exact fun hm hno => hm hno.2

/-- The root pointer is kept, or set to a service of the host that loads. -/
theorem loadLoop_root (rest : List Service) (vs vs' : VhostServices)
    (h : loadLoop lib rest vs = .ok vs') :
    vs'.root_service = vs.root_service ∨
      ∃ n ∈ rest.map Service.node, lib n ≠ .missing ∧ vs'.root_service = some n := by
  induction rest generalizing vs with
  | nil =>
    cases h
    exact .inl rfl
  | cons ws rest ih =>
    obtain ⟨u,hu,h⟩ := bind_ok h
    rcases ih u h with hroot | ⟨n,hn,hm,hroot⟩
    · simp only [loadService] at hu
      cases hl : lib ws.node with
      | missing =>
        rw [hl] at hu
        cases hu
        exact .inl hroot
      | invalid => simp [hl] at hu
      | service calls =>
        rw [hl] at hu
        cases hu
        by_cases hcall : ConfCall.serviceRoot ∈ calls
        · right
          refine ⟨ws.node,by simp,by simp [hl],?_⟩
          rw [hroot]
          exact if_pos hcall
        · left
          rw [hroot]
          exact if_neg hcall
    · exact .inr ⟨n,List.mem_cons_of_mem _ hn,hm,hroot⟩

theorem loadHosts_nodes (hosts hosts' : List VhostServices) (h : loadHosts lib hosts = .ok hosts')
    (n : ℕ) : n ∈ allNodes hosts' ↔ n ∈ allNodes hosts ∧ lib n ≠ .missing := by
  induction hosts generalizing hosts' with
  | nil =>
    cases h
    simp [allNodes]
  | cons vs rest ih =>
    obtain ⟨vs',hvs,h⟩ := bind_ok h
    obtain ⟨rest',hrest,rfl⟩ := map_ok h
    have hhead := loadVhost_nodes lib vs vs' hvs n
    have htail := ih rest' hrest
    simp only [allNodes, List.flatMap_cons, List.mem_append]
    change n ∈ nodes vs' ∨ n ∈ allNodes rest' ↔
      (n ∈ nodes vs ∨ n ∈ allNodes rest) ∧ lib n ≠ .missing
    rw [hhead, htail]
    tauto

theorem loadHosts_root (hosts hosts' : List VhostServices) (h : loadHosts lib hosts = .ok hosts')
    (hr : ∀ vs ∈ hosts, RootLinked vs) (hl : ∀ n ∈ allNodes hosts, lib n ≠ .missing) :
    ∀ vs ∈ hosts', RootLinked vs := by
  induction hosts generalizing hosts' with
  | nil =>
    cases h
    intro vs hvs
    cases hvs
  | cons vs rest ih =>
    obtain ⟨vs',hvs,h⟩ := bind_ok h
    obtain ⟨rest',hrest,rfl⟩ := map_ok h
    have hlhead : ∀ n ∈ nodes vs, lib n ≠ .missing := fun n hn =>
      hl n ((mem_allNodes _ n).mpr ⟨vs,List.mem_cons_self ..,hn⟩)
    have hltail : ∀ n ∈ allNodes rest, lib n ≠ .missing := by
      intro n hn
      obtain ⟨w,hw,hn⟩ := (mem_allNodes _ n).mp hn
      exact hl n ((mem_allNodes _ n).mpr ⟨w,List.mem_cons_of_mem _ hw,hn⟩)
    intro w hw
    rcases List.mem_cons.mp hw with rfl | hw
    · intro n hn
      rw [loadVhost_nodes lib vs w hvs]
      rcases loadLoop_root lib vs.services vs w hvs with hroot | ⟨m,hm,hload,hroot⟩
      · have hmem := hr vs (List.mem_cons_self ..) n (hroot ▸ hn)
        exact ⟨hmem,hlhead n hmem⟩
      · have he : n = m := Option.some.inj (hn ▸ hroot)
        rw [he]
        exact ⟨hm,hload⟩
    · exact ih rest' hrest (fun v hv => hr v (List.mem_cons_of_mem _ hv)) hltail w hw

end Loading

/-- After loading, the lists and root pointers refer to services that are
there exactly when no configured service failed to load. -/
theorem loading_consistent_iff (isDirectory : List UInt8 → Bool)
    (hosts : List (Option (List ConfSection))) (lib : ℕ → Library) (s t : Services)
    (hs : confVhostInit isDirectory hosts = .ok s) (ht : loadServices lib s = .ok t) :
    Consistent t ↔ ∀ vs ∈ s.services_list, ∀ n ∈ nodes vs, lib n ≠ .missing := by
  have hlinked := confVhostInit_linked isDirectory hosts s hs
  obtain ⟨hosts',hload,rfl⟩ := map_ok ht
  have hnodes := loadHosts_nodes lib s.services_list hosts' hload
  constructor
  · intro hc vs hvs n hn
    have hall : n ∈ allNodes s.services_list := (mem_allNodes _ n).mpr ⟨vs,hvs,hn⟩
    have hstill := hc.loaded n (hlinked.loaded ▸ hall)
    exact ((hnodes n).mp ((mem_allNodes _ n).mpr hstill)).2
  · intro hl
    have hl' : ∀ n ∈ allNodes s.services_list, lib n ≠ .missing := by
      intro n hn
      obtain ⟨vs,hvs,hn⟩ := (mem_allNodes _ n).mp hn
      exact hl vs hvs n hn
    refine ⟨?_,?_,?_⟩
    · intro n hn
      have hall : n ∈ allNodes s.services_list := hlinked.loaded ▸ hn
      exact (mem_allNodes _ n).mp ((hnodes n).mpr ⟨hall,hl' n hall⟩)
    · exact loadHosts_root lib s.services_list hosts' hload hlinked.root hl'
    · intro vs hvs n hn
      have hall := ((hnodes n).mp ((mem_allNodes _ n).mpr ⟨vs,hvs,hn⟩)).1
      exact hlinked.loaded ▸ hall

/-- The section of an enabled root service `a` without directories. -/
def rootSection : ConfSection where
  name := webServiceName
  app_name := some ⟨[97],by decide⟩
  app_enabled := mkTrue
  app_is_root := mkTrue
  app_docroot := none
  app_confdir := none
  app_datadir := none
  app_logdir := none

theorem root_section_consistent :
    ∃ s t, confVhostInit (fun _ => true) [some [rootSection]] = .ok s ∧
      loadServices (fun _ => .service [.serviceRoot]) s = .ok t ∧ Consistent t := by
  refine ⟨_,_,rfl,rfl,?_⟩
  apply (loading_consistent_iff (fun _ => true) [some [rootSection]]
    (fun _ => .service [.serviceRoot]) _ _ rfl rfl).mpr
  intro vs _ n _ h
  cases h

/-- The library of the root service does not load: its node is freed, and is
still in the list of loaded services and the root of its host. -/
theorem failed_root_dangles :
    ∃ s t, confVhostInit (fun _ => true) [some [rootSection]] = .ok s ∧
      loadServices (fun _ => .missing) s = .ok t ∧
      t.services_list = [⟨[],some 0⟩] ∧ t.services_loaded = [0] ∧ ¬Consistent t := by
  refine ⟨_,_,rfl,rfl,rfl,rfl,?_⟩
  intro h
  obtain ⟨vs,hvs,hn⟩ := h.loaded 0 (List.mem_singleton.mpr rfl)
  rw [List.mem_singleton.mp hvs] at hn
  cases hn

end Duda.ServiceLoading
