import GhafGivc.Admin.Managers

/-! # The host manager

Requests to the host resolve the one entry of type `(Host, Mgr)`. Registration looks at
names only, so a second such entry can be registered under another name, and the entry can
be replaced by one of another type.
-/

namespace GhafGivc.Admin

open Core

def hostManager : UnitType := ⟨.host, .mgr⟩

namespace Registry

def byTypeMany (r : Registry) (ty : UnitType) : Guarded (List RegistryEntry) :=
  Guarded.locked (pure (r.entries.filter fun entry => entry.type = ty))

def byType (r : Registry) (ty : UnitType) : Guarded (Except Report RegistryEntry) := do
  let found ← r.byTypeMany ty
  return match found with
    | [entry] => .ok entry
    | [] => .error ["No service registered for"]
    | _ => .error ["More than one unique services registered"]

def hostEndpoint (r : Registry) (tls : Option TlsConfig) :
    Guarded (Except Report EndpointConfig) := do
  let hostMgr ← r.byType hostManager
  match hostMgr with
  | .error report => return .error report
  | .ok entry => do
      let config ← r.endpoint tls entry
      return Report.context "Resolving host agent" config

def registerAll (r : Registry) (reqs : List RegistryRequest) : Registry :=
  reqs.foldl registerService r

/-- There is one host manager, and requests to the host go to it. -/
structure OneHostManager (r : Registry) : Prop where
  unique : ∃! entry, entry ∈ r.entries ∧ entry.type = hostManager
  resolves : ∀ tls, ∃ entry ∈ r.entries, entry.type = hostManager ∧
    ∃ endpoint vm, entry.placement = .endpoint endpoint vm ∧
      r.hostEndpoint tls false = some (.ok (.of tls endpoint))

end Registry

/-- The request leaves the host manager of this name where it is: what it registers is a
host manager exactly if it is registered under that name. -/
def RegistryRequest.Keeps (name : String) (req : RegistryRequest) : Prop :=
  ∀ entry, RegistryEntry.tryFrom req = .ok entry →
    (entry.type = hostManager ↔ entry.name = name)

namespace Registry

section Step

variable {r : Registry} {name : String} {entry : RegistryEntry} {req : RegistryRequest}

def hostManagers (r : Registry) : List RegistryEntry :=
  r.entries.filter fun entry => entry.type = hostManager

def Sole (r : Registry) (name : String) : Prop :=
  ∃ entry, r.hostManagers = [entry] ∧ entry.name = name ∧ entry.IsEndpoint

theorem mem_hostManagers : entry ∈ r.hostManagers ↔
    entry ∈ r.entries ∧ entry.type = hostManager := by
  simp [hostManagers]

theorem hostManagers_insert (r : Registry) (entry : RegistryEntry) :
    (r.insert entry).hostManagers =
      r.hostManagers.filter (fun old => old.name ≠ entry.name) ++
        if entry.type = hostManager then [entry] else [] := by
  unfold hostManagers insert
  rw [List.filter_append, List.filter_comm, List.filter_singleton]
  simp

theorem Sole.oneHostManager (h : r.Sole name) : r.OneHostManager := by
  rcases h with ⟨entry, hlist, -, endpoint, vm, hplace⟩
  have hmem : entry ∈ r.entries ∧ entry.type = hostManager := by
    rw [← mem_hostManagers, hlist]
    exact List.mem_singleton_self entry
  constructor
  · refine ⟨entry, hmem, fun other hother => ?_⟩
    have hin := mem_hostManagers.mpr hother
    rw [hlist] at hin
    exact List.mem_singleton.mp hin
  · intro tls
    refine ⟨entry, hmem.1, hmem.2, endpoint, vm, hplace, ?_⟩
    have hfound : r.byType hostManager false = some (.ok entry) := by
      have hmany : r.byTypeMany hostManager false = some [entry] := congrArg some hlist
      simp [byType, hmany]
    simp [hostEndpoint, hfound, Registry.endpoint, hplace, Report.context]

theorem registerService_of_ok (r : Registry) (h : RegistryEntry.tryFrom req = .ok entry) :
    r.registerService req = r.insert entry := by
  simp [registerService, h, register_fst]

theorem Sole.registerService (h : r.Sole name) (hreq : req.Keeps name) :
    (r.registerService req).Sole name := by
  cases hnew : RegistryEntry.tryFrom req with
  | error error =>
      rw [show r.registerService req = r by simp [Registry.registerService, hnew]]
      exact h
  | ok new =>
      rw [registerService_of_ok r hnew]
      rcases h with ⟨entry, hlist, rfl, hend⟩
      by_cases htype : new.type = hostManager
      · have hname := (hreq new hnew).mp htype
        exact ⟨new, by simp [hostManagers_insert, hlist, htype, hname], hname,
          isEndpoint_of_tryFrom hnew⟩
      · have hname : ¬ new.name = entry.name := fun heq => htype ((hreq new hnew).mpr heq)
        exact ⟨entry, by simp [hostManagers_insert, hlist, htype, Ne.symm hname], rfl, hend⟩

/-- Any other request takes the host manager away or adds a second one. -/
theorem Sole.keeps_of_unique (h : r.Sole name)
    (hone : ∃! entry, entry ∈ (r.registerService req).entries ∧ entry.type = hostManager) :
    req.Keeps name := by
  intro new hnew
  rcases h with ⟨entry, hlist, rfl, -⟩
  rw [registerService_of_ok r hnew] at hone
  rcases hone with ⟨found, hfound, honly⟩
  simp only [← mem_hostManagers, hostManagers_insert, hlist] at hfound honly
  constructor
  · intro htype
    by_contra hname
    have hold := honly entry (by simp [Ne.symm hname])
    have hadded := honly new (by simp [htype])
    exact hname (congrArg RegistryEntry.name (hadded.trans hold.symm))
  · intro hname
    by_contra htype
    simp [htype, hname] at hfound

end Step

theorem Sole.registerAll_iff {name : String} (reqs : List RegistryRequest) {r : Registry}
    (h : r.Sole name) :
    (∀ done, done <+: reqs → (r.registerAll done).OneHostManager) ↔
      ∀ req ∈ reqs, req.Keeps name := by
  induction reqs generalizing r with
  | nil => simp [registerAll, h.oneHostManager]
  | cons req reqs ih =>
      rw [List.forall_mem_cons]
      constructor
      · intro hall
        have hkeeps : req.Keeps name :=
          h.keeps_of_unique (hall [req] (by simp)).unique
        have hrest : ∀ done, done <+: reqs →
            ((r.registerService req).registerAll done).OneHostManager :=
          fun done hdone => hall (req :: done) (List.cons_prefix_cons.mpr ⟨rfl, hdone⟩)
        exact ⟨hkeeps, (ih (h.registerService hkeeps)).mp hrest⟩
      · intro hall done hdone
        cases done with
        | nil => exact h.oneHostManager
        | cons first done =>
            have hparts := List.cons_prefix_cons.mp hdone
            rw [hparts.1]
            exact (ih (h.registerService hall.1)).mpr hall.2 done hparts.2

theorem sole_registerService {r : Registry} {first : RegistryRequest} {entry : RegistryEntry}
    (hnone : ∀ old ∈ r.entries, old.type ≠ hostManager)
    (hfirst : RegistryEntry.tryFrom first = .ok entry) (htype : entry.type = hostManager) :
    (r.registerService first).Sole entry.name := by
  have hlist : r.hostManagers = [] := by
    simpa [hostManagers] using hnone
  rw [registerService_of_ok r hfirst]
  exact ⟨entry, by simp [hostManagers_insert, hlist, htype], rfl, isEndpoint_of_tryFrom hfirst⟩

end Registry

/-- After the first host manager is registered, it stays the only one over a sequence of
requests if and only if each request that is accepted registers a host manager exactly if it
uses the name of the first. -/
theorem oneHostManager_registerAll_iff {r : Registry} {first : RegistryRequest}
    {entry : RegistryEntry} (hnone : ∀ old ∈ r.entries, old.type ≠ hostManager)
    (hfirst : RegistryEntry.tryFrom first = .ok entry) (htype : entry.type = hostManager)
    (reqs : List RegistryRequest) :
    (∀ done, done <+: reqs → ((r.registerService first).registerAll done).OneHostManager) ↔
      ∀ req ∈ reqs, req.Keeps entry.name :=
  (Registry.sole_registerService hnone hfirst htype).registerAll_iff reqs

/-- The host manager registers a second time, with another port, and a VM manager once. -/
def orderlyRequests : List RegistryRequest :=
  [agentRequest 12 "chrome-vm", { agentRequest 0 "ghaf-host" with
    transport := some ⟨"tcp", "192.168.101.2", "9001", "ghaf-host"⟩ }]

theorem oneHostManager_registerAll_iff_orderlyRequests :
    ((Registry.empty.registerService (agentRequest 0 "ghaf-host")).registerAll
      orderlyRequests).OneHostManager := by
  have hkeeps : ∀ req ∈ orderlyRequests, req.Keeps "givc-ghaf-host.service" := by
    intro req hreq entry hentry
    rcases tryFrom_eq_ok hentry with ⟨hname, htype, -⟩
    simp only [orderlyRequests, List.mem_cons, List.not_mem_nil, or_false] at hreq
    rcases hreq with rfl | rfl
    · rw [hname, ← Option.some.inj htype]
      decide
    · rw [hname, ← Option.some.inj htype]
      decide
  exact (oneHostManager_registerAll_iff (by simp [Registry.empty]) rfl rfl _).mpr hkeeps _
    (List.prefix_refl _)

/-- An agent of a VM announces itself as a host manager as well: no request reaches the host
any more. The same holds when a service takes the name of the host manager. -/
theorem registerService_loses_hostManager :
    ((Registry.empty.registerService (agentRequest 0 "ghaf-host")).registerService
        (agentRequest 0 "chrome-vm")).hostEndpoint none false =
      some (.error ["More than one unique services registered"]) ∧
    ((Registry.empty.registerService (agentRequest 0 "ghaf-host")).registerService
        (agentRequest 1 "ghaf-host")).hostEndpoint none false =
      some (.error ["No service registered for"]) ∧
    ¬ ((Registry.empty.registerService (agentRequest 0 "ghaf-host")).registerService
        (agentRequest 0 "chrome-vm")).OneHostManager ∧
    ¬ ((Registry.empty.registerService (agentRequest 0 "ghaf-host")).registerService
        (agentRequest 1 "ghaf-host")).OneHostManager := by
  have htwo : ((Registry.empty.registerService (agentRequest 0 "ghaf-host")).registerService
      (agentRequest 0 "chrome-vm")).hostEndpoint none false =
      some (.error ["More than one unique services registered"]) := by decide +kernel
  have hnone : ((Registry.empty.registerService (agentRequest 0 "ghaf-host")).registerService
      (agentRequest 1 "ghaf-host")).hostEndpoint none false =
      some (.error ["No service registered for"]) := by decide +kernel
  refine ⟨htwo, hnone, fun hone => ?_, fun hone => ?_⟩
  · rcases hone.resolves none with ⟨entry, -, -, endpoint, vm, -, hok⟩
    rw [htwo] at hok
    cases hok
  · rcases hone.resolves none with ⟨entry, -, -, endpoint, vm, -, hok⟩
    rw [hnone] at hok
    cases hok

end GhafGivc.Admin
