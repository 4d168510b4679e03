import GhafGivc.Admin.Registry
import GhafGivc.Core.Mutex
import GhafGivc.Core.Transition

/-! # Lookups of agents

The map of the registry is guarded by a mutex that is not reentrant, and `filter_map` and
`find_map` call their callbacks with the mutex held. A callback that resolves a managed
entry would take it again. Managers are never managed.
-/

namespace GhafGivc.Admin

open Core

/-- An error with its contexts, the outermost first. -/
abbrev Report := List String

def Report.context {α : Type} (message : String) : Except Report α → Except Report α
  | .ok a => .ok a
  | .error report => .error (message :: report)

structure TlsConfig where
  caCertFilePath : String
  certFilePath : String
  keyFilePath : String
  tlsName : Option String
deriving DecidableEq

structure EndpointConfig where
  transport : EndpointEntry
  tls : Option TlsConfig
deriving DecidableEq

def EndpointConfig.of (tls : Option TlsConfig) (transport : EndpointEntry) : EndpointConfig :=
  ⟨transport, tls.map fun tls => { tls with tlsName := some transport.tlsName }⟩

def RegistryEntry.agent (entry : RegistryEntry) : Except Report EndpointEntry :=
  match entry.placement with
  | .endpoint endpoint _ => .ok endpoint
  | .managed _ managedBy =>
      .error ["Agent endpoint " ++ entry.name ++ " is managed by " ++ managedBy ++ "!"]
  | .host => .error ["Its a host!"]

namespace Registry

def byName (r : Registry) (name : String) : Guarded (Except Report RegistryEntry) :=
  Guarded.locked (pure (match r.get name with
    | some entry => .ok entry
    | none => .error ["Service " ++ name ++ " not registered"]))

def filterMap {α : Type} (r : Registry) (filter : RegistryEntry → Guarded (Option α)) :
    Guarded (List α) :=
  Guarded.locked (Guarded.filterMap filter r.entries)

def findMap {α : Type} (r : Registry) (filter : RegistryEntry → Guarded (Option α)) :
    Guarded (Option α) :=
  Guarded.locked (Guarded.findMap filter r.entries)

def endpoint (r : Registry) (tls : Option TlsConfig) (entry : RegistryEntry) :
    Guarded (Except Report EndpointConfig) :=
  match entry.placement with
  | .managed _ managedBy => do
      let parent ← r.byName managedBy
      return do
        let parent ← parent
        let transport ← Report.context "When get_remote_status()" parent.agent
        return .of tls transport
  | .endpoint endpoint _ => pure (.ok (.of tls endpoint))
  | .host => pure (.error ["endpoint() called for Host"])

/-- The callback of `set_locale` and `set_timezone`. -/
def managerEndpoint (r : Registry) (tls : Option TlsConfig) (entry : RegistryEntry) :
    Guarded (Option EndpointConfig) :=
  if entry.type.service = .mgr then do
    let found ← r.endpoint tls entry
    return found.toOption
  else pure none

def managers (r : Registry) (tls : Option TlsConfig) : Guarded (List EndpointConfig) :=
  r.filterMap (r.managerEndpoint tls)

/-- The callback of `get_stats`. -/
def namedEndpoint (r : Registry) (tls : Option TlsConfig) (name : String)
    (entry : RegistryEntry) : Guarded (Option (Except Report EndpointConfig)) :=
  if entry.type.service = .mgr ∧ entry.name = name then do
    let found ← r.endpoint tls entry
    return some found
  else pure none

def statsEndpoint (r : Registry) (tls : Option TlsConfig) (vm : String) :
    Guarded (Except Report EndpointConfig) := do
  let name := (VmName.vm vm).agentService
  let found ← r.findMap (r.namedEndpoint tls name)
  return found.getD (.error ["VM " ++ name ++ " not found"])

end Registry

/-- What changes the registry. The agent's answer to `start_app` names the entry. -/
inductive Operation where
  | registerService (req : RegistryRequest)
  | startApp (status : UnitStatus) (vm : VmName)
  | updateState (name : String) (status : UnitStatus)
  | deregister (name : String) (order : List RegistryEntry)

namespace Registry

def registerService (r : Registry) (req : RegistryRequest) : Registry :=
  match RegistryEntry.tryFrom req with
  | .ok entry => (r.register entry).1
  | .error _ => r

/-- A failed operation leaves the registry as it was. -/
def after (r : Registry) : Except String (Registry × List Event) → Registry
  | .ok (registry, _) => registry
  | .error _ => r

def operate (r : Registry) : Operation → Option Registry
  | .registerService req => some (r.registerService req)
  | .startApp status vm =>
      if status.activeState = "active" then some (r.register (appEntry status vm)).1 else some r
  | .updateState name status => some (r.after (r.updateState name status))
  | .deregister name order =>
      if order.Perm (r.cascade name) then some (r.after (r.deregister name order)) else none

section Entries

variable {r t : Registry} {entry : RegistryEntry} {op : Operation} {name : String}

theorem mem_register {new : RegistryEntry} (h : entry ∈ (r.register new).1.entries) :
    entry ∈ r.entries ∨ entry = new := by
  rw [register_fst] at h
  simp only [insert, List.mem_append, List.mem_filter, List.mem_singleton] at h
  exact h.imp And.left id

theorem mem_registerService {req : RegistryRequest}
    (h : entry ∈ (r.registerService req).entries) :
    entry ∈ r.entries ∨ RegistryEntry.tryFrom req = .ok entry := by
  unfold registerService at h
  cases hnew : RegistryEntry.tryFrom req with
  | error err =>
      simp only [hnew] at h
      exact Or.inl h
  | ok new =>
      simp only [hnew] at h
      cases mem_register h with
      | inl hold => exact Or.inl hold
      | inr heq => exact Or.inr (congrArg Except.ok heq.symm)

theorem mem_updateState {status : UnitStatus}
    (h : entry ∈ (r.after (r.updateState name status)).entries) :
    ∃ old ∈ r.entries, entry = { old with status := entry.status } := by
  unfold updateState at h
  cases hget : r.get name with
  | none =>
      simp only [hget, after] at h
      exact ⟨entry, h, rfl⟩
  | some found =>
      simp only [hget, after, setStatus, List.mem_map] at h
      rcases h with ⟨old, hmem, heq⟩
      subst heq
      exact ⟨old, hmem, by split <;> rfl⟩

theorem mem_deregister {order : List RegistryEntry}
    (h : entry ∈ (r.after (r.deregister name order)).entries) : entry ∈ r.entries := by
  unfold deregister at h
  cases hget : r.get name with
  | none =>
      simp only [hget, after] at h
      exact h
  | some found =>
      simp only [hget, after, retain, List.mem_filter] at h
      exact h.1

/-- Where the entries of the registry come from: an entry is an old one, perhaps with
another status, that of a request, or that of an application. -/
theorem mem_operate (hop : r.operate op = some t) (h : entry ∈ t.entries) :
    (∃ old ∈ r.entries, entry = { old with status := entry.status }) ∨
      (∃ req, op = .registerService req ∧ RegistryEntry.tryFrom req = .ok entry) ∨
      ∃ status vm, op = .startApp status vm ∧ entry = appEntry status vm := by
  cases op with
  | registerService req =>
      cases Option.some.inj hop
      cases mem_registerService h with
      | inl hold => exact Or.inl ⟨entry, hold, rfl⟩
      | inr hnew => exact Or.inr (Or.inl ⟨req, rfl, hnew⟩)
  | startApp status vm =>
      simp only [operate] at hop
      split at hop
      · cases Option.some.inj hop
        cases mem_register h with
        | inl hold => exact Or.inl ⟨entry, hold, rfl⟩
        | inr hnew => exact Or.inr (Or.inr ⟨status, vm, rfl, hnew⟩)
      · cases Option.some.inj hop
        exact Or.inl ⟨entry, h, rfl⟩
  | updateState name status =>
      cases Option.some.inj hop
      exact Or.inl (mem_updateState h)
  | deregister name order =>
      simp only [operate, Option.ite_none_right_eq_some, Option.some.injEq] at hop
      rcases hop with ⟨horder, hop⟩
      subst hop
      exact Or.inl ⟨entry, mem_deregister h, rfl⟩

end Entries

end Registry

def RegistryEntry.IsEndpoint (entry : RegistryEntry) : Prop :=
  ∃ endpoint vm, entry.placement = .endpoint endpoint vm

abbrev Registry.Reachable : Registry → Prop :=
  Reach Registry.operate (fun _ _ => True) (· = Registry.empty)

/-- No lookup of a manager waits for the mutex that its caller holds. -/
structure Registry.ManagersReady (r : Registry) : Prop where
  endpoints : ∀ entry ∈ r.entries, entry.type.service = .mgr → entry.IsEndpoint
  callbacks : ∀ tls, ∀ entry ∈ r.entries, entry.type.service = .mgr →
    ∃ config, r.endpoint tls entry true = some (.ok config)
  managers : ∀ tls, ∃ found, r.managers tls false = some found
  stats : ∀ tls vm, ∃ answer, r.statsEndpoint tls vm false = some answer

section Ready

variable {r t : Registry} {entry : RegistryEntry} {op : Operation}

theorem isEndpoint_of_tryFrom {req : RegistryRequest}
    (h : RegistryEntry.tryFrom req = .ok entry) : entry.IsEndpoint := by
  rcases tryFrom_eq_ok h with ⟨-, -, endpoint, hplace⟩
  exact ⟨endpoint, _, hplace⟩

theorem isEndpoint_operate (h : ∀ entry ∈ r.entries, entry.type.service = .mgr → entry.IsEndpoint)
    (hop : r.operate op = some t) :
    ∀ entry ∈ t.entries, entry.type.service = .mgr → entry.IsEndpoint := by
  intro entry hentry hmgr
  rcases Registry.mem_operate hop hentry with
    ⟨old, hold, heq⟩ | ⟨req, -, hreq⟩ | ⟨status, vm, -, heq⟩
  · rw [heq] at hmgr ⊢
    exact h old hold hmgr
  · exact isEndpoint_of_tryFrom hreq
  · rw [heq] at hmgr
    cases hmgr

theorem isEndpoint_of_reachable (h : r.Reachable) :
    ∀ entry ∈ r.entries, entry.type.service = .mgr → entry.IsEndpoint := by
  refine Reach.invariant
    (P := fun r => ∀ entry ∈ r.entries, entry.type.service = .mgr → entry.IsEndpoint) ?_ ?_ h
  · intro r hempty entry hentry
    subst hempty
    cases hentry
  · intro r op t hr _ hop
    exact isEndpoint_operate hr hop

theorem endpoint_of_isEndpoint (tls : Option TlsConfig) (h : entry.IsEndpoint) :
    ∃ config, ∀ held, r.endpoint tls entry held = some (.ok config) := by
  rcases h with ⟨endpoint, vm, hplace⟩
  exact ⟨.of tls endpoint, fun held => by simp [Registry.endpoint, hplace]⟩

/-- In every state of the registry managers are endpoints, so the callbacks of the lookups
take no mutex and the lookups return. -/
theorem managersReady_of_reachable (h : r.Reachable) : r.ManagersReady := by
  have hends := isEndpoint_of_reachable h
  refine ⟨hends, fun tls entry hentry hmgr => ?_, fun tls => ?_, fun tls vm => ?_⟩
  · rcases endpoint_of_isEndpoint (r := r) tls (hends entry hentry hmgr) with ⟨config, hconfig⟩
    exact ⟨config, hconfig true⟩
  · have hcall : ∀ entry ∈ r.entries, ∃ found, r.managerEndpoint tls entry true = some found := by
      intro entry hentry
      unfold Registry.managerEndpoint
      split
      · rename_i hmgr
        rcases endpoint_of_isEndpoint (r := r) tls (hends entry hentry hmgr) with ⟨config, hconfig⟩
        exact ⟨some config, by simp [hconfig, Except.toOption]⟩
      · exact ⟨none, rfl⟩
    exact Guarded.filterMap_returns hcall
  · have hcall : ∀ entry ∈ r.entries, ∃ found,
        r.namedEndpoint tls (VmName.vm vm).agentService entry true = some found := by
      intro entry hentry
      unfold Registry.namedEndpoint
      split
      · rename_i hnamed
        rcases endpoint_of_isEndpoint (r := r) tls (hends entry hentry hnamed.1) with
          ⟨config, hconfig⟩
        exact ⟨some (.ok config), by simp [hconfig]⟩
      · exact ⟨none, rfl⟩
    rcases Guarded.findMap_returns hcall with ⟨found, hfound⟩
    exact ⟨_, by simp only [Registry.statsEndpoint, Registry.findMap, Guarded.bind_apply,
      Guarded.locked_false, hfound]; rfl⟩

end Ready

def agentRequest (type : Nat) (vm : String) : RegistryRequest where
  name := "givc-" ++ vm ++ ".service"
  type := type
  parent := "microvm@" ++ vm ++ ".service"
  transport := some ⟨"tcp", "192.168.101.10", "9000", vm⟩
  state := some (agentEntry vm "active").status

def managerOperations : List Operation :=
  [.registerService (agentRequest 12 "chrome-vm"), .registerService (agentRequest 8 "net-vm"),
    .startApp ⟨"chrome@0.service", "app", "loaded", "active", "running", "", "running"⟩
      (.app "chrome"),
    .updateState "givc-net-vm.service" (agentEntry "net-vm" "failed").status]

theorem managersReady_of_reachable_managerOperations :
    ∃ r : Registry, r.Reachable ∧ r.entries.map RegistryEntry.name =
      ["givc-chrome-vm.service", "givc-net-vm.service", "chrome@0.service"] ∧
      r.ManagersReady := by
  have hrun : (run (fun r op => if True then r.operate op else none) Registry.empty
      managerOperations).map (fun r => r.entries.map RegistryEntry.name) =
      some ["givc-chrome-vm.service", "givc-net-vm.service", "chrome@0.service"] := by
    decide +kernel
  rcases Option.map_eq_some_iff.mp hrun with ⟨r, hr, hnames⟩
  have hreach : r.Reachable := Reach.of_run (Reach.init rfl) hr
  exact ⟨r, hreach, hnames, managersReady_of_reachable hreach⟩

end GhafGivc.Admin
