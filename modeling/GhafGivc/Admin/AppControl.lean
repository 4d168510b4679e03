import GhafGivc.Admin.Monitor
import GhafGivc.Agent.Units

/-! # Control of applications

The admin service pauses, resumes and stops an application by requests to one agent, for each
registered unit whose name starts with the one it was given. It is done when the status that
the agent answers with is the wanted one. The handlers of the agent are those of its own model.
-/

namespace GhafGivc.Admin

open Core
open Agent (Systemd UnitCall UnitRequest Controller ListedUnit)

namespace Registry

def findNames (r : Registry) (name : String) : Guarded (Except Report (List String)) :=
  Guarded.locked (pure (
    match (r.entries.map RegistryEntry.name).filter (name.toList.isPrefixOf ·.toList) with
    | [] => .error ["No entries match string " ++ name]
    | names => .ok names))

def appEntries (r : Registry) (name : String) : Guarded (Except Report (List String)) :=
  if '@' ∈ name.toList then r.findNames name else pure (.ok [name])

def agentEndpoint (r : Registry) (tls : Option TlsConfig) (name : String) :
    Guarded (Except Report EndpointConfig) := do
  let found ← r.byName name
  match found with
  | .error report => return .error report
  | .ok entry => r.endpoint tls entry

end Registry

/-- The agents behind the endpoints: what they are set up with, what systemd answers during
the request for a unit, and what becomes of the connection before and after it. -/
structure Agents where
  controller : EndpointConfig → Controller
  systemd : EndpointConfig → String → Systemd
  connect : EndpointConfig → String → Except Report Unit
  response : EndpointConfig → String → Except Report Unit
  lost : Report

structure RemoteCall where
  agent : EndpointConfig
  call : UnitCall
deriving DecidableEq

namespace Agents

variable (agents : Agents)

/-- The request is served also when its response is lost. -/
def remote (endpoint : EndpointConfig) (request : UnitRequest) (unit : String) :
    Traced RemoteCall Report UnitStatus :=
  match agents.connect endpoint unit with
  | .error report => ⟨[], .err report⟩
  | .ok _ =>
      let served :=
        (agents.controller endpoint).serve (agents.systemd endpoint unit) unit request
      ⟨served.trace.map (⟨endpoint, ·⟩),
        match agents.response endpoint unit, served.result with
        | .error report, _ => .err report
        | .ok _, .ok status => .ok status
        | .ok _, .err error => .err [error.message]
        | .ok _, .panicked => .err agents.lost⟩

end Agents

inductive AppCommand where
  | pause
  | resume
  | stop
deriving DecidableEq

namespace AppCommand

def request : AppCommand → UnitRequest
  | pause => .freeze
  | resume => .unfreeze
  | stop => .stop

def reached (status : UnitStatus) : AppCommand → Bool
  | pause => status.isPaused
  | resume => status.isRunning
  | stop => status.isExitted

def failure (name : String) : AppCommand → String
  | pause => "Failed to pause " ++ name
  | resume => "Failed to resume " ++ name
  | stop => "Failed to stop " ++ name

variable (command : AppCommand) (r : Registry) (tls : Option TlsConfig) (agents : Agents)

def runOne (endpoint : EndpointConfig) (unit : String) : Traced RemoteCall Report Unit := do
  let status ← agents.remote endpoint command.request unit
  if command.reached status then pure ()
  else Traced.call (.error [command.failure unit])

def lookup {α : Type} (x : Guarded (Except Report α)) : Traced RemoteCall Report α :=
  match x false with
  | some answer => Traced.call answer
  | none => Traced.panic

/-- `pause_application`, `resume_application` and `stop_application`. All units are looked
for at the agent of the entry that has the name itself. -/
def run (name : String) : Traced RemoteCall Report Unit := do
  let endpoint ← lookup (r.agentEndpoint tls name)
  let names ← lookup (r.appEntries name)
  names.forM (command.runOne agents endpoint)

end AppCommand

/-- The name is registered, requests for it go to the endpoint, and these are the units. -/
structure Registry.Addresses (r : Registry) (tls : Option TlsConfig) (name : String)
    (endpoint : EndpointConfig) (units : List String) : Prop where
  endpoint : r.agentEndpoint tls name false = some (.ok endpoint)
  units : r.appEntries name false = some (.ok units)

/-- The agent answered with the wanted status, and its systemd did for every unit listed under
the name what was requested. -/
def AppCommand.Effected (command : AppCommand) (agents : Agents) (endpoint : EndpointConfig)
    (trace : List RemoteCall) (name : String) : Prop :=
  (∃ status, ((agents.controller endpoint).serve (agents.systemd endpoint name) name
    command.request).result = .ok status ∧ command.reached status = true) ∧
  ∃ units, (agents.controller endpoint).Finds (agents.systemd endpoint name) name units ∧
    ∀ unit ∈ units, command.request.Done (agents.systemd endpoint name) unit.name ∧
      ∀ call ∈ command.request.calls unit.name, ⟨endpoint, call⟩ ∈ trace

section Commands

variable {command : AppCommand} {r : Registry} {tls : Option TlsConfig} {agents : Agents}
  {endpoint : EndpointConfig} {name unit : String} {request : UnitRequest} {units : List String}

theorem emits_remote (agents : Agents) (endpoint : EndpointConfig) (request : UnitRequest)
    (unit : String) :
    Traced.Emits (fun remote => remote.agent = endpoint ∧ ∃ units,
      (agents.controller endpoint).Finds (agents.systemd endpoint unit) unit units ∧
        ∃ listed ∈ units, remote.call ∈ request.calls listed.name)
      (agents.remote endpoint request unit) := by
  intro remote hremote
  unfold Agents.remote at hremote
  split at hremote
  · cases hremote
  · rcases List.mem_map.mp hremote with ⟨call, hcall, rfl⟩
    exact ⟨rfl, Agent.emits_serve _ _ _ _ call hcall⟩

theorem remote_of_ok {status : UnitStatus}
    (h : (agents.remote endpoint request unit).result = .ok status) :
    ((agents.controller endpoint).serve (agents.systemd endpoint unit) unit request).result =
        .ok status ∧
      (agents.remote endpoint request unit).trace =
        ((agents.controller endpoint).serve (agents.systemd endpoint unit) unit
          request).trace.map (⟨endpoint, ·⟩) := by
  unfold Agents.remote at h ⊢
  split at h
  · cases h
  · refine ⟨?_, rfl⟩
    dsimp only at h
    split at h
    · cases h
    · rename_i hserved
      cases h
      exact hserved
    · cases h
    · cases h

theorem result_lookup_eq_ok {α : Type} {x : Guarded (Except Report α)} {a : α} :
    (AppCommand.lookup x).result = .ok a ↔ x false = some (.ok a) := by
  unfold AppCommand.lookup
  cases x false with
  | none => simp [Traced.panic]
  | some answer => simp [Traced.result_call_eq_ok]

theorem trace_lookup {α : Type} (x : Guarded (Except Report α)) :
    (AppCommand.lookup x).trace = [] := by
  unfold AppCommand.lookup
  cases x false with
  | none => rfl
  | some answer => cases answer <;> rfl

theorem request_ne_status (command : AppCommand) : command.request ≠ .status := by
  cases command <;> decide

theorem runOne_of_ok (h : (command.runOne agents endpoint unit).result = .ok ()) :
    command.Effected agents endpoint (command.runOne agents endpoint unit).trace unit := by
  unfold AppCommand.runOne at h ⊢
  rw [Traced.result_bind, Outcome.bind_eq_ok] at h
  rcases h with ⟨status, hremote, hreached⟩
  rcases remote_of_ok hremote with ⟨hserved, htrace⟩
  rcases Agent.serve_of_ok (request_ne_status command) hserved with
    ⟨units, hfinds, hdone, hcalls⟩
  have hstatus : command.reached status = true := by
    by_cases h : command.reached status = true
    · exact h
    · rw [if_neg h] at hreached
      cases hreached
  refine ⟨⟨status, hserved, hstatus⟩, units, hfinds, fun listed hlisted =>
    ⟨hdone listed hlisted, ?_⟩⟩
  intro call hcall
  rw [Traced.trace_bind_of_ok hremote, htrace, hcalls]
  apply List.mem_append_left
  exact List.mem_map_of_mem (List.mem_flatMap.mpr ⟨listed, hlisted, hcall⟩)

theorem run_of_addresses (command : AppCommand) (agents : Agents)
    (h : r.Addresses tls name endpoint units) :
    (command.run r tls agents name).trace =
        (units.forM (command.runOne agents endpoint)).trace ∧
      (command.run r tls agents name).result =
        (units.forM (command.runOne agents endpoint)).result := by
  have hendpoint := result_lookup_eq_ok.mpr h.endpoint
  have hunits := result_lookup_eq_ok.mpr h.units
  unfold AppCommand.run
  rw [Traced.bind_of_ok hendpoint, Traced.bind_of_ok hunits, trace_lookup, trace_lookup]
  exact ⟨rfl, rfl⟩

theorem run_cases (command : AppCommand) (r : Registry) (tls : Option TlsConfig) (agents : Agents)
    (name : String) :
    ((command.run r tls agents name).trace = [] ∧
      (command.run r tls agents name).result ≠ .ok ()) ∨
    ∃ endpoint units, r.Addresses tls name endpoint units := by
  have hfirst := trace_lookup (r.agentEndpoint tls name)
  have hsecond := trace_lookup (r.appEntries name)
  unfold AppCommand.run
  cases hendpoint : (AppCommand.lookup (r.agentEndpoint tls name)).result with
  | err report =>
      rw [Traced.bind_of_err hendpoint]
      exact .inl ⟨hfirst, by simp⟩
  | panicked => exact .inl (by simp [Bind.bind, Traced.bind, hendpoint, hfirst])
  | ok endpoint =>
      cases hunits : (AppCommand.lookup (r.appEntries name)).result with
      | err report =>
          rw [Traced.bind_of_ok hendpoint, Traced.bind_of_err hunits, hfirst, hsecond]
          exact .inl ⟨rfl, by simp⟩
      | panicked =>
          exact .inl (by simp [Bind.bind, Traced.bind, hendpoint, hunits, hfirst, hsecond])
      | ok units =>
          exact .inr ⟨endpoint, units, result_lookup_eq_ok.mp hendpoint,
            result_lookup_eq_ok.mp hunits⟩

theorem emits_runOne (command : AppCommand) (agents : Agents) (endpoint : EndpointConfig)
    (unit : String) :
    Traced.Emits (fun remote => remote.agent = endpoint ∧ ∃ units,
      (agents.controller endpoint).Finds (agents.systemd endpoint unit) unit units ∧
        ∃ listed ∈ units, remote.call ∈ command.request.calls listed.name)
      (command.runOne agents endpoint unit) := by
  refine (emits_remote agents endpoint command.request unit).bind fun status => ?_
  split
  · exact Traced.emits_pure ()
  · exact Traced.emits_call _

theorem AppCommand.Effected.mono {trace trace' : List RemoteCall}
    (h : command.Effected agents endpoint trace unit) (hsub : trace ⊆ trace') :
    command.Effected agents endpoint trace' unit := by
  rcases h with ⟨hstatus, units, hfinds, hall⟩
  exact ⟨hstatus, units, hfinds, fun listed hlisted => ⟨(hall listed hlisted).1,
    fun call hcall => hsub ((hall listed hlisted).2 call hcall)⟩⟩

theorem mem_units_of_addresses (h : r.Addresses tls name endpoint units) :
    unit ∈ units → name.toList <+: unit.toList := by
  intro hunit
  have hunits := h.units
  unfold Registry.appEntries at hunits
  split at hunits
  · have hlist : r.findNames name false = some (.ok units) := hunits
    unfold Registry.findNames at hlist
    rw [Guarded.locked_false, Guarded.pure_apply] at hlist
    split at hlist
    · cases hlist
    · cases hlist
      exact List.isPrefixOf_iff_prefix.mp (List.mem_filter.mp hunit).2
  · cases hunits
    rw [List.mem_singleton.mp hunit]

/-- Whatever the agents and systemd answer, also when the command fails on the way: systemd is
called at one agent only, that of the entry with the name itself, for units listed there under
a whitelisted name that starts with it. When the command succeeds, this was done for every
such name, and the status answered for it is the one wanted. -/
theorem commands_effected (command : AppCommand) (r : Registry) (tls : Option TlsConfig)
    (agents : Agents) (name : String) :
    (∀ remote ∈ (command.run r tls agents name).trace, ∃ units,
      r.Addresses tls name remote.agent units ∧ ∃ unit ∈ units, name.toList <+: unit.toList ∧
        ∃ listed, (agents.controller remote.agent).Finds (agents.systemd remote.agent unit) unit
          listed ∧ ∃ found ∈ listed, remote.call ∈ command.request.calls found.name) ∧
    ((command.run r tls agents name).result = .ok () → ∃ endpoint units,
      r.Addresses tls name endpoint units ∧ ∀ unit ∈ units,
        command.Effected agents endpoint (command.run r tls agents name).trace unit) := by
  rcases run_cases command r tls agents name with ⟨htrace, hresult⟩ | ⟨endpoint, units, haddr⟩
  · rw [htrace]
    exact ⟨by simp, fun h => absurd h hresult⟩
  · rcases run_of_addresses command agents haddr with ⟨htrace, hresult⟩
    rw [htrace, hresult]
    constructor
    · have hemits : Traced.Emits (fun remote => ∃ units, r.Addresses tls name remote.agent units ∧
          ∃ unit ∈ units, name.toList <+: unit.toList ∧ ∃ listed,
            (agents.controller remote.agent).Finds (agents.systemd remote.agent unit) unit
              listed ∧ ∃ found ∈ listed, remote.call ∈ command.request.calls found.name)
          (units.forM (command.runOne agents endpoint)) := by
        apply Traced.emits_forM
        intro unit hunit
        refine (emits_runOne command agents endpoint unit).imp ?_
        intro remote hremote
        rcases hremote with ⟨rfl, listed, hfinds, hcall⟩
        exact ⟨units, haddr, unit, hunit, mem_units_of_addresses haddr hunit, listed, hfinds,
          hcall⟩
      exact hemits
    · intro hok
      have hall := Traced.result_forM_eq_ok.mp hok
      refine ⟨endpoint, units, haddr, fun unit hunit => ?_⟩
      refine (runOne_of_ok (hall unit hunit)).mono ?_
      rw [Traced.trace_forM_of_ok hall]
      intro remote hremote
      exact List.mem_flatMap.mpr ⟨unit, hunit, hremote⟩

end Commands

end GhafGivc.Admin
