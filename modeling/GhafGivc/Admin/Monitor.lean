import GhafGivc.Admin.HostManager
import GhafGivc.Core.Traced

/-! # The monitor

The monitor asks the agent of every watched entry for the state of its unit and handles an
error or a bad state. For the manager of a VM it starts the VM again, if the manager is a
managed entry. Registered managers are endpoints.
-/

namespace GhafGivc.Admin

open Core

namespace UnitStatus

def isValid (status : UnitStatus) : Bool :=
  ["frozen", "running", "freezing", "thawing", "frozen-by-parent",
      "freezing-by-parent"].contains status.freezerState &&
    ["stub", "loaded", "not-found", "bad-setting", "merged", "masked"].contains status.loadState &&
    ["active", "reloading", "inactive", "failed", "activating", "deactivating", "maintenance",
      "refreshing"].contains status.activeState &&
    ["dead", "running", "exitted"].contains status.subState

def isExitted (status : UnitStatus) : Bool :=
  status.activeState = "inactive" && status.subState = "dead"

end UnitStatus

def Registry.watchList (r : Registry) : List RegistryEntry := r.entries.filter fun x => x.watch

namespace Monitor

/-- What the monitor does: requests to agents, changes of the registry, and calls of
`start_vm`. -/
inductive Effect where
  | getRemoteStatus (agent : EndpointConfig) (unit : String)
  | startRemote (agent : EndpointConfig) (unit : String)
  | updateState (name : String) (status : UnitStatus)
  | deregister (name : String)
  | startVm (name : String)
deriving DecidableEq

/-- The answers to the requests of one round: of the agent of the entry, and of the host for
the VM before it is started, to the start, and after it. -/
structure Answers where
  status : Except Report UnitStatus
  vmStatus : Except Report UnitStatus
  started : Except Report UnitStatus
  newStatus : Except Report UnitStatus

def lookup {α : Type} (x : Guarded (Except Report α)) : Traced Effect Report α :=
  match x false with
  | some answer => Traced.call answer
  | none => Traced.panic

def ask {α : Type} (effect : Effect) (message : String) (answer : Except Report α) :
    Traced Effect Report α := do
  Traced.emit effect
  Traced.call (Report.context message answer)

def bail {α : Type} (message : String) : Traced Effect Report α := Traced.call (.error [message])

section Routine

variable (r : Registry) (tls : Option TlsConfig) (answers : Answers)

def getRemoteStatus (entry : RegistryEntry) : Traced Effect Report UnitStatus := do
  let endpoint ← lookup (r.endpoint tls entry)
  Traced.emit (.getRemoteStatus endpoint entry.name)
  Traced.call answers.status

def startVm (name : String) : Traced Effect Report Unit := do
  Traced.emit (.startVm name)
  let endpoint ← lookup (r.hostEndpoint tls)
  let status ← ask (.getRemoteStatus endpoint name)
    ("cannot retrieve vm status for " ++ name ++ ", host agent failed") answers.vmStatus
  if status.loadState ≠ "loaded" then
    bail ("vm " ++ name ++ " not loaded")
  else if status.activeState ≠ "active" then do
    let _ ← ask (.startRemote endpoint name) ("spawn remote VM service " ++ name) answers.started
    let newStatus ← ask (.getRemoteStatus endpoint name)
      ("cannot retrieve vm status for " ++ name) answers.newStatus
    if newStatus.activeState ≠ "active" then
      bail ("Unable to launch VM " ++ name)
    else pure ()
  else pure ()

/-- The status is that of the copy of the entry taken before the query. -/
def handleError (entry : RegistryEntry) : Traced Effect Report Unit :=
  match entry.type with
  | ⟨.appVM, .app⟩ =>
      if entry.status.isExitted then do
        let _ ← Traced.call ((r.deregister entry.name (r.cascade entry.name)).mapError ([·]))
        Traced.emit (.deregister entry.name)
      else pure ()
  | ⟨.appVM, .mgr⟩ | ⟨.sysVM, .mgr⟩ =>
      match entry.placement with
      | .managed vmName _ =>
          (startVm r tls answers vmName).mapError
            (("handing error, by restart VM " ++ entry.name) :: ·)
      | _ => pure ()
  | _ => pure ()

def monitorRoutine (entry : RegistryEntry) : Traced Effect Report Unit := do
  let answer ← Traced.attempt (getRemoteStatus r tls answers entry)
  match answer with
  | .error _ => (handleError r tls answers entry).mapError ("during handle error" :: ·)
  | .ok status => do
      -- the new state is saved before the attempt to recover
      let updated ← Traced.call ((r.updateState entry.name status).mapError ([·]))
      Traced.emit (.updateState entry.name status)
      if !status.isValid || status.activeState ≠ "active" then
        (handleError updated.1 tls answers entry).mapError ("during handle error" :: ·)
      else pure ()

end Routine

/-! ## What the monitor starts -/

def IsVmManager (entry : RegistryEntry) : Prop :=
  entry.type = ⟨.appVM, .mgr⟩ ∨ entry.type = ⟨.sysVM, .mgr⟩

/-- The query of the round fails, or its answer is an invalid or inactive state. -/
def Failing (r : Registry) (tls : Option TlsConfig) (answers : Answers) (entry : RegistryEntry) :
    Prop :=
  ∀ status, (getRemoteStatus r tls answers entry).result = .ok status →
    status.isValid = false ∨ status.activeState ≠ "active"

/-- Each watched manager whose VM is known has its VM started when it fails. -/
def Recovers (r : Registry) (tls : Option TlsConfig) : Prop :=
  ∀ entry ∈ r.watchList, IsVmManager entry → ∀ vm, entry.vmName = some vm → vm ≠ "" →
    ∀ answers, Failing r tls answers entry →
      Effect.startVm (VmName.vm vm).vmService ∈ (monitorRoutine r tls answers entry).trace

section Trace

variable {r : Registry} {tls : Option TlsConfig} {answers : Answers} {entry : RegistryEntry}
  {name unit : String} {P : Effect → Prop} {report : Report}

theorem endpoint_returns (r : Registry) (tls : Option TlsConfig) (entry : RegistryEntry) :
    ∃ answer, r.endpoint tls entry false = some answer := by
  unfold Registry.endpoint
  cases entry.placement with
  | endpoint endpoint vm => exact ⟨_, rfl⟩
  | managed vm managedBy => exact ⟨_, rfl⟩
  | host => exact ⟨_, rfl⟩

theorem emits_lookup {α : Type} (x : Guarded (Except Report α)) : Traced.Emits P (lookup x) := by
  unfold lookup
  cases x false with
  | some answer => exact Traced.emits_call answer
  | none => simp [Traced.Emits, Traced.panic]

theorem emits_ask {α : Type} {effect : Effect} (h : P effect) (message : String)
    (answer : Except Report α) : Traced.Emits P (ask effect message answer) :=
  (Traced.emits_emit h).bind fun _ => Traced.emits_call _

theorem emits_getRemoteStatus (h : ∀ endpoint, P (.getRemoteStatus endpoint entry.name)) :
    Traced.Emits P (getRemoteStatus r tls answers entry) :=
  (emits_lookup _).bind fun endpoint => (Traced.emits_emit (h endpoint)).bind fun _ =>
    Traced.emits_call _

theorem getRemoteStatus_returns (r : Registry) (tls : Option TlsConfig) (answers : Answers)
    (entry : RegistryEntry) : (getRemoteStatus r tls answers entry).result ≠ .panicked := by
  rcases endpoint_returns r tls entry with ⟨answer, hanswer⟩
  have hlookup : Traced.Ensures (fun _ => True) (lookup (r.endpoint tls entry)) := by
    simpa [lookup, hanswer] using Traced.ensures_call answer
  exact (hlookup.bind fun _ _ => (Traced.ensures_emit _).bind fun _ _ =>
    Traced.ensures_call answers.status).1

theorem failing_of_error (h : answers.status = .error report) : Failing r tls answers entry := by
  intro status hstatus
  rw [getRemoteStatus, Traced.result_bind] at hstatus
  rcases Outcome.bind_eq_ok.mp hstatus with ⟨endpoint, -, hcall⟩
  rw [Traced.result_emit_bind, h] at hcall
  cases hcall

theorem mem_startVm : Effect.startVm unit ∈ (startVm r tls answers name).trace ↔
    unit = name := by
  rw [startVm, Traced.trace_emit_bind, List.mem_cons]
  constructor
  · intro h
    cases h with
    | inl heq => exact Effect.startVm.inj heq
    | inr hrest =>
        refine absurd rfl (Traced.Emits.bind (P := (· ≠ .startVm unit)) (emits_lookup _)
          (fun endpoint => ?_) _ hrest)
        refine (emits_ask (by simp) _ _).bind fun status => ?_
        split
        · exact Traced.emits_call _
        · split
          · refine (emits_ask (by simp) _ _).bind fun _ => ?_
            refine (emits_ask (by simp) _ _).bind fun newStatus => ?_
            split
            · exact Traced.emits_call _
            · exact Traced.emits_pure _
          · exact Traced.emits_pure _
  · intro h
    exact Or.inl (congrArg Effect.startVm h)

theorem mem_handleError (h : IsVmManager entry) :
    Effect.startVm unit ∈ (handleError r tls answers entry).trace ↔
      ∃ managedBy, entry.placement = .managed unit managedBy := by
  have htrace : (handleError r tls answers entry).trace =
      match entry.placement with
      | .managed vmName _ => (startVm r tls answers vmName).trace
      | _ => [] := by
    unfold handleError
    cases h with
    | inl htype =>
        rw [htype]
        cases entry.placement <;> rfl
    | inr htype =>
        rw [htype]
        cases entry.placement <;> rfl
  rw [htrace]
  cases entry.placement with
  | endpoint endpoint vm => simp
  | managed vm managedBy => simp [mem_startVm, eq_comm]
  | host => simp

theorem trace_monitorRoutine_of_err
    (h : (getRemoteStatus r tls answers entry).result = .err report) :
    (monitorRoutine r tls answers entry).trace =
      (getRemoteStatus r tls answers entry).trace ++ (handleError r tls answers entry).trace := by
  rw [monitorRoutine, Traced.trace_attempt_bind_of_err h]
  rfl

theorem trace_monitorRoutine_of_ok {status : UnitStatus} (hentry : entry ∈ r.entries)
    (h : (getRemoteStatus r tls answers entry).result = .ok status) :
    (monitorRoutine r tls answers entry).trace =
      (getRemoteStatus r tls answers entry).trace ++ .updateState entry.name status ::
        if !status.isValid || status.activeState ≠ "active" then
          (handleError (r.setStatus entry.name status) tls answers entry).trace
        else [] := by
  rw [monitorRoutine, Traced.trace_attempt_bind_of_ok h]
  simp only [Registry.updateState, Registry.get_of_mem hentry, Except.mapError,
    Traced.call_ok_bind, Traced.trace_emit_bind]
  split
  · rfl
  · rfl

/-- A failing round ends in `handle_error`. -/
theorem mem_monitorRoutine (hentry : entry ∈ r.entries) (hmanager : IsVmManager entry)
    (hfailing : Failing r tls answers entry) :
    Effect.startVm unit ∈ (monitorRoutine r tls answers entry).trace ↔
      ∃ managedBy, entry.placement = .managed unit managedBy := by
  have hquery : Effect.startVm unit ∉ (getRemoteStatus r tls answers entry).trace :=
    fun hmem => emits_getRemoteStatus (P := (· ≠ .startVm unit)) (by simp) _ hmem rfl
  cases hresult : (getRemoteStatus r tls answers entry).result with
  | panicked => exact absurd hresult (getRemoteStatus_returns r tls answers entry)
  | err report =>
      rw [trace_monitorRoutine_of_err hresult, List.mem_append, or_iff_right hquery]
      exact mem_handleError hmanager
  | ok status =>
      have hbad : (!status.isValid || decide (status.activeState ≠ "active")) = true := by
        simpa using hfailing status hresult
      rw [trace_monitorRoutine_of_ok hentry hresult, List.mem_append, or_iff_right hquery,
        if_pos hbad, List.mem_cons, or_iff_right (by simp)]
      exact mem_handleError hmanager

end Trace

/-- In a reachable registry every VM is recovered exactly if there is none to recover. In any
registry a failing round of a manager starts the unit for which the manager is managed, and
no other. -/
theorem recovers_iff {r : Registry} (h : r.Reachable) (tls : Option TlsConfig) :
    (Recovers r tls ↔ ∀ entry ∈ r.watchList, IsVmManager entry →
      ∀ vm, entry.vmName = some vm → vm = "") ∧
    ∀ (other : Registry), ∀ entry ∈ other.watchList, IsVmManager entry →
      ∀ answers, Failing other tls answers entry → ∀ unit,
        (Effect.startVm unit ∈ (monitorRoutine other tls answers entry).trace ↔
          ∃ managedBy, entry.placement = .managed unit managedBy) := by
  constructor
  · constructor
    · intro hrecovers entry hentry hmanager vm hvm
      by_contra hknown
      have hmem : entry ∈ r.entries := (List.mem_filter.mp hentry).1
      have hservice : entry.type.service = .mgr := by
        cases hmanager with
        | inl htype => rw [htype]
        | inr htype => rw [htype]
      have hfailing : Failing r tls ⟨.error [], .error [], .error [], .error []⟩ entry :=
        failing_of_error rfl
      have hstart := hrecovers entry hentry hmanager vm hvm hknown _ hfailing
      rcases (mem_monitorRoutine hmem hmanager hfailing).mp hstart with ⟨managedBy, hmanaged⟩
      rcases isEndpoint_of_reachable h entry hmem hservice with ⟨endpoint, home, hplace⟩
      rw [hplace] at hmanaged
      cases hmanaged
    · intro hnone entry hentry hmanager vm hvm hknown
      exact absurd (hnone entry hentry hmanager vm hvm) hknown
  · intro other entry hentry hmanager answers hfailing unit
    exact mem_monitorRoutine (List.mem_filter.mp hentry).1 hmanager hfailing

/-- Nothing but the agents of the host and of the admin VM is registered. -/
theorem recovers_iff_hostOnly :
    ∃ r : Registry, r.Reachable ∧ r.watchList.length = 2 ∧ Recovers r none := by
  have hrun : (run (fun r op => if True then r.operate op else none) Registry.empty
      [.registerService (agentRequest 0 "ghaf-host"),
        .registerService (agentRequest 4 "admin-vm")]).map (fun r =>
        r.watchList.map fun entry => (entry.type.vm, entry.type.service)) =
      some [(.host, .mgr), (.admVM, .mgr)] := by decide +kernel
  rcases Option.map_eq_some_iff.mp hrun with ⟨r, hr, htypes⟩
  have hreach : r.Reachable := Reach.of_run (Reach.init rfl) hr
  have hlength := congrArg List.length htypes
  rw [List.length_map] at hlength
  refine ⟨r, hreach, hlength, (recovers_iff hreach none).1.mpr ?_⟩
  intro entry hentry hmanager
  have hin := List.mem_map_of_mem (f := fun e : RegistryEntry => (e.type.vm, e.type.service)) hentry
  rw [htypes] at hin
  cases hmanager with
  | inl htype => simp [htype] at hin
  | inr htype => simp [htype] at hin

def chromeRegistry : Registry :=
  (Registry.empty.registerService (agentRequest 0 "ghaf-host")).registerService
    (agentRequest 12 "chrome-vm")

def unreachable : Answers := ⟨.error ["connection refused"], .error [], .error [], .error []⟩

/-- The agent of the VM cannot be reached. The monitor has asked it, and that is all. -/
theorem monitorRoutine_leaves_vm_down :
    chromeRegistry.Reachable ∧ ¬ Recovers chromeRegistry none ∧
    ∃ entry ∈ chromeRegistry.watchList, entry.type = ⟨.appVM, .mgr⟩ ∧
      entry.vmName = some "chrome-vm" ∧
      (monitorRoutine chromeRegistry none unreachable entry).trace =
        [.getRemoteStatus ⟨⟨.tcp "192.168.101.10" 9000, "chrome-vm"⟩, none⟩
          "givc-chrome-vm.service"] := by
  have hempty : Registry.empty.Reachable := Reach.init rfl
  have hhost : (Registry.empty.registerService (agentRequest 0 "ghaf-host")).Reachable :=
    hempty.step (l := Operation.registerService (agentRequest 0 "ghaf-host")) trivial rfl
  have hreach : chromeRegistry.Reachable :=
    hhost.step (l := Operation.registerService (agentRequest 12 "chrome-vm")) trivial rfl
  have hrun : (chromeRegistry.watchList.find? fun entry =>
      entry.name = "givc-chrome-vm.service").map (fun entry => (entry.type, entry.vmName,
        (monitorRoutine chromeRegistry none unreachable entry).trace)) =
      some (⟨.appVM, .mgr⟩, some "chrome-vm", [.getRemoteStatus
        ⟨⟨.tcp "192.168.101.10" 9000, "chrome-vm"⟩, none⟩ "givc-chrome-vm.service"]) := by
    decide +kernel
  rcases Option.map_eq_some_iff.mp hrun with ⟨entry, hfind, hout⟩
  have hentry := List.mem_of_find?_eq_some hfind
  simp only [Prod.mk.injEq] at hout
  rcases hout with ⟨htype, hvm, htrace⟩
  refine ⟨hreach, fun hrecovers => ?_, entry, hentry, htype, hvm, htrace⟩
  have hstart := hrecovers entry hentry (Or.inl htype) "chrome-vm" hvm (by decide) unreachable
    (failing_of_error rfl)
  simp [htrace] at hstart

/-! ## The status of an application -/

def Effect.change (r : Registry) : Effect → Registry
  | updateState name status => r.after (r.updateState name status)
  | deregister name => r.after (r.deregister name (r.cascade name))
  | _ => r

def registryAfter (r : Registry) (trace : List Effect) : Registry := trace.foldl Effect.change r

/-- An application is gone if it has exited, and has the reported status otherwise. -/
def Settled (entry : RegistryEntry) (status : UnitStatus) (found : Option RegistryEntry) : Prop :=
  found = if status.isExitted then none else some { entry with status := status }

section Applications

variable {r : Registry} {tls : Option TlsConfig} {answers : Answers} {entry found : RegistryEntry}
  {status : UnitStatus}

theorem registryAfter_getRemoteStatus :
    registryAfter r (getRemoteStatus r tls answers entry).trace = r := by
  have hasks : ∀ effect ∈ (getRemoteStatus r tls answers entry).trace,
      ∀ r : Registry, effect.change r = r :=
    emits_getRemoteStatus fun _ _ => rfl
  unfold registryAfter
  generalize (getRemoteStatus r tls answers entry).trace = trace at hasks
  induction trace with
  | nil => rfl
  | cons effect trace ih =>
      rw [List.forall_mem_cons] at hasks
      rw [List.foldl_cons, hasks.1 r]
      exact ih hasks.2

theorem trace_handleError_app (htype : entry.type = ⟨.appVM, .app⟩)
    (hfound : r.get entry.name = some found) : (handleError r tls answers entry).trace =
      if entry.status.isExitted then [.deregister entry.name] else [] := by
  unfold handleError
  rw [htype]
  dsimp only
  split
  · rw [Registry.deregister, hfound]
    rfl
  · rfl

theorem change_updateState (hentry : entry ∈ r.entries) :
    (Effect.updateState entry.name status).change r = r.setStatus entry.name status := by
  change r.after (r.updateState entry.name status) = r.setStatus entry.name status
  rw [Registry.updateState, Registry.get_of_mem hentry]
  rfl

theorem get_change_deregister (name : String) :
    ((Effect.deregister name).change r).get name = none := by
  change (r.after (r.deregister name (r.cascade name))).get name = none
  cases h : r.deregister name (r.cascade name) with
  | error message =>
      cases hget : r.get name with
      | none => exact hget
      | some found => simp [Registry.deregister, hget] at h
  | ok changed =>
      have hannounced : name ∈ Registry.announced changed.2 := by
        rw [Registry.announced_deregister h]
        simp
      change changed.1.get name = none
      rw [Registry.get_deregister h (List.Perm.refl _), if_pos hannounced]

end Applications

/-- The monitor settles an application by its reported status exactly when a status that is
invalid or inactive says the same about an exit as the recorded one: the decision is made on
the copy taken before the query. -/
theorem monitorRoutine_settles_iff {r : Registry} {entry : RegistryEntry} {tls : Option TlsConfig}
    {answers : Answers} {status : UnitStatus} (hentry : entry ∈ r.entries)
    (htype : entry.type = ⟨.appVM, .app⟩)
    (hstatus : (getRemoteStatus r tls answers entry).result = .ok status) :
    Settled entry status
      ((registryAfter r (monitorRoutine r tls answers entry).trace).get entry.name) ↔
    (status.isValid = false ∨ status.activeState ≠ "active" →
      entry.status.isExitted = status.isExitted) := by
  have hrecorded : (r.setStatus entry.name status).get entry.name =
      some { entry with status := status } := by
    rw [Registry.get_setStatus, if_pos rfl, Registry.get_of_mem hentry]
    rfl
  have hsame : registryAfter r (monitorRoutine r tls answers entry).trace =
      registryAfter (r.setStatus entry.name status)
        (if !status.isValid || status.activeState ≠ "active" then
          (handleError (r.setStatus entry.name status) tls answers entry).trace
        else []) := by
    rw [trace_monitorRoutine_of_ok hentry hstatus, registryAfter, List.foldl_append,
      List.foldl_cons]
    change (_ : List Effect).foldl Effect.change ((Effect.updateState entry.name status).change
      (registryAfter r (getRemoteStatus r tls answers entry).trace)) = _
    rw [registryAfter_getRemoteStatus, change_updateState hentry]
    rfl
  rw [hsame]
  by_cases hbad : status.isValid = false ∨ status.activeState ≠ "active"
  · rw [if_pos (by simpa using hbad), trace_handleError_app htype hrecorded]
    simp only [hbad, forall_const]
    cases hold : entry.status.isExitted with
    | true =>
        have hgone := get_change_deregister (r := r.setStatus entry.name status) entry.name
        simp only [registryAfter, if_true, List.foldl_cons, List.foldl_nil, hgone, Settled]
        cases status.isExitted <;> simp
    | false =>
        simp only [registryAfter, Bool.false_eq_true, if_false, List.foldl_nil, hrecorded, Settled]
        cases status.isExitted <;> simp
  · have hactive : status.isExitted = false := by
      simp only [not_or, not_not] at hbad
      simp [UnitStatus.isExitted, hbad.2]
    rw [if_neg (by simpa using hbad)]
    simp only [registryAfter, List.foldl_nil, hrecorded, Settled, hactive]
    simp [hbad]

def chromiumStatus (activeState subState : String) : UnitStatus :=
  ⟨"chromium@1.service", "", "loaded", activeState, subState, "", "running"⟩

def chromiumRegistry : Registry :=
  (chromeRegistry.register (appEntry (chromiumStatus "active" "running") (.vm "chrome-vm"))).1

def reports (status : UnitStatus) : Answers := ⟨.ok status, .error [], .error [], .error []⟩

/-- The entry of the name after rounds of the monitor, one for each reported status. -/
def poll (name : String) : Registry → List UnitStatus → Option RegistryEntry
  | r, [] => r.get name
  | r, status :: rest =>
      match r.get name with
      | some entry =>
          poll name (registryAfter r (monitorRoutine r none (reports status) entry).trace) rest
      | none => none

theorem monitorRoutine_settles_iff_chromium :
    ∃ entry ∈ chromiumRegistry.entries, entry.type = ⟨.appVM, .app⟩ ∧
      entry.status = chromiumStatus "active" "running" ∧
      Settled entry (chromiumStatus "failed" "failed")
        ((registryAfter chromiumRegistry (monitorRoutine chromiumRegistry none
          (reports (chromiumStatus "failed" "failed")) entry).trace).get entry.name) := by
  have hfind : (chromiumRegistry.get "chromium@1.service").map (fun entry => (entry.type,
      entry.status, (getRemoteStatus chromiumRegistry none
        (reports (chromiumStatus "failed" "failed")) entry).result)) =
      some (⟨.appVM, .app⟩, chromiumStatus "active" "running",
        .ok (chromiumStatus "failed" "failed")) := by
    decide +kernel
  rcases Option.map_eq_some_iff.mp hfind with ⟨entry, hget, hout⟩
  simp only [Prod.mk.injEq] at hout
  rcases hout with ⟨htype, hstatus, hresult⟩
  have hentry := (Registry.get_eq_some.mp hget).1
  refine ⟨entry, hentry, htype, hstatus, (monitorRoutine_settles_iff hentry htype hresult).mpr ?_⟩
  intro _
  rw [hstatus]
  decide

/-- An application that has exited stays registered after the round that finds it; the next
round removes it, although it is being started again. -/
theorem monitorRoutine_lags_behind :
    (poll "chromium@1.service" chromiumRegistry [chromiumStatus "inactive" "dead"]).map
        RegistryEntry.status =
      some (chromiumStatus "inactive" "dead") ∧
    poll "chromium@1.service" chromiumRegistry
        [chromiumStatus "inactive" "dead", chromiumStatus "activating" "start"] =
      none := by
  decide +kernel

end Monitor

end GhafGivc.Admin
