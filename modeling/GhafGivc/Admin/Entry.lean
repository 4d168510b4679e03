import GhafGivc.Core.Fallible
import GhafGivc.Core.Text

/-! # Registry entries

An entry is a unit known to the admin service: an agent, a service or application that an
agent manages, or a VM unit of the host. Its placement tells which agent answers for it and
which VM it runs in.
-/

namespace GhafGivc.Admin

open Core

def parseVmName (name : String) : Option String := do
  let rest ← Text.stripLead "microvm@".toList name.toList
  let vm ← Text.stripTrail ".service".toList rest
  return String.ofList vm

theorem parseVmName_eq_some {name vm : String} :
    parseVmName name = some vm ↔ name = "microvm@" ++ vm ++ ".service" := by
  constructor
  · intro h
    obtain ⟨rest, hrest, h⟩ := Option.bind_eq_some_iff.mp h
    obtain ⟨found, hfound, h⟩ := Option.bind_eq_some_iff.mp h
    obtain rfl := Option.some.inj h
    have hname := Text.stripLead_eq_some.mp hrest
    rw [Text.stripTrail_eq_some.mp hfound] at hname
    refine String.toList_inj.mp ?_
    simpa using hname
  · rintro rfl
    have hlead : Text.stripLead "microvm@".toList ("microvm@" ++ vm ++ ".service").toList =
        some (vm.toList ++ ".service".toList) := Text.stripLead_eq_some.mpr (by simp)
    have htrail : Text.stripTrail ".service".toList (vm.toList ++ ".service".toList) =
        some vm.toList := Text.stripTrail_eq_some.mpr rfl
    simp only [parseVmName, hlead, Option.bind_eq_bind, Option.bind_some, htrail]
    exact congrArg some String.ofList_toList

inductive VmName where
  | vm (name : String)
  | app (name : String)
deriving DecidableEq

namespace VmName

def display : VmName → String
  | vm name => name
  | app name => name ++ "-vm"

def agentService (name : VmName) : String := "givc-" ++ name.display ++ ".service"

def vmService (name : VmName) : String := "microvm@" ++ name.display ++ ".service"

end VmName

inductive VmType where
  | host
  | admVM
  | sysVM
  | appVM
deriving DecidableEq

inductive ServiceType where
  | mgr
  | svc
  | app
  | vm
deriving DecidableEq

structure UnitType where
  vm : VmType
  service : ServiceType
deriving DecidableEq

def UnitType.ofNat : Nat → Option UnitType
  | 0 => some ⟨.host, .mgr⟩
  | 1 => some ⟨.host, .svc⟩
  | 2 => some ⟨.host, .app⟩
  | 3 => some ⟨.admVM, .vm⟩
  | 4 => some ⟨.admVM, .mgr⟩
  | 5 => some ⟨.admVM, .svc⟩
  | 6 => some ⟨.admVM, .app⟩
  | 7 => some ⟨.sysVM, .vm⟩
  | 8 => some ⟨.sysVM, .mgr⟩
  | 9 => some ⟨.sysVM, .svc⟩
  | 10 => some ⟨.sysVM, .app⟩
  | 11 => some ⟨.appVM, .vm⟩
  | 12 => some ⟨.appVM, .mgr⟩
  | 13 => some ⟨.appVM, .svc⟩
  | 14 => some ⟨.appVM, .app⟩
  | _ => none

structure UnitStatus where
  name : String
  description : String
  loadState : String
  activeState : String
  subState : String
  path : String
  freezerState : String
deriving DecidableEq

namespace UnitStatus

def isPaused (status : UnitStatus) : Bool := status.freezerState = "frozen"

def isRunning (status : UnitStatus) : Bool :=
  !status.isPaused && (status.activeState = "active" && (status.loadState = "loaded" &&
    status.subState = "running"))

end UnitStatus

inductive EndpointAddress where
  | tcp (addr : String) (port : Nat)
  | unix (path : String)
  | abstract (name : String)
  | vsock (cid port : Nat)
deriving DecidableEq

structure EndpointEntry where
  address : EndpointAddress
  tlsName : String
deriving DecidableEq

structure TransportConfig where
  protocol : String
  address : String
  port : String
  name : String
deriving DecidableEq

inductive RequestError where
  | unknownUnitType (value : Nat)
  | statusMissing
  | endpointMissing
  | notANumber (text : String)
  | unknownProtocol (protocol : String)
deriving DecidableEq

def parseNumber (width : Nat) (text : String) : Except RequestError Nat :=
  match Text.parseUnsigned width text.toList with
  | some n => .ok n
  | none => .error (.notANumber text)

def EndpointEntry.tryFrom (tc : TransportConfig) : Except RequestError EndpointEntry := do
  let address ←
    if tc.protocol = "tcp" then do
      let port ← parseNumber 16 tc.port
      pure (EndpointAddress.tcp tc.address port)
    else if tc.protocol = "unix" then pure (EndpointAddress.unix tc.address)
    else if tc.protocol = "abstract" then pure (EndpointAddress.abstract tc.address)
    else if tc.protocol = "vsock" then do
      let cid ← parseNumber 32 tc.address
      let port ← parseNumber 32 tc.port
      pure (EndpointAddress.vsock cid port)
    else throw (.unknownProtocol tc.protocol)
  return ⟨address, tc.name⟩

inductive Placement where
  | endpoint (endpoint : EndpointEntry) (vm : String)
  | managed (vm : String) (managedBy : String)
  | host
deriving DecidableEq

structure RegistryEntry where
  name : String
  type : UnitType
  status : UnitStatus
  placement : Placement
  watch : Bool
deriving DecidableEq

namespace RegistryEntry

/-- The agent that answers for the unit: an endpoint answers for itself. -/
def agentName (entry : RegistryEntry) : Option String :=
  match entry.placement with
  | .endpoint _ _ => some entry.name
  | .managed _ managedBy => some managedBy
  | .host => none

def vmName (entry : RegistryEntry) : Option String :=
  match entry.type.service, entry.placement with
  | .vm, _ => parseVmName entry.name
  | _, .endpoint _ vm => some vm
  | _, .managed vm _ => parseVmName vm
  | _, .host => none

theorem vmName_of_endpoint {entry : RegistryEntry} {endpoint : EndpointEntry} {vm : String}
    (h : entry.placement = .endpoint endpoint vm) :
    entry.vmName = if entry.type.service = .vm then parseVmName entry.name else some vm := by
  cases hservice : entry.type.service <;> simp [vmName, hservice, h]

end RegistryEntry

structure RegistryRequest where
  name : String
  type : Nat
  parent : String
  transport : Option TransportConfig
  state : Option UnitStatus
deriving DecidableEq

/-- Every registered unit becomes an endpoint, in the VM its parent names. -/
def RegistryEntry.tryFrom (req : RegistryRequest) : Except RequestError RegistryEntry := do
  let ty ← (UnitType.ofNat req.type).elim (throw (.unknownUnitType req.type)) pure
  let status ← req.state.elim (throw .statusMissing) pure
  let transport ← req.transport.elim (throw .endpointMissing) pure
  let endpoint ← EndpointEntry.tryFrom transport
  let watch := ty.service = .mgr ∨ (ty.vm = .appVM ∧ ty.service ≠ .svc)
  return ⟨req.name, ty, status, .endpoint endpoint ((parseVmName req.parent).getD ""), watch⟩

theorem tryFrom_eq_ok {entry : RegistryEntry} {req : RegistryRequest}
    (h : RegistryEntry.tryFrom req = .ok entry) :
    entry.name = req.name ∧ UnitType.ofNat req.type = some entry.type ∧
      ∃ endpoint, entry.placement = .endpoint endpoint ((parseVmName req.parent).getD "") := by
  obtain ⟨ty, hty, h⟩ := Fallible.bind_eq_ok.mp h
  obtain ⟨status, -, h⟩ := Fallible.bind_eq_ok.mp h
  obtain ⟨transport, -, h⟩ := Fallible.bind_eq_ok.mp h
  obtain ⟨endpoint, -, h⟩ := Fallible.bind_eq_ok.mp h
  obtain rfl := Except.ok.inj h
  exact ⟨rfl, Fallible.elim_eq_ok.mp hty, endpoint, rfl⟩

def appEntry (status : UnitStatus) (vm : VmName) : RegistryEntry :=
  ⟨status.name, ⟨.appVM, .app⟩, status, .managed vm.vmService vm.agentService, true⟩

def agentEntry (vm activeState : String) : RegistryEntry where
  name := "givc-" ++ vm ++ ".service"
  type := ⟨.appVM, .mgr⟩
  status := ⟨"givc-" ++ vm ++ ".service", "agent", "loaded", activeState, "running", "", "running"⟩
  placement := .endpoint ⟨.tcp "192.168.101.10" 9000, vm⟩ vm
  watch := true

end GhafGivc.Admin
