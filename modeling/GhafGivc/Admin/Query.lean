import GhafGivc.Core.Fallible
import GhafGivc.Core.PartialKeys
import GhafGivc.Core.Replay
import GhafGivc.Admin.Entry

/-! # Query results and watch events

What clients see of the registry: a query result for each entry, and events that add,
update or remove one. On the wire enumerations are sent by name, and the first item of a
watch stream is the list of all results.
-/

namespace GhafGivc.Admin

open Core

inductive VMStatus where
  | running
  | poweredOff
  | paused
deriving DecidableEq

inductive TrustLevel where
  | secure
  | warning
  | notSecure
deriving DecidableEq

structure QueryResult where
  name : String
  description : String
  status : VMStatus
  trustLevel : TrustLevel
  vmType : VmType
  serviceType : ServiceType
  vmName : Option String
  agentName : Option String
deriving DecidableEq

def RegistryEntry.toQueryResult (entry : RegistryEntry) : QueryResult where
  name := entry.name
  description := entry.status.description
  status :=
    if entry.status.isRunning then .running
    else if entry.status.isPaused then .paused
    else .poweredOff
  trustLevel := .warning
  vmType := entry.type.vm
  serviceType := entry.type.service
  vmName := entry.vmName
  agentName := entry.agentName

inductive Event where
  | unitStatusChanged (result : QueryResult)
  | unitRegistered (result : QueryResult)
  | unitShutdown (result : QueryResult)
deriving DecidableEq

def Event.edit : Event → String × Edit QueryResult
  | .unitStatusChanged result => (result.name, .replace result)
  | .unitRegistered result => (result.name, .put result)
  | .unitShutdown result => (result.name, .drop)

/-- The names of the values of an enumeration; parsing looks a name up. -/
def parseName {α : Type} (name : α → String) (values : List α) (field text : String) :
    Except String α :=
  match values.find? fun value => name value = text with
  | some value => .ok value
  | none => .error ("While parsing " ++ field ++ " " ++ text)

theorem parseName_name {α : Type} {name : α → String} {values : List α} {value : α}
    (hnames : (values.map name).Nodup) (hmem : value ∈ values) (field : String) :
    parseName name values field (name value) = .ok value := by
  rw [parseName, (find?_key_eq_some_iff hnames).mpr ⟨hmem, rfl⟩]

def VMStatus.name : VMStatus → String
  | running => "Running"
  | poweredOff => "PoweredOff"
  | paused => "Paused"

def TrustLevel.name : TrustLevel → String
  | secure => "Secure"
  | warning => "Warning"
  | notSecure => "NotSecure"

def VmType.name : VmType → String
  | host => "Host"
  | admVM => "AdmVM"
  | sysVM => "SysVM"
  | appVM => "AppVM"

def ServiceType.name : ServiceType → String
  | mgr => "Mgr"
  | svc => "Svc"
  | app => "App"
  | vm => "VM"

def VMStatus.parse : String → Except String VMStatus :=
  parseName VMStatus.name [.running, .poweredOff, .paused] "vm_status"

def TrustLevel.parse : String → Except String TrustLevel :=
  parseName TrustLevel.name [.secure, .warning, .notSecure] "trust_level"

def VmType.parse : String → Except String VmType :=
  parseName VmType.name [.host, .admVM, .sysVM, .appVM] "vm_type"

def ServiceType.parse : String → Except String ServiceType :=
  parseName ServiceType.name [.mgr, .svc, .app, .vm] "service_type"

@[simp] theorem VMStatus.parse_name (status : VMStatus) : parse status.name = .ok status :=
  parseName_name (by decide) (by cases status <;> decide) _

@[simp] theorem TrustLevel.parse_name (level : TrustLevel) : parse level.name = .ok level :=
  parseName_name (by decide) (by cases level <;> decide) _

@[simp] theorem VmType.parse_name (ty : VmType) : parse ty.name = .ok ty :=
  parseName_name (by decide) (by cases ty <;> decide) _

@[simp] theorem ServiceType.parse_name (ty : ServiceType) : parse ty.name = .ok ty :=
  parseName_name (by decide) (by cases ty <;> decide) _

structure QueryListItem where
  name : String
  description : String
  vmStatus : String
  trustLevel : String
  vmType : String
  serviceType : String
  vmName : Option String
  agentName : Option String
deriving DecidableEq

def QueryResult.toItem (result : QueryResult) : QueryListItem :=
  ⟨result.name, result.description, result.status.name, result.trustLevel.name,
    result.vmType.name, result.serviceType.name, result.vmName, result.agentName⟩

def QueryResult.tryFrom (item : QueryListItem) : Except String QueryResult := do
  let status ← VMStatus.parse item.vmStatus
  let trustLevel ← TrustLevel.parse item.trustLevel
  let vmType ← VmType.parse item.vmType
  let serviceType ← ServiceType.parse item.serviceType
  return ⟨item.name, item.description, status, trustLevel, vmType, serviceType, item.vmName,
    item.agentName⟩

inductive WatchStatus where
  | initial (list : List QueryListItem)
  | added (value : QueryListItem)
  | updated (value : QueryListItem)
  | removed (value : QueryListItem)
deriving DecidableEq

structure WatchItem where
  status : Option WatchStatus
deriving DecidableEq

def Event.intoInitial (items : List QueryResult) : WatchItem :=
  ⟨some (.initial (items.map QueryResult.toItem))⟩

def Event.toItem : Event → WatchItem
  | .unitRegistered result => ⟨some (.added result.toItem)⟩
  | .unitStatusChanged result => ⟨some (.updated result.toItem)⟩
  | .unitShutdown result => ⟨some (.removed result.toItem)⟩

def Event.tryFrom (item : WatchItem) : Except String Event :=
  match item.status with
  | some (.initial _) => .error "Unexpected repeated Status::Initial"
  | some (.added value) => Event.unitRegistered <$> QueryResult.tryFrom value
  | some (.updated value) => Event.unitStatusChanged <$> QueryResult.tryFrom value
  | some (.removed value) => Event.unitShutdown <$> QueryResult.tryFrom value
  | none => .error "WatchItem missing"

@[simp] theorem QueryResult.tryFrom_toItem (result : QueryResult) :
    QueryResult.tryFrom result.toItem = .ok result := by
  simp [tryFrom, toItem]

@[simp] theorem Event.tryFrom_toItem (event : Event) :
    Event.tryFrom event.toItem = .ok event := by
  cases event <;> simp [tryFrom, toItem, Functor.map, Except.map]

def viewOf (results : List QueryResult) (name : String) : Option QueryResult :=
  results.find? fun result => result.name = name

abbrev replayEvents (events : List Event) (view : String → Option QueryResult) :
    String → Option QueryResult :=
  replay (events.map Event.edit) view

/-- The view of a client that read the first item and then `items`. -/
def clientView (first : WatchItem) (items : List WatchItem) :
    Except String (String → Option QueryResult) :=
  match first.status with
  | some (.initial list) => do
      let results ← list.mapM QueryResult.tryFrom
      let events ← items.mapM Event.tryFrom
      return replayEvents events (viewOf results)
  | some _ => .error
      "Protocol error, first item in stream not pb::admin::watch_item::Status::Initial"
  | none => .error "Protocol error, initial item missing"

theorem clientView_toItem (results : List QueryResult) (events : List Event) :
    clientView (Event.intoInitial results) (events.map Event.toItem) =
      .ok (replayEvents events (viewOf results)) := by
  have hresults := Fallible.mapM_map_of_ok QueryResult.tryFrom_toItem results
  have hevents := Fallible.mapM_map_of_ok Event.tryFrom_toItem events
  simp [clientView, Event.intoInitial, hresults, hevents]

end GhafGivc.Admin
