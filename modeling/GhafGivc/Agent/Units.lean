import GhafGivc.Agent.Control
import GhafGivc.Admin.Entry
import GhafGivc.Core.Traced
import Mathlib.Data.List.DropRight

/-! # Requests about units

The agent answers requests to start, stop, kill, freeze and unfreeze a unit, and for its
status. Each looks the name up behind the whitelist, has systemd act on every unit found, and
looks the name up again for the status that it answers with. What systemd answers during a
request is data.
-/

namespace GhafGivc.Agent

open Core
open Admin (UnitStatus)

structure ListedUnit where
  name : String
  description : String
  loadState : String
  activeState : String
  subState : String
  path : String
deriving DecidableEq

/-- What systemd answers during one request: to the two lookups, to what is asked for a unit
(a job is answered with how it ended), and for the freezer state. -/
structure Systemd where
  list : String → Except String (List ListedUnit)
  listAgain : String → Except String (List ListedUnit)
  restart : String → Except String String
  stop : String → Except String String
  kill : String → Except String Unit
  freeze : String → Except String Unit
  thaw : String → Except String Unit
  freezerState : String → Except String String

inductive UnitCall where
  | restart (unit : String)
  | stop (unit : String)
  | kill (unit : String)
  | freeze (unit : String)
  | thaw (unit : String)
deriving DecidableEq

structure RpcError where
  notFound : Bool
  message : String
deriving DecidableEq

structure Controller where
  compile : String → Option (String → Bool)
  whitelist : List String

namespace Controller

variable (c : Controller) (systemd : Systemd) (name : String)

def findUnit (list : String → Except String (List ListedUnit)) :
    Traced UnitCall String (List ListedUnit) :=
  ⟨[], Agent.findUnit c.compile c.whitelist list name⟩

/-- What the five operations share. -/
def forUnits (act : ListedUnit → Traced UnitCall String Unit) : Traced UnitCall String Unit :=
  if name = "" then Traced.call (.error "incorrect input, must be unit name")
  else do
    let units ← c.findUnit name systemd.list
    units.forM act

def job (call : String → UnitCall) (answer : String → Except String String)
    (failure : String → String) (unit : ListedUnit) : Traced UnitCall String Unit := do
  Traced.emit (call unit.name)
  let status ← Traced.call (answer unit.name)
  if status = "done" then pure () else Traced.call (.error (failure status))

def ask (call : String → UnitCall) (answer : String → Except String Unit) (unit : ListedUnit) :
    Traced UnitCall String Unit := do
  Traced.emit (call unit.name)
  Traced.call (answer unit.name)

def startUnit : Traced UnitCall String Unit :=
  c.forUnits systemd name (job .restart systemd.restart
    fun status => "failed to (re)start unit " ++ name ++ ": " ++ status)

def stopUnit : Traced UnitCall String Unit :=
  c.forUnits systemd name (job .stop systemd.stop
    fun status => "unit " ++ name ++ " stop " ++ status)

/-- What systemd answers is dropped. -/
def killUnit : Traced UnitCall String Unit :=
  c.forUnits systemd name fun unit => do
    let _ ← (Traced.attempt (ask .kill systemd.kill unit) :
      Traced UnitCall String (Except String Unit))
    pure ()

def freezeUnit : Traced UnitCall String Unit :=
  c.forUnits systemd name (ask .freeze systemd.freeze)

def unfreezeUnit : Traced UnitCall String Unit :=
  c.forUnits systemd name (ask .thaw systemd.thaw)

/-- `strings.Trim(text, "\"")` -/
def trimQuotes (text : String) : String :=
  String.ofList ((text.toList.dropWhile (· = '"')).rdropWhile (· = '"'))

def freezerState : String :=
  if name = "" then "error"
  else
    match systemd.freezerState name with
    | .ok text => trimQuotes text
    | .error _ => "error"

def getUnitStatus (list : String → Except String (List ListedUnit)) :
    Traced UnitCall RpcError UnitStatus :=
  match (c.findUnit name list).result with
  | .panicked => Traced.panic
  | .err _ => Traced.call (.error ⟨true, "error fetching unit status: " ++ name⟩)
  | .ok [unit] => pure ⟨unit.name, unit.description, unit.loadState, unit.activeState,
      unit.subState, unit.path, freezerState systemd name⟩
  | .ok units => Traced.call
      (.error ⟨true, "error, got " ++ toString units.length ++ " units named " ++ name⟩)

/-- The status answered for a transient unit that is gone; any failure counts as that. -/
def orDead (status : Traced UnitCall RpcError UnitStatus) :
    Traced UnitCall RpcError UnitStatus := do
  let found ← (Traced.attempt status : Traced UnitCall RpcError (Except RpcError UnitStatus))
  match found with
  | .ok status => pure status
  | .error _ => pure ⟨name, "", "", "inactive", "dead", "", ""⟩

end Controller

/-! ## Requests -/

inductive UnitRequest where
  | status
  | start
  | stop
  | kill
  | freeze
  | unfreeze
deriving DecidableEq

namespace Controller

/-- The operation comes first; without its error, the status is read. -/
def respond (message : String) (operation : Traced UnitCall String Unit)
    (status : Traced UnitCall RpcError UnitStatus) : Traced UnitCall RpcError UnitStatus := do
  operation.mapError fun error => ⟨false, message ++ error⟩
  status

variable (c : Controller) (systemd : Systemd) (name : String)

def serve : UnitRequest → Traced UnitCall RpcError UnitStatus
  | .status => c.getUnitStatus systemd name systemd.list
  | .start => respond "cannot start unit: " (c.startUnit systemd name)
      (c.getUnitStatus systemd name systemd.listAgain)
  | .stop => respond "cannot stop unit: " (c.stopUnit systemd name)
      (orDead name (c.getUnitStatus systemd name systemd.listAgain))
  | .kill => respond "cannot kill unit: " (c.killUnit systemd name)
      (orDead name (c.getUnitStatus systemd name systemd.listAgain))
  | .freeze => respond "cannot freeze unit: " (c.freezeUnit systemd name)
      (c.getUnitStatus systemd name systemd.listAgain)
  | .unfreeze => respond "cannot unfreeze unit: " (c.unfreezeUnit systemd name)
      (c.getUnitStatus systemd name systemd.listAgain)

end Controller

/-! ## What a request does -/

def UnitRequest.calls (unit : String) : UnitRequest → List UnitCall
  | status => []
  | start => [.restart unit]
  | stop => [.stop unit]
  | kill => [.kill unit]
  | freeze => [.freeze unit]
  | unfreeze => [.thaw unit]

/-- Systemd did for the unit what was requested; of a kill nothing is known. -/
def UnitRequest.Done (systemd : Systemd) (unit : String) : UnitRequest → Prop
  | status | kill => True
  | start => systemd.restart unit = .ok "done"
  | stop => systemd.stop unit = .ok "done"
  | freeze => systemd.freeze unit = .ok ()
  | unfreeze => systemd.thaw unit = .ok ()

/-- The name passes the whitelist and systemd lists these units under it. -/
structure Controller.Finds (c : Controller) (systemd : Systemd) (name : String)
    (units : List ListedUnit) : Prop where
  whitelisted : isUnitWhitelisted c.compile c.whitelist name = .ok true
  listed : systemd.list name = .ok units

section Requests

variable {c : Controller} {systemd : Systemd} {name : String} {units : List ListedUnit}
  {act : ListedUnit → Traced UnitCall String Unit} {request : UnitRequest}
  {call : String → UnitCall} {unit : ListedUnit} {status : Traced UnitCall RpcError UnitStatus}
  {answer : UnitStatus}

theorem finds_of_findUnit (h : (c.findUnit name systemd.list).result = .ok units) :
    c.Finds systemd name units := by
  change Agent.findUnit c.compile c.whitelist systemd.list name = .ok units at h
  unfold Agent.findUnit at h
  split at h
  · cases h
  · cases ‹Empty›
  · cases h
  · rename_i hwhitelisted
    split at h
    · cases h
    · cases h
    · rename_i hlist
      cases h
      exact ⟨hwhitelisted, hlist⟩

theorem emits_forUnits {P : UnitCall → Prop}
    (h : ∀ units, c.Finds systemd name units → ∀ unit ∈ units, Traced.Emits P (act unit)) :
    Traced.Emits P (c.forUnits systemd name act) := by
  unfold Controller.forUnits
  split
  · exact Traced.emits_call _
  · refine Traced.Emits.bind_of_ok (by simp [Traced.Emits, Controller.findUnit]) ?_
    intro units hfound
    exact Traced.emits_forM (h units (finds_of_findUnit hfound))

theorem forUnits_of_ok (h : (c.forUnits systemd name act).result = .ok ()) :
    ∃ units, c.Finds systemd name units ∧ (∀ unit ∈ units, (act unit).result = .ok ()) ∧
      (c.forUnits systemd name act).trace = units.flatMap fun unit => (act unit).trace := by
  unfold Controller.forUnits at h ⊢
  split at h
  · cases h
  · rename_i hname
    rw [Traced.result_bind, Outcome.bind_eq_ok] at h
    rcases h with ⟨units, hfound, hacts⟩
    have hok := Traced.result_forM_eq_ok.mp hacts
    refine ⟨units, finds_of_findUnit hfound, hok, ?_⟩
    rw [if_neg hname, Traced.trace_bind_of_ok hfound, Traced.trace_forM_of_ok hok]
    rfl

theorem result_job_eq_ok {answer : String → Except String String} {failure : String → String} :
    (Controller.job call answer failure unit).result = .ok () ↔ answer unit.name = .ok "done" := by
  unfold Controller.job
  rw [Traced.result_emit_bind, Traced.result_bind, Outcome.bind_eq_ok]
  constructor
  · rintro ⟨status, hanswer, hdone⟩
    rw [Traced.result_call_eq_ok] at hanswer
    split at hdone
    · rename_i heq
      rw [hanswer, heq]
    · cases hdone
  · intro h
    exact ⟨"done", Traced.result_call_eq_ok.mpr h, rfl⟩

theorem trace_job (call : String → UnitCall) (answer : String → Except String String)
    (failure : String → String) (unit : ListedUnit) :
    (Controller.job call answer failure unit).trace = [call unit.name] := by
  unfold Controller.job
  rw [Traced.trace_emit_bind]
  cases answer unit.name with
  | error e => rfl
  | ok status =>
      rw [Traced.call_ok_bind]
      split <;> rfl

theorem ask_of_ok {answer : String → Except String Unit}
    (h : (Controller.ask call answer unit).result = .ok ()) : answer unit.name = .ok () := by
  unfold Controller.ask at h
  rw [Traced.result_emit_bind, Traced.result_call_eq_ok] at h
  exact h

theorem trace_ask (call : String → UnitCall) (answer : String → Except String Unit)
    (unit : ListedUnit) : (Controller.ask call answer unit).trace = [call unit.name] := by
  unfold Controller.ask
  rw [Traced.trace_emit_bind]
  cases answer unit.name <;> rfl

theorem attempt_kill (kill : String → Except String Unit) (unit : ListedUnit) :
    (do
      let _ ← (Traced.attempt (Controller.ask .kill kill unit) :
        Traced UnitCall String (Except String Unit))
      pure ()) = (⟨[.kill unit.name], .ok ()⟩ : Traced UnitCall String Unit) := by
  cases hkill : kill unit.name <;>
    simp [Controller.ask, hkill, Traced.attempt, Traced.call, Bind.bind, Traced.bind, Traced.emit]

theorem trace_getUnitStatus (c : Controller) (systemd : Systemd) (name : String)
    (list : String → Except String (List ListedUnit)) :
    (c.getUnitStatus systemd name list).trace = [] := by
  unfold Controller.getUnitStatus
  split <;> rfl

theorem trace_orDead (h : status.trace = []) : (Controller.orDead name status).trace = [] := by
  unfold Controller.orDead
  cases hresult : status.result with
  | ok found => rw [Traced.trace_attempt_bind_of_ok hresult, h]; rfl
  | err error => rw [Traced.trace_attempt_bind_of_err hresult, h]; rfl
  | panicked => simp [Bind.bind, Traced.bind, Traced.attempt, hresult, h]

/-- What an operation has to do to be the one of a request. -/
structure UnitRequest.Implements (request : UnitRequest) (systemd : Systemd)
    (act : ListedUnit → Traced UnitCall String Unit) : Prop where
  trace : ∀ unit, (act unit).trace = request.calls unit.name
  done : ∀ unit, (act unit).result = .ok () → request.Done systemd unit.name

/-- A request other than for the status is an operation and a status that is read. -/
theorem exists_operation (c : Controller) (systemd : Systemd) (name : String)
    (h : request ≠ .status) :
    ∃ message act status, request.Implements systemd act ∧ status.trace = [] ∧
      c.serve systemd name request =
        Controller.respond message (c.forUnits systemd name act) status := by
  have hstatus := trace_getUnitStatus c systemd name systemd.listAgain
  cases request with
  | status => exact absurd rfl h
  | start => exact ⟨_, _, _, ⟨trace_job _ _ _, fun _ => result_job_eq_ok.mp⟩, hstatus, rfl⟩
  | stop =>
      exact ⟨_, _, _, ⟨trace_job _ _ _, fun _ => result_job_eq_ok.mp⟩, trace_orDead hstatus, rfl⟩
  | kill =>
      refine ⟨_, _, _, ⟨fun unit => ?_, fun _ _ => trivial⟩, trace_orDead hstatus, rfl⟩
      rw [attempt_kill]
      rfl
  | freeze => exact ⟨_, _, _, ⟨trace_ask _ _, fun _ => ask_of_ok⟩, hstatus, rfl⟩
  | unfreeze => exact ⟨_, _, _, ⟨trace_ask _ _, fun _ => ask_of_ok⟩, hstatus, rfl⟩

theorem emits_serve (c : Controller) (systemd : Systemd) (name : String) (request : UnitRequest) :
    Traced.Emits (fun call => ∃ units, c.Finds systemd name units ∧
      ∃ unit ∈ units, call ∈ request.calls unit.name) (c.serve systemd name request) := by
  by_cases hrequest : request = .status
  · subst hrequest
    intro call hcall
    have hnone : (c.serve systemd name .status).trace = [] :=
      trace_getUnitStatus c systemd name systemd.list
    rw [hnone] at hcall
    cases hcall
  · rcases exists_operation c systemd name hrequest with ⟨message, act, status, hact, hstatus, heq⟩
    rw [heq]
    have hoperation : Traced.Emits (fun call => ∃ units, c.Finds systemd name units ∧
        ∃ unit ∈ units, call ∈ request.calls unit.name) (c.forUnits systemd name act) := by
      apply emits_forUnits
      intro units hfinds unit hunit call hcall
      rw [hact.trace] at hcall
      exact ⟨units, hfinds, unit, hunit, hcall⟩
    refine Traced.Emits.bind hoperation fun _ => ?_
    intro call hcall
    rw [hstatus] at hcall
    cases hcall

theorem serve_of_ok (hrequest : request ≠ .status)
    (h : (c.serve systemd name request).result = .ok answer) :
    ∃ units, c.Finds systemd name units ∧
      (∀ unit ∈ units, request.Done systemd unit.name) ∧
      (c.serve systemd name request).trace =
        units.flatMap fun unit => request.calls unit.name := by
  rcases exists_operation c systemd name hrequest with ⟨message, act, status, hact, hstatus, heq⟩
  rw [heq] at h ⊢
  unfold Controller.respond at h ⊢
  rw [Traced.result_bind, Outcome.bind_eq_ok] at h
  rcases h with ⟨u, hoperation, -⟩
  rcases forUnits_of_ok (Traced.result_mapError_eq_ok.mp hoperation) with
    ⟨units, hfinds, hok, htrace⟩
  refine ⟨units, hfinds, fun unit hunit => hact.done unit (hok unit hunit), ?_⟩
  rw [Traced.trace_bind_of_ok hoperation, hstatus, List.append_nil, Traced.trace_mapError, htrace]
  simp only [hact.trace]

/-- Systemd is called only for the units that it lists under a whitelisted name, and a
request to start, stop, freeze or unfreeze is answered without error only if systemd did so
for all of them. -/
theorem requests_carried_out (c : Controller) (systemd : Systemd) (name : String)
    (request : UnitRequest) :
    (∀ call ∈ (c.serve systemd name request).trace, ∃ units, c.Finds systemd name units ∧
      ∃ unit ∈ units, call ∈ request.calls unit.name) ∧
    (request ≠ .status → ∀ answer, (c.serve systemd name request).result = .ok answer →
      ∃ units, c.Finds systemd name units ∧
        (∀ unit ∈ units, request.Done systemd unit.name) ∧
        (c.serve systemd name request).trace =
          units.flatMap fun unit => request.calls unit.name) :=
  ⟨emits_serve c systemd name request, fun hrequest _ h => serve_of_ok hrequest h⟩

theorem result_forUnits_eq_ok (hname : name ≠ "") (hfinds : c.Finds systemd name units)
    (hunits : units ≠ []) :
    (c.forUnits systemd name act).result = .ok () ↔
      ∀ unit ∈ units, (act unit).result = .ok () := by
  have hfound : (c.findUnit name systemd.list).result = .ok units := by
    cases units with
    | nil => exact absurd rfl hunits
    | cons unit units =>
        simp only [Controller.findUnit, Agent.findUnit, hfinds.whitelisted, hfinds.listed]
  unfold Controller.forUnits
  rw [if_neg hname, Traced.result_bind, hfound, Outcome.ok_bind, Traced.result_forM_eq_ok]

theorem getUnitStatus_cases (systemd : Systemd) {list : String → Except String (List ListedUnit)}
    (hwhitelisted : isUnitWhitelisted c.compile c.whitelist name = .ok true) :
    (∃ unit status, list name = .ok [unit] ∧
        (c.getUnitStatus systemd name list).result = .ok status) ∨
      (∀ unit, list name ≠ .ok [unit]) ∧
        ∃ error, (c.getUnitStatus systemd name list).result = .err error := by
  unfold Controller.getUnitStatus Controller.findUnit Agent.findUnit
  rw [hwhitelisted]
  cases list name with
  | error cause => exact Or.inr ⟨by simp, _, rfl⟩
  | ok units =>
      cases units with
      | nil => exact Or.inr ⟨by simp, _, rfl⟩
      | cons first rest =>
          cases rest with
          | nil => exact Or.inl ⟨first, _, rfl, rfl⟩
          | cons second rest => exact Or.inr ⟨by simp, _, rfl⟩

theorem orDead_getUnitStatus (systemd : Systemd)
    (list : String → Except String (List ListedUnit))
    (hwhitelisted : isUnitWhitelisted c.compile c.whitelist name = .ok true) :
    ∃ answer, (Controller.orDead name (c.getUnitStatus systemd name list)).result = .ok answer ∧
      ((∀ unit, list name ≠ .ok [unit]) →
        answer = ⟨name, "", "", "inactive", "dead", "", ""⟩) := by
  unfold Controller.orDead
  rcases getUnitStatus_cases systemd hwhitelisted with
    ⟨unit, status, hone, hstatus⟩ | ⟨-, error, herror⟩
  · refine ⟨status, ?_, fun hnone => absurd hone (hnone unit)⟩
    simp [Traced.attempt, hstatus]
  · refine ⟨⟨name, "", "", "inactive", "dead", "", ""⟩, ?_, fun _ => rfl⟩
    simp [Traced.attempt, herror]

theorem result_respond_eq_ok {message : String} {operation : Traced UnitCall String Unit} :
    (Controller.respond message operation status).result = .ok answer ↔
      operation.result = .ok () ∧ status.result = .ok answer := by
  unfold Controller.respond
  rw [Traced.result_bind, Outcome.bind_eq_ok]
  constructor
  · rintro ⟨u, hoperation, hstatus⟩
    exact ⟨Traced.result_mapError_eq_ok.mp hoperation, hstatus⟩
  · rintro ⟨hoperation, hstatus⟩
    exact ⟨(), Traced.result_mapError_eq_ok.mpr hoperation, hstatus⟩

/-- The answer to a kill does not depend on what systemd makes of it: it is the same for any
outcome, and a dead unit whenever the name then does not stand for one unit. A stop is
answered without error exactly if systemd reports every job done. -/
theorem kill_ignores_outcome (hname : name ≠ "") (hfinds : c.Finds systemd name units)
    (hunits : units ≠ []) :
    (∀ kill, c.serve { systemd with kill := kill } name .kill = c.serve systemd name .kill) ∧
      (∃ answer, (c.serve systemd name .kill).result = .ok answer ∧
        ((∀ unit, systemd.listAgain name ≠ .ok [unit]) →
          answer = ⟨name, "", "", "inactive", "dead", "", ""⟩)) ∧
      ((∃ answer, (c.serve systemd name .stop).result = .ok answer) ↔
        ∀ unit ∈ units, systemd.stop unit.name = .ok "done") := by
  have hstatus := orDead_getUnitStatus systemd systemd.listAgain hfinds.whitelisted
  rcases hstatus with ⟨answer, hanswer, hdead⟩
  refine ⟨fun kill => ?_, ⟨answer, ?_, hdead⟩, ?_⟩
  · simp only [Controller.serve, Controller.killUnit, attempt_kill]
    rfl
  · refine result_respond_eq_ok.mpr ⟨?_, hanswer⟩
    simp only [Controller.killUnit, attempt_kill]
    exact (result_forUnits_eq_ok hname hfinds hunits).mpr fun _ _ => rfl
  · constructor
    · rintro ⟨answer, hstop⟩ unit hunit
      have hjobs := (result_forUnits_eq_ok hname hfinds hunits).mp
        (result_respond_eq_ok.mp hstop).1
      exact result_job_eq_ok.mp (hjobs unit hunit)
    · intro hdone
      refine ⟨answer, result_respond_eq_ok.mpr ⟨?_, hanswer⟩⟩
      exact (result_forUnits_eq_ok hname hfinds hunits).mpr fun unit hunit =>
        result_job_eq_ok.mpr (hdone unit hunit)

def refusing : Systemd where
  list name := .ok [⟨name, "Network manager", "loaded", "active", "running", "/org/unit"⟩]
  listAgain _ := .error "timeout"
  restart _ := .ok "failed"
  stop _ := .ok "canceled"
  kill _ := .error "access denied"
  freeze _ := .error "access denied"
  thaw _ := .error "access denied"
  freezerState _ := .error "timeout"

def networkController : Controller := ⟨fun _ => none, ["NetworkManager.service"]⟩

theorem kill_ignores_outcome_refusing :
    (∃ answer, (networkController.serve refusing "NetworkManager.service" .kill).result =
        .ok answer) ∧
      ¬ ∃ answer, (networkController.serve refusing "NetworkManager.service" .stop).result =
        .ok answer := by
  have hfinds : networkController.Finds refusing "NetworkManager.service" _ := ⟨by decide, rfl⟩
  rcases kill_ignores_outcome (by decide) hfinds (List.cons_ne_nil _ _) with
    ⟨-, ⟨answer, hkill, -⟩, hstop⟩
  refine ⟨⟨answer, hkill⟩, fun hanswer => ?_⟩
  exact absurd (hstop.mp hanswer _ List.mem_cons_self) (by decide)

end Requests

end GhafGivc.Agent
