import GhafGivc.Agent.Units

/-! # Start of applications

An application is started as a transient unit. A process may hand its work to an instance that
already runs and end, so the agent looks for such an instance before the start and watches the
new unit after it. What it answers with is a unit that systemd listed, or a dead one.
-/

namespace GhafGivc.Agent

open Core

/-- The branch that the `select` of a turn takes; without an event it takes the default. -/
inductive WatchEvent where
  | cancelled
  | deadline
  | none
deriving DecidableEq

structure WatchAnswer where
  units : Except String (List ListedUnit)
  event : WatchEvent
deriving DecidableEq

/-- What systemd answers: the active units of instances, the active units of a name, the
command of a unit, the job of the start, and the turns of the watch. -/
structure LaunchAnswers where
  running : Except String (List ListedUnit)
  candidates : String → Except String (List ListedUnit)
  execStart : String → Except String String
  start : Except String String
  watch : List WatchAnswer

/-- The word of the command by which running instances are recognised. -/
def mergeWord (cmd : List String) : String :=
  let first := cmd.headD ""
  if "waypipe".toList <:+: first.toList ∧ cmd.length > 1 then cmd.getD 1 "" else first

section Launch

variable (answers : LaunchAnswers) (serviceName : String)

/-- The first running unit that alone has its name and runs the word. -/
def findCandidate (word : String) : List ListedUnit → Except String (Option ListedUnit)
  | [] => .ok none
  | unit :: rest =>
      match answers.candidates unit.name with
      | .error _ => .error ("failed to look up merge unit " ++ appName serviceName)
      | .ok [candidate] =>
          match answers.execStart candidate.name with
          | .error _ => .error ("error fetching ExecStart from unit " ++ candidate.name)
          | .ok command =>
              if word.toList <:+: command.toList then .ok (some candidate)
              else findCandidate word rest
      | .ok _ => findCandidate word rest

def deadUnit : ListedUnit :=
  ⟨serviceName, "Exited application: " ++ serviceName, "", "inactive", "dead", ""⟩

/-- The turns of the watch; there is no result while it goes on. -/
def watch (candidate : Option ListedUnit) : List WatchAnswer → Option (Outcome String ListedUnit)
  | [] => none
  | turn :: later =>
      match turn.units with
      | .error _ => some (.err ("failed to watch unit " ++ serviceName))
      | .ok [] => some .panicked
      | .ok (unit :: _) =>
          match turn.event with
          | .cancelled => some (.err "context cancelled during service watch")
          | .deadline => some (.ok unit)
          | .none =>
              if unit.activeState = "inactive" then
                some (.ok (candidate.getD (deadUnit serviceName)))
              else if unit.activeState = "failed" then
                some (.err ("application started but failed: " ++ serviceName))
              else watch candidate later

end Launch

/-- The result, unless the watch goes on, and the transient units that systemd was asked for. -/
structure Launched where
  result : Option (Outcome String ListedUnit)
  started : List (String × List String)

def startApplication (validateArgs : List String → ApplicationManifest → Except String Unit)
    (applications : List ApplicationManifest) (answers : LaunchAnswers) (serviceName : String)
    (serviceArgs : Option (List String)) : Launched :=
  match assembleCommand validateArgs serviceName serviceArgs applications with
  | .error error => ⟨some (.err error), []⟩
  | .ok cmd =>
      match answers.running with
      | .error _ => ⟨some (.err ("failed to look up merge unit " ++ appName serviceName)), []⟩
      | .ok running =>
          match findCandidate answers serviceName (mergeWord cmd) running with
          | .error error => ⟨some (.err error), []⟩
          | .ok candidate =>
              match answers.start with
              | .error error => ⟨some (.err ("error starting application: " ++
                  appCommand serviceName applications ++ " (" ++ error ++ ")")),
                  [(serviceName, cmd)]⟩
              | .ok status =>
                  if status = "done" then
                    ⟨watch serviceName candidate answers.watch, [(serviceName, cmd)]⟩
                  else ⟨some (.err ("failed to start app " ++ serviceName ++ ": " ++ status)),
                    [(serviceName, cmd)]⟩

/-- An active unit that alone has its name and whose command has the word in it. -/
structure LaunchAnswers.Runs (answers : LaunchAnswers) (word : String) (unit : ListedUnit) :
    Prop where
  listed : ∃ running, answers.running = .ok running ∧ ∃ seen ∈ running,
    answers.candidates seen.name = .ok [unit]
  command : ∃ command, answers.execStart unit.name = .ok command ∧
    word.toList <:+: command.toList

/-- A turn of the watch saw the new unit in a state and took the branch, and the turns before
it saw neither the end nor a failure of it. -/
def WatchEnded (turns : List WatchAnswer) (seen : ListedUnit) (event : WatchEvent) : Prop :=
  ∃ before turn later others, turns = before ++ turn :: later ∧
    turn.units = .ok (seen :: others) ∧ turn.event = event ∧
    ∀ earlier ∈ before, earlier.event = .none ∧ ∃ unit rest, earlier.units = .ok (unit :: rest) ∧
      unit.activeState ≠ "inactive" ∧ unit.activeState ≠ "failed"

/-- What the answer says: the new unit as it is at the deadline, or, when the new unit has
ended, the running unit that has the word, or that the new unit is dead. -/
inductive Reported (answers : LaunchAnswers) (serviceName word : String) : ListedUnit → Prop
  | watched {unit : ListedUnit} (h : WatchEnded answers.watch unit .deadline) :
      Reported answers serviceName word unit
  | merged {unit seen : ListedUnit} (h : WatchEnded answers.watch seen .none)
      (hended : seen.activeState = "inactive") (hruns : answers.Runs word unit) :
      Reported answers serviceName word unit
  | dead {seen : ListedUnit} (h : WatchEnded answers.watch seen .none)
      (hended : seen.activeState = "inactive") :
      Reported answers serviceName word (deadUnit serviceName)

section Reports

variable {answers : LaunchAnswers} {serviceName word : String} {unit : ListedUnit}

theorem findCandidate_eq_some {running all : List ListedUnit}
    (hall : answers.running = .ok all) (hsub : running ⊆ all)
    (h : findCandidate answers serviceName word running = .ok (some unit)) :
    answers.Runs word unit := by
  induction running with
  | nil => cases h
  | cons seen rest ih =>
      have hrest : rest ⊆ all := List.subset_of_cons_subset hsub
      unfold findCandidate at h
      split at h
      · cases h
      · rename_i candidate hcandidates
        split at h
        · cases h
        · rename_i command hcommand
          split at h
          · rename_i hword
            cases h
            exact ⟨⟨all, hall, seen, hsub List.mem_cons_self, hcandidates⟩,
              command, hcommand, hword⟩
          · exact ih hrest h
      · exact ih hrest h

theorem watch_eq_ok {candidate : Option ListedUnit} {turns : List WatchAnswer}
    (h : watch serviceName candidate turns = some (.ok unit)) :
    WatchEnded turns unit .deadline ∨
      ∃ seen, WatchEnded turns seen .none ∧ seen.activeState = "inactive" ∧
        unit = candidate.getD (deadUnit serviceName) := by
  induction turns with
  | nil => cases h
  | cons turn later ih =>
      unfold watch at h
      split at h
      · cases h
      · cases h
      · rename_i seen others hunits
        split at h
        · cases h
        · rename_i hevent
          cases h
          exact .inl ⟨[], turn, later, others, rfl, hunits, hevent, by simp⟩
        · rename_i hevent
          split at h
          · rename_i hended
            cases h
            exact .inr ⟨seen, ⟨[], turn, later, others, rfl, hunits, hevent, by simp⟩, hended,
              rfl⟩
          · rename_i hinactive
            split at h
            · cases h
            · rename_i hfailed
              have hextend {last : ListedUnit} {event : WatchEvent}
                  (hlast : WatchEnded later last event) :
                  WatchEnded (turn :: later) last event := by
                rcases hlast with ⟨before, final, rest, more, heq, hfinal, hbranch, hbefore⟩
                refine ⟨turn :: before, final, rest, more, by rw [heq]; rfl, hfinal, hbranch, ?_⟩
                exact List.forall_mem_cons.mpr
                  ⟨⟨hevent, seen, others, hunits, hinactive, hfailed⟩, hbefore⟩
              rcases ih h with hdeadline | ⟨last, hlast, hended, hunit⟩
              · exact .inl (hextend hdeadline)
              · exact .inr ⟨last, hextend hlast, hended, hunit⟩

end Reports

/-- No transient unit is asked for but under the name and with the command and arguments
that were validated. When a unit is answered with, this start was done, and the unit is the new
one at the deadline, an active one that runs the word of the command, or a dead one; the last
two only after the new unit was seen to have ended. -/
theorem startApplication_reports
    (validateArgs : List String → ApplicationManifest → Except String Unit)
    (applications : List ApplicationManifest) (answers : LaunchAnswers) (serviceName : String)
    (serviceArgs : Option (List String)) :
    (∀ start ∈ (startApplication validateArgs applications answers serviceName
        serviceArgs).started, ∃ cmd,
      assembleCommand validateArgs serviceName serviceArgs applications = .ok cmd ∧
        start = (serviceName, cmd)) ∧
    (∀ unit, (startApplication validateArgs applications answers serviceName
        serviceArgs).result = some (.ok unit) → ∃ cmd,
      assembleCommand validateArgs serviceName serviceArgs applications = .ok cmd ∧
        (startApplication validateArgs applications answers serviceName serviceArgs).started =
          [(serviceName, cmd)] ∧
        answers.start = .ok "done" ∧ Reported answers serviceName (mergeWord cmd) unit) := by
  unfold startApplication
  cases hcmd : assembleCommand validateArgs serviceName serviceArgs applications with
  | error error => simp
  | ok cmd =>
      cases hrunning : answers.running with
      | error error => simp
      | ok running =>
          dsimp only
          cases hfind : findCandidate answers serviceName (mergeWord cmd) running with
          | error error => simp
          | ok candidate =>
              cases hstart : answers.start with
              | error error => simp
              | ok status =>
                  dsimp only
                  by_cases hdone : status = "done"
                  · rw [if_pos hdone]
                    refine ⟨by simp, ?_⟩
                    intro unit hresult
                    refine ⟨cmd, rfl, rfl, by rw [hdone], ?_⟩
                    rcases watch_eq_ok hresult with hdeadline | ⟨seen, hseen, hended, hunit⟩
                    · exact .watched hdeadline
                    · cases candidate with
                      | none =>
                          rw [hunit]
                          exact .dead hseen hended
                      | some found =>
                          rw [hunit]
                          exact .merged hseen hended
                            (findCandidate_eq_some hrunning (List.Subset.refl _) hfind)
                  · rw [if_neg hdone]
                    simp

end GhafGivc.Agent
