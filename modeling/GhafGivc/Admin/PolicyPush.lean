import GhafGivc.Admin.Managers
import GhafGivc.Core.FileTree

/-! # Pushing a policy to a VM

`push_policy_update` copies the policy file beside itself, under the same name with the
extension `tmp`, uploads the copy and removes it.
-/

namespace GhafGivc.Admin.PolicyPush

open Core

abbrev Content := List UInt8

/-- What stands in a policy directory, by name. -/
abbrev Directory := List Char → Option Node

/-- What becomes of a copy: it is done, one of the files is not opened, or it ends early. -/
inductive CopyAnswer where
  | done
  | refused (err : String)
  | cut (copied : Nat) (err : String)
deriving DecidableEq

/-- What the rest of the world answers in one push. -/
structure Answers where
  endpoint : Except Report EndpointConfig
  copy : CopyAnswer
  upload : Content → Except Report Unit
  removed : Bool

structure Pushed where
  directory : Directory
  uploaded : Option Content
  result : Except Report Unit

/-- The name of the copy, unless it is the parent of the directory. -/
def tempName (file : List Char) : Option (List Char) :=
  match Path.withExtension [.normal file] "tmp".toList with
  | [.normal temp] => some temp
  | _ => none

def Directory.write (directory : Directory) (name : List Char) (content : Content) : Directory :=
  Function.update directory name (some (.file content))

/-- `tokio::fs::copy`: the target is truncated before the source is read. -/
def Directory.copy (directory : Directory) (answer : CopyAnswer) (source target : List Char) :
    Directory × Except Report Unit :=
  match directory source with
  | none => (directory, .error ["No such file or directory (os error 2)"])
  | some .dir => (directory, .error
      ["the source path is neither a regular file nor a symlink to a regular file"])
  | some (.file content) =>
      if directory target = some .dir then (directory, .error ["Is a directory (os error 21)"])
      else
        let content := if source = target then [] else content
        match answer with
        | .done => (directory.write target content, .ok ())
        | .refused err => (directory, .error [err])
        | .cut copied err => (directory.write target (content.take copied), .error [err])

def Directory.read (directory : Directory) (name : List Char) : Content :=
  match directory name with
  | some (.file content) => content
  | _ => []

def pushPolicyUpdate (answers : Answers) (vm : String) (directory : Directory)
    (file : List Char) : Pushed :=
  let agentServiceName := (VmName.vm vm).agentService
  match Report.context ("policy-admin: failed to get endpoint for agent " ++ agentServiceName)
      answers.endpoint with
  | .error report => ⟨directory, none, .error report⟩
  | .ok _ =>
      match tempName file with
      | none => ⟨directory, none, .error ["Is a directory (os error 21)"]⟩
      | some temp =>
          match directory.copy answers.copy file temp with
          | (copied, .error report) => ⟨copied, none, .error report⟩
          | (copied, .ok ()) =>
              -- the error of the removal is ignored
              ⟨if answers.removed then Function.update copied temp none else copied,
                some (copied.read temp), answers.upload (copied.read temp)⟩

/-- One push after the other, as the receiver of the update channel does them. -/
def pushAll (directory : Directory) :
    List (Answers × String × List Char) → Directory × List (List Char × Option Content)
  | [] => (directory, [])
  | (answers, vm, file) :: rest =>
      let pushed := pushPolicyUpdate answers vm directory file
      let (last, uploads) := pushAll pushed.directory rest
      (last, (file, pushed.uploaded) :: uploads)

/-- The directory is as before, and what was uploaded is the file. -/
def Kept (directory : Directory) (file : List Char) (pushed : Pushed) : Prop :=
  pushed.directory = directory ∧ ∀ bytes ∈ pushed.uploaded, directory file = some (.file bytes)

def Opens (answers : Answers) (directory : Directory) (file temp : List Char) : Prop :=
  tempName file = some temp ∧ directory temp ≠ some .dir ∧ ∀ err, answers.copy ≠ .refused err

/-- The copy is completed and removed. -/
def Answers.Smooth (answers : Answers) : Prop := answers.copy = .done ∧ answers.removed = true

/-- Another file, or the pushed one, has the name of the copy. -/
def Occupied (directory : Directory) (file : List Char) : Prop :=
  ∃ temp content, tempName file = some temp ∧ directory temp = some (.file content)

def copied (file temp : List Char) (content : Content) : Content :=
  if file = temp then [] else content

def Answers.left (answers : Answers) (content : Content) : Option Node :=
  match answers.copy with
  | .cut n _ => some (.file (content.take n))
  | _ => if answers.removed then none else some (.file content)

section Push

variable {answers : Answers} {vm : String} {directory : Directory} {file temp : List Char}
  {content : Content} {endpoint : EndpointConfig}

theorem kept_of_endpoint_error {report : Report} (h : answers.endpoint = .error report) :
    Kept directory file (pushPolicyUpdate answers vm directory file) := by
  unfold pushPolicyUpdate
  rw [h]
  exact ⟨rfl, fun _ hin => nomatch hin⟩

theorem kept_of_not_opens (hfile : directory file = some (.file content))
    (h : ∀ temp, ¬ Opens answers directory file temp) :
    Kept directory file (pushPolicyUpdate answers vm directory file) := by
  cases hendpoint : answers.endpoint with
  | error report => exact kept_of_endpoint_error hendpoint
  | ok endpoint =>
      unfold pushPolicyUpdate
      rw [hendpoint]
      dsimp only [Report.context]
      cases htemp : tempName file with
      | none => exact ⟨rfl, fun _ hin => nomatch hin⟩
      | some temp =>
          have hcopy : ∃ report, directory.copy answers.copy file temp =
              (directory, .error report) := by
            unfold Directory.copy
            rw [hfile]
            dsimp only
            split
            · exact ⟨_, rfl⟩
            · rename_i hdir
              cases hanswer : answers.copy with
              | refused err => exact ⟨_, rfl⟩
              | done => exact absurd ⟨htemp, hdir, by simp [hanswer]⟩ (h temp)
              | cut n err => exact absurd ⟨htemp, hdir, by simp [hanswer]⟩ (h temp)
          rcases hcopy with ⟨report, hcopy⟩
          dsimp only
          rw [hcopy]
          exact ⟨rfl, fun _ hin => nomatch hin⟩

theorem push_of_opens (vm : String) (hendpoint : answers.endpoint = .ok endpoint)
    (hfile : directory file = some (.file content)) (h : Opens answers directory file temp) :
    (pushPolicyUpdate answers vm directory file).directory =
        Function.update directory temp (answers.left (copied file temp content)) ∧
      (pushPolicyUpdate answers vm directory file).uploaded =
        if answers.copy = .done then some (copied file temp content) else none := by
  rcases h with ⟨htemp, hdir, hopened⟩
  have hread : (directory.write temp (copied file temp content)).read temp =
      copied file temp content := by
    simp [Directory.read, Directory.write]
  unfold pushPolicyUpdate Answers.left
  rw [hendpoint, htemp]
  dsimp only [Report.context]
  unfold Directory.copy
  rw [hfile]
  dsimp only
  rw [if_neg hdir]
  cases hanswer : answers.copy with
  | refused err => exact absurd hanswer (hopened err)
  | cut n err => exact ⟨rfl, rfl⟩
  | done =>
      change (if answers.removed = true then Function.update (directory.write temp _) temp none
        else directory.write temp _) = _ ∧ some (Directory.read (directory.write temp _) temp) = _
      refine ⟨?_, congrArg some hread⟩
      cases answers.removed with
      | false => rfl
      | true => exact Function.update_idem _ _ _

theorem kept_iff_of_opens (hendpoint : answers.endpoint = .ok endpoint)
    (hfile : directory file = some (.file content)) (h : Opens answers directory file temp) :
    Kept directory file (pushPolicyUpdate answers vm directory file) ↔
      directory temp = answers.left (copied file temp content) := by
  have hpush := push_of_opens vm hendpoint hfile h
  unfold Kept
  rw [hpush.1, hpush.2]
  constructor
  · intro hkept
    have hat := congrFun hkept.1 temp
    rw [Function.update_self] at hat
    exact hat.symm
  · intro hat
    constructor
    · rw [← hat]
      exact Function.update_eq_self temp directory
    · intro bytes hbytes
      by_cases hdone : answers.copy = .done
      · rw [if_pos hdone] at hbytes
        cases hbytes
        by_cases hsame : file = temp
        · subst hsame
          unfold Answers.left at hat
          rw [hdone] at hat
          cases hremoved : answers.removed with
          | false => simpa [hremoved] using hat
          | true => simp [hremoved, hfile] at hat
        · rw [hfile, copied, if_neg hsame]
      · rw [if_neg hdone] at hbytes
        cases hbytes

/-- Where the copy is removed, it must not have had the name of a file. -/
theorem occupied_iff_of_smooth (content : Content) (h : answers.Smooth) :
    Occupied directory file ↔ ∃ temp, Opens answers directory file temp ∧
      directory temp ≠ answers.left (copied file temp content) := by
  have hleft : ∀ bytes, answers.left bytes = none := by
    intro bytes
    simp [Answers.left, h.1, h.2]
  have hopened : ∀ err, answers.copy ≠ .refused err := by
    intro err
    simp [h.1]
  constructor
  · intro hoccupied
    rcases hoccupied with ⟨temp, other, htemp, hat⟩
    exact ⟨temp, ⟨htemp, by simp [hat], hopened⟩, by simp [hat, hleft]⟩
  · intro hopens
    rcases hopens with ⟨temp, ⟨htemp, hdir, -⟩, hat⟩
    rw [hleft] at hat
    cases hnode : directory temp with
    | none => exact absurd hnode hat
    | some node =>
        cases node with
        | dir => exact absurd hnode hdir
        | file other => exact ⟨temp, other, htemp, hnode⟩

/-- A push keeps the directory unless it begins a copy at a name where something else
stands than what the push leaves there. -/
theorem kept_iff (hfile : directory file = some (.file content)) :
    Kept directory file (pushPolicyUpdate answers vm directory file) ↔
      (∃ report, answers.endpoint = .error report) ∨
        ∀ temp, Opens answers directory file temp →
          directory temp = answers.left (copied file temp content) := by
  cases hendpoint : answers.endpoint with
  | error report => simp [kept_of_endpoint_error hendpoint]
  | ok endpoint =>
      simp only [reduceCtorEq, exists_false, false_or]
      constructor
      · intro hkept temp hopens
        exact (kept_iff_of_opens hendpoint hfile hopens).mp hkept
      · intro h
        by_cases hopens : ∃ temp, Opens answers directory file temp
        · rcases hopens with ⟨temp, hopens⟩
          exact (kept_iff_of_opens hendpoint hfile hopens).mpr (h temp hopens)
        · exact kept_of_not_opens hfile fun temp ht => hopens ⟨temp, ht⟩

theorem kept_iff_of_smooth (hfile : directory file = some (.file content))
    (h : answers.Smooth) :
    Kept directory file (pushPolicyUpdate answers vm directory file) ↔
      (∃ report, answers.endpoint = .error report) ∨ ¬ Occupied directory file := by
  rw [kept_iff hfile, occupied_iff_of_smooth content h]
  simp only [not_exists, not_and, not_not]

/-- The pushes of a directory no file of which has the name of a copy. -/
theorem pushAll_keeps {pushes : List (Answers × String × List Char)}
    (h : ∀ push ∈ pushes, push.1.Smooth ∧ ¬ Occupied directory push.2.2 ∧
      ∃ content, directory push.2.2 = some (.file content)) :
    (pushAll directory pushes).1 = directory ∧
      ∀ upload ∈ (pushAll directory pushes).2, ∀ bytes ∈ upload.2,
        directory upload.1 = some (.file bytes) := by
  induction pushes with
  | nil => exact ⟨rfl, fun _ hin => absurd hin List.not_mem_nil⟩
  | cons push rest ih =>
      rcases h push List.mem_cons_self with ⟨hsmooth, hfree, content, hfile⟩
      have hkept : Kept directory push.2.2
          (pushPolicyUpdate push.1 push.2.1 directory push.2.2) :=
        (kept_iff_of_smooth hfile hsmooth).mpr (Or.inr hfree)
      have hrest := ih fun other hother => h other (List.mem_cons_of_mem push hother)
      change (pushAll (pushPolicyUpdate push.1 push.2.1 directory push.2.2).directory rest).1 = _ ∧
        ∀ upload ∈ (push.2.2, (pushPolicyUpdate push.1 push.2.1 directory push.2.2).uploaded) ::
          (pushAll (pushPolicyUpdate push.1 push.2.1 directory push.2.2).directory rest).2, _
      rw [hkept.1]
      constructor
      · exact hrest.1
      · intro upload hupload
        rcases List.mem_cons.mp hupload with heq | hlater
        · rw [heq]
          exact hkept.2
        · exact hrest.2 upload hlater

/-- A push leaves the policy directory as it was and uploads the file, for a copy that is
completed and removed, exactly when no file there has the name of the copy. -/
theorem pushPolicyUpdate_keeps_iff (answers : Answers) (vm : String) (directory : Directory)
    (file : List Char) (content : Content) (hfile : directory file = some (.file content)) :
    (Kept directory file (pushPolicyUpdate answers vm directory file) ↔
      (∃ report, answers.endpoint = .error report) ∨
        ∀ temp, Opens answers directory file temp →
          directory temp = answers.left (copied file temp content)) ∧
    (answers.Smooth → (Kept directory file (pushPolicyUpdate answers vm directory file) ↔
      (∃ report, answers.endpoint = .error report) ∨ ¬ Occupied directory file)) := by
  constructor
  · exact kept_iff hfile
  · intro hsmooth
    exact kept_iff_of_smooth hfile hsmooth

end Push

section Sample

def taking : Answers where
  endpoint := .ok ⟨⟨.tcp "192.168.100.5" 9000, "givc-net-vm"⟩, none⟩
  copy := .done
  upload _ := .ok ()
  removed := true

def rules : List Char := "rules.json".toList

def rulesTmp : List Char := "rules.tmp".toList

def oneRule : Directory := Directory.write (fun _ => none) rules [1, 2]

def twoRules : Directory := oneRule.write rulesTmp [3]

theorem pushPolicyUpdate_keeps_iff_oneRule :
    taking.Smooth ∧ ¬ Occupied oneRule rules ∧
      Kept oneRule rules (pushPolicyUpdate taking "net-vm" oneRule rules) := by
  have hsmooth : taking.Smooth := ⟨rfl, rfl⟩
  have hfree : ¬ Occupied oneRule rules := by
    intro h
    rcases h with ⟨temp, content, htemp, hat⟩
    have hname : tempName rules = some rulesTmp := by decide
    have hnone : oneRule rulesTmp = none := by decide
    cases hname.symm.trans htemp
    rw [hnone] at hat
    cases hat
  have hiff := (pushPolicyUpdate_keeps_iff taking "net-vm" oneRule rules [1, 2] (by decide)).2
  exact ⟨hsmooth, hfree, (hiff hsmooth).mpr (Or.inr hfree)⟩

/-- The push of `rules.json` removes the policy `rules.tmp`, and the push of `rules.tmp`
uploads nothing and removes it. -/
theorem pushPolicyUpdate_removes_policy :
    (twoRules rules = some (.file [1, 2]) ∧ twoRules rulesTmp = some (.file [3])) ∧
      ((pushPolicyUpdate taking "net-vm" twoRules rules).result = .ok () ∧
        (pushPolicyUpdate taking "net-vm" twoRules rules).directory rulesTmp = none) ∧
      (pushPolicyUpdate taking "net-vm" twoRules rulesTmp).uploaded = some [] ∧
        (pushPolicyUpdate taking "net-vm" twoRules rulesTmp).directory rulesTmp = none := by
  refine ⟨⟨by decide, by decide⟩, ⟨rfl, by decide⟩, by decide, by decide⟩

end Sample

end GhafGivc.Admin.PolicyPush
