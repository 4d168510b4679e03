import GhafGivc.Core.Text
import GhafGivc.Image.Manifest

/-! # The policy manager

The manager has one worker for each VM of its configuration and dispatches policy files to
them: all files of a policy, or those that a change set of the policy repository names.
-/

namespace GhafGivc.Policy

open Core Image

inductive PolicySourceType where
  | none
  | gitUrl
  | perPolicy
deriving DecidableEq

structure PolicySource where
  kind : PolicySourceType
  url : Option String
  branch : Option String
  pollIntervalSecs : Option Nat
deriving DecidableEq

structure PolicyConfigPolicyUpdater where
  url : String
  head : Option String
  pollIntervalSecs : Option Nat
deriving DecidableEq

structure PolicyConfigPolicy where
  url : Option String
  vms : List String
  perPolicyUpdater : Option PolicyConfigPolicyUpdater
deriving DecidableEq

/-- The configuration; a policy is listed under one name. -/
structure PolicyConfig where
  source : PolicySource
  policies : List (String × PolicyConfigPolicy)
  names_nodup : (policies.map Prod.fst).Nodup
deriving DecidableEq

namespace PolicyConfig

def get (config : PolicyConfig) (name : String) : Option PolicyConfigPolicy :=
  config.policies.lookup name

def subscribers (config : PolicyConfig) (name : String) : List String :=
  match config.get name with
  | some policy => policy.vms
  | none => []

end PolicyConfig

structure PolicyManager where
  policyDir : String
  configs : PolicyConfig
  workers : List String
deriving DecidableEq

structure Send where
  vm : String
  policyName : String
  file : String
deriving DecidableEq

namespace PolicyManager

def addWorker (manager : PolicyManager) (vm : String) : PolicyManager :=
  if vm ∈ manager.workers then manager else { manager with workers := manager.workers ++ [vm] }

def new (storeDir : String) (configs : PolicyConfig) : PolicyManager :=
  let vmNames := (configs.policies.flatMap fun p => p.2.vms).eraseDups
  vmNames.foldl addWorker ⟨storeDir, configs, []⟩

def sendToVm (manager : PolicyManager) (send : Send) : Except String Unit :=
  if send.vm ∈ manager.workers then .ok ()
  else .error ("No worker found for VM: " ++ send.vm)

/-- The file that a path of the repository stands for: policy and file name are the first
two components below `vm-policies`. -/
def target (path : List Char) : Option (String × String) := do
  let rest ← Text.stripLead "vm-policies/".toList path
  match rest.splitOnP (· = '/') with
  | policyName :: fileName :: _ => some (String.ofList policyName, String.ofList fileName)
  | _ => none

def fullPath (manager : PolicyManager) (policyName fileName : String) : String :=
  joinPath (joinPath manager.policyDir policyName) fileName

def processPath (manager : PolicyManager) (present : String → Bool) (path : List Char) :
    List Send :=
  match target path with
  | none => []
  | some (policyName, fileName) =>
      let fullPath := manager.fullPath policyName fileName
      if present fullPath then
        (manager.configs.subscribers policyName).map fun vm => ⟨vm, policyName, fullPath⟩
      else []

def processChangeset (manager : PolicyManager) (present : String → Bool)
    (changeset : List Char) : List Send :=
  (Text.lines changeset).flatMap fun line =>
    -- the path is the second token of a line
    match (Text.splitWhitespace (Text.trim line))[1]? with
    | none => []
    | some path => manager.processPath present path

end PolicyManager

end GhafGivc.Policy
