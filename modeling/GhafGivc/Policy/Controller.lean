import GhafGivc.Core.Text
import GhafGivc.Core.Transition
import Mathlib.Logic.Function.Basic
import Mathlib.Data.List.Nodup

/-! # Deploying policies on an agent

`UpdatePolicy` copies a pushed file over the destination of its policy, moves it into the
store and then records its hash. A file whose hash is the recorded one is taken to be
deployed already. Every file operation may fail, and the process may stop before each of
them. The destinations lie outside the store of the agent.
-/

namespace GhafGivc.Policy.Agent

open Core

abbrev Content := List UInt8

structure PolicyDetail where
  destination : String
  sha : String
deriving DecidableEq

abbrev PolicyMap := String → Option PolicyDetail

/-- `policies.json`: not written yet, a saved map, or cut short. -/
inductive InfoFile where
  | absent
  | saved (policies : PolicyMap)
  | broken

structure Disk where
  destination : String → Option Content
  store : String → Option Content
  info : InfoFile

/-- The controller with the files it works on. -/
structure Controller where
  disk : Disk
  policyMap : PolicyMap

/-! ## File operations -/

inductive Op where
  | mkdir
  | hash
  | openDestination
  | openSource
  | copy
  | rename
  | saveOpen
  | saveWrite
deriving DecidableEq

/-- What becomes of an operation: it is done, it fails with an error of the system, or the
process ends before it. -/
inductive Answer where
  | done
  | failed (err : String)
  | stopped
deriving DecidableEq

/-- The answers to the operations of one call, and how much of the file was copied when the
copy is not done. -/
structure Faults where
  answer : Op → Answer
  copied : Nat

inductive Result where
  | ok
  | error (message : String)
  | stopped
deriving DecidableEq

/-- Go on with `next` when the operation is done; otherwise return from `state`. -/
def attempt (answer : Answer) (describe : String → String) (state : Controller)
    (next : Controller × Result) : Controller × Result :=
  match answer with
  | .done => next
  | .failed err => (state, .error (describe err))
  | .stopped => (state, .stopped)

namespace Controller

def setDestination (c : Controller) (path : String) (content : Content) : Controller :=
  { c with disk := { c.disk with
      destination := Function.update c.disk.destination path (some content) } }

def setStore (c : Controller) (name : String) (content : Content) : Controller :=
  { c with disk := { c.disk with store := Function.update c.disk.store name (some content) } }

def setInfo (c : Controller) (info : InfoFile) : Controller :=
  { c with disk := { c.disk with info := info } }

def setSha (c : Controller) (name : String) (policy : PolicyDetail) (sha : String) : Controller :=
  { c with policyMap := Function.update c.policyMap name (some { policy with sha := sha }) }

/-- `savePolicyMap`, whose error is ignored: the file is truncated, then written. -/
def savePolicyMap (c : Controller) (faults : Faults) : Controller × Result :=
  match faults.answer .saveOpen, faults.answer .saveWrite with
  | .done, .done => (c.setInfo (.saved c.policyMap), .ok)
  | .done, .failed _ => (c.setInfo .broken, .ok)
  | .done, .stopped => (c.setInfo .broken, .stopped)
  | .failed _, _ => (c, .ok)
  | .stopped, _ => (c, .stopped)

/-- Move the file into the store, then record its hash. -/
def finish (c : Controller) (faults : Faults) (name : String) (policy : PolicyDetail)
    (content : Content) (sha : String) : Controller × Result :=
  attempt (faults.answer .rename) ("policy-admin: failed to write policy locally: " ++ ·) c
    (((c.setStore name content).setSha name policy sha).savePolicyMap faults)

def deployError (action err : String) : String :=
  "policy-admin: failed to deploy policy file: policy-admin: failed to " ++ action ++
    ". (" ++ err ++ ")"

/-- `copyPolicy`: the destination is truncated before anything is copied. -/
def copyPolicy (c : Controller) (faults : Faults) (destination : String) (content : Content)
    (next : Controller → Controller × Result) : Controller × Result :=
  attempt (faults.answer .openDestination) (deployError "open destination file") c
    (attempt (faults.answer .openSource) (deployError "open policy file")
      (c.setDestination destination [])
      (attempt (faults.answer .copy) (deployError "copy policy")
        (c.setDestination destination (content.take faults.copied))
        (next (c.setDestination destination content))))

def updatePolicy (hash : Content → String) (c : Controller) (faults : Faults) (name : String)
    (content : Content) : Controller × Result :=
  match c.policyMap name with
  | none => (c, .error ("Unknown policy " ++ name ++ "."))
  | some policy =>
      attempt (if (c.disk.store name).isSome then .done else faults.answer .mkdir)
        ("policy-admin: failed to create policy directory: " ++ ·) c
        (attempt (faults.answer .hash) id c
          (if policy.sha = hash content then (c, .ok)
          else if policy.destination = "" then
            c.finish faults name policy content (hash content)
          else
            c.copyPolicy faults policy.destination content fun c =>
              c.finish faults name policy content (hash content)))

end Controller

/-- `loadPolicyMap`: the saved map wins over the configuration, and a file that cannot be
read leaves no policy known. -/
def loadPolicyMap (info : InfoFile) (policies : List (String × String)) : PolicyMap :=
  match info with
  | .absent => fun name => (policies.lookup name).map fun destination => ⟨destination, ""⟩
  | .saved policyMap => policyMap
  | .broken => fun _ => none

/-! ## Histories -/

/-- The files, and the policy map while the process runs. -/
structure State where
  disk : Disk
  running : Option PolicyMap

inductive Label where
  | start (policies : List (String × String))
  | call (name : String) (content : Content) (faults : Faults)

def State.call (hash : Content → String) (s : State) (policyMap : PolicyMap) (name : String)
    (content : Content) (faults : Faults) : State × Result :=
  let (c, result) := Controller.updatePolicy hash ⟨s.disk, policyMap⟩ faults name content
  (⟨c.disk, if result = .stopped then none else some c.policyMap⟩, result)

/-- A start may come at any time: the process before it is gone. -/
def step (hash : Content → String) (s : State) : Label → Option State
  | .start policies => some { s with running := some (loadPolicyMap s.disk.info policies) }
  | .call name content faults =>
      match s.running with
      | some policyMap => some (s.call hash policyMap name content faults).1
      | none => none

/-- Nothing was ever saved. -/
def Initial (s : State) : Prop :=
  s.running = none ∧ s.disk.info = .absent

/-! ## What a record means -/

/-- A recorded hash is the hash of what lies at the destination. -/
def Deployed (hash : Content → String) (files : String → Option Content)
    (policy : PolicyDetail) : Prop :=
  policy.destination ≠ "" → policy.sha ≠ "" →
    ∃ content, files policy.destination = some content ∧ policy.sha = hash content

def Honest (hash : Content → String) (files : String → Option Content) (m : PolicyMap) : Prop :=
  ∀ name policy, m name = some policy → Deployed hash files policy

/-- The records the next start would find. -/
def Disk.SavedHonest (hash : Content → String) (disk : Disk) : Prop :=
  ∀ m, disk.info = .saved m → Honest hash disk.destination m

def State.Truthful (hash : Content → String) (s : State) : Prop :=
  (∀ m, s.running = some m → Honest hash s.disk.destination m) ∧ s.disk.SavedHonest hash

def InfoFile.sha (info : InfoFile) (name : String) : String :=
  match info with
  | .saved m => ((m name).map PolicyDetail.sha).getD ""
  | _ => ""

/-- The file was copied and moved, so that its hash is recorded. -/
def Faults.Copied (faults : Faults) : Prop :=
  faults.answer .openSource = .done ∧ faults.answer .copy = .done ∧
    faults.answer .rename = .done

instance (faults : Faults) : Decidable faults.Copied := by
  unfold Faults.Copied
  infer_instance

/-- The process ends while the file is copied or moved. -/
def Faults.Stops (faults : Faults) : Prop :=
  faults.answer .openSource = .stopped ∨ faults.answer .openSource = .done ∧
    (faults.answer .copy = .stopped ∨
      faults.answer .copy = .done ∧ faults.answer .rename = .stopped)

instance (faults : Faults) : Decidable faults.Stops := by
  unfold Faults.Stops
  infer_instance

/-- A call with a new file gets as far as truncating the destination. -/
def Faults.Truncates (faults : Faults) (disk : Disk) (name : String) : Prop :=
  ((disk.store name).isSome ∨ faults.answer .mkdir = .done) ∧ faults.answer .hash = .done ∧
    faults.answer .openDestination = .done

instance (faults : Faults) (disk : Disk) (name : String) :
    Decidable (faults.Truncates disk name) := by
  unfold Faults.Truncates
  infer_instance

/-- A call that truncates a destination runs to its end, or the records it would leave behind
say nothing about this policy yet. Destinations are not shared. -/
def CarriedThrough (hash : Content → String) (s : State) : Label → Prop
  | .start policies => ((policies.map Prod.snd).filter (· ≠ "")).Nodup
  | .call name content faults =>
      ∀ m ∈ s.running, ∀ policy ∈ m name, policy.destination ≠ "" →
        policy.sha ≠ hash content → faults.Truncates s.disk name →
          (faults.Copied ∨ policy.sha = "" ∨ faults.Stops) ∧
          (faults.Copied ∧ faults.answer .saveOpen = .done ∨ s.disk.info.sha name = "")

instance (hash : Content → String) (s : State) : (l : Label) → Decidable (CarriedThrough hash s l)
  | .start policies => by unfold CarriedThrough; infer_instance
  | .call name content faults =>
      decidable_of_iff (∀ m ∈ s.running, ∀ policy ∈ m name, policy.destination = "" ∨
        policy.sha = hash content ∨ ¬ faults.Truncates s.disk name ∨
          (faults.Copied ∨ policy.sha = "" ∨ faults.Stops) ∧
          (faults.Copied ∧ faults.answer .saveOpen = .done ∨ s.disk.info.sha name = "")) <| by
        simp only [CarriedThrough, ne_eq, or_iff_not_imp_left, not_not]

/-! ## The outcome of a call -/

namespace Controller

variable {hash : Content → String} {c c' : Controller} {faults : Faults} {name : String}
  {content : Content} {result : Result} {answer : Answer} {describe : String → String}
  {next : Controller × Result}

/-- What a call can leave behind. -/
inductive Updated (hash : Content → String) (faults : Faults) (name : String)
    (content : Content) (c : Controller) : Controller → Result → Prop
  | same {result : Result}
      (h : result = .ok → ∀ policy, c.policyMap name = some policy → policy.sha = hash content) :
      Updated hash faults name content c c result
  | spoilt {policy : PolicyDetail} (bytes : Content) {result : Result}
      (hpolicy : c.policyMap name = some policy) (hdest : policy.destination ≠ "")
      (hsha : policy.sha ≠ hash content) (hopen : faults.Truncates c.disk name)
      (hcopied : ¬ faults.Copied) (hresult : result ≠ .ok)
      (hstops : faults.Stops → result = .stopped) :
      Updated hash faults name content c (c.setDestination policy.destination bytes) result
  | kept {policy : PolicyDetail} (hpolicy : c.policyMap name = some policy)
      (hdest : policy.destination = "") :
      Updated hash faults name content c
        (((c.setStore name content).setSha name policy (hash content)).savePolicyMap faults).1
        (((c.setStore name content).setSha name policy (hash content)).savePolicyMap faults).2
  | deployed {policy : PolicyDetail} (hpolicy : c.policyMap name = some policy)
      (hdest : policy.destination ≠ "") (hsha : policy.sha ≠ hash content)
      (hopen : faults.Truncates c.disk name) (hcopied : faults.Copied) :
      Updated hash faults name content c
        ((((c.setDestination policy.destination content).setStore name content).setSha name
          policy (hash content)).savePolicyMap faults).1
        ((((c.setDestination policy.destination content).setStore name content).setSha name
          policy (hash content)).savePolicyMap faults).2

theorem attempt_cases {P : Controller × Result → Prop} (hnext : answer = .done → P next)
    (hstay : ∀ result, answer ≠ .done → result ≠ .ok → (answer = .stopped → result = .stopped) →
      P (c, result)) : P (attempt answer describe c next) := by
  cases answer with
  | done => exact hnext rfl
  | failed err => exact hstay _ (by simp) (by simp) (by simp)
  | stopped => exact hstay _ (by simp) (by simp) fun _ => rfl

theorem Updated.attempt {state : Controller}
    (hnext : answer = .done → Updated hash faults name content c next.1 next.2)
    (hstay : ∀ result, answer ≠ .done → result ≠ .ok → (answer = .stopped → result = .stopped) →
      Updated hash faults name content c state result) :
    Updated hash faults name content c (Agent.attempt answer describe state next).1
      (Agent.attempt answer describe state next).2 :=
  attempt_cases (P := fun p => Updated hash faults name content c p.1 p.2) hnext hstay

theorem updated_updatePolicy :
    Updated hash faults name content c (c.updatePolicy hash faults name content).1
      (c.updatePolicy hash faults name content).2 := by
  unfold updatePolicy
  cases hpolicy : c.policyMap name with
  | none => exact .same (by simp)
  | some policy =>
      have hstay : ∀ {result}, result ≠ .ok → Updated hash faults name content c c result :=
        fun hne => .same fun hok => absurd hok hne
      refine .attempt (fun hmkdir => ?_) fun _ _ hne _ => hstay hne
      refine .attempt (fun hhash => ?_) fun _ _ hne _ => hstay hne
      by_cases hsha : policy.sha = hash content
      · rw [if_pos hsha]
        exact .same fun _ p hp => by
          obtain rfl := Option.some.inj (hpolicy.symm.trans hp)
          exact hsha
      rw [if_neg hsha]
      by_cases hdest : policy.destination = ""
      · rw [if_pos hdest]
        exact .attempt (fun _ => .kept hpolicy hdest) fun _ _ hne _ => hstay hne
      rw [if_neg hdest]
      refine .attempt (fun hopen => ?_) fun _ _ hne _ => hstay hne
      have hreached : faults.Truncates c.disk name := by
        refine ⟨?_, hhash, hopen⟩
        cases hstore : (c.disk.store name).isSome with
        | true => exact Or.inl rfl
        | false => exact Or.inr (by simpa [hstore] using hmkdir)
      have hspoilt : ∀ bytes {result}, ¬ faults.Copied → result ≠ .ok →
          (faults.Stops → result = .stopped) →
          Updated hash faults name content c (c.setDestination policy.destination bytes) result :=
        fun bytes _ => .spoilt bytes hpolicy hdest hsha hreached
      refine .attempt (fun hsrc => ?_) fun _ hne hresult hstop =>
        hspoilt _ (fun h => hne h.1) hresult fun h => ?_
      · refine .attempt (fun hcopy => ?_) fun _ hne hresult hstop =>
          hspoilt _ (fun h => hne h.2.1) hresult fun h => ?_
        · refine .attempt (fun hrename => ?_) fun _ hne hresult hstop =>
            hspoilt _ (fun h => hne h.2.2) hresult fun h => ?_
          · exact .deployed hpolicy hdest hsha hreached ⟨hsrc, hcopy, hrename⟩
          · exact hstop (by simpa [Faults.Stops, hsrc, hcopy] using h)
        · exact hstop (by simpa [Faults.Stops, hsrc, hne] using h)
      · exact hstop (by simpa [Faults.Stops, hne] using h)

theorem savePolicyMap_cases (c : Controller) (faults : Faults) :
    (c.savePolicyMap faults).1 = c ∧ faults.answer .saveOpen ≠ .done ∨
      (c.savePolicyMap faults).1 = c.setInfo (.saved c.policyMap) ∨
      (c.savePolicyMap faults).1 = c.setInfo .broken := by
  unfold savePolicyMap
  split <;> simp_all

@[simp] theorem policyMap_savePolicyMap (c : Controller) (faults : Faults) :
    (c.savePolicyMap faults).1.policyMap = c.policyMap := by
  rcases savePolicyMap_cases c faults with ⟨h, _⟩ | h | h <;> rw [h] <;> rfl

@[simp] theorem destination_savePolicyMap (c : Controller) (faults : Faults) :
    (c.savePolicyMap faults).1.disk.destination = c.disk.destination := by
  rcases savePolicyMap_cases c faults with ⟨h, _⟩ | h | h <;> rw [h] <;> rfl

end Controller

section Records

variable {hash : Content → String} {files files' : String → Option Content} {m m' : PolicyMap}
  {name other path : String} {policy : PolicyDetail} {content bytes : Content}

def target (m : PolicyMap) (name : String) : Option String :=
  (m name).map PolicyDetail.destination

/-- No two policies share a destination. -/
def Separate (m : PolicyMap) : Prop :=
  ∀ name other path, path ≠ "" → target m name = some path → target m other = some path →
    name = other

theorem target_of_eq_some (h : m name = some policy) :
    target m name = some policy.destination := by
  simp [target, h]

theorem target_update (h : m name = some policy) (sha : String) :
    target (Function.update m name (some { policy with sha := sha })) = target m := by
  funext other
  by_cases hother : other = name
  · subst hother
    simp [target, h]
  · simp [target, Function.update_of_ne hother]

theorem Separate.congr (h : Separate m) (ht : target m' = target m) : Separate m' := by
  simpa only [Separate, ht] using h

theorem Separate.update_other (h : Separate m) (hpath : target m name = some path)
    (hother : m other = some policy) (hdest : policy.destination ≠ "") (hne : other ≠ name) :
    Function.update files path (some bytes) policy.destination = files policy.destination := by
  refine Function.update_of_ne (fun heq => hne ?_) _ _
  exact h other name path (heq ▸ hdest) (heq ▸ target_of_eq_some hother) hpath

/-- Records stay honest when those of one policy do and the others keep theirs with the
file they are about. -/
theorem Honest.frame (name : String) (h : Honest hash files m)
    (hself : ∀ policy, m' name = some policy → Deployed hash files' policy)
    (hothers : ∀ other policy, other ≠ name → m' other = some policy →
      policy.destination ≠ "" →
        m other = some policy ∧ files' policy.destination = files policy.destination) :
    Honest hash files' m' := by
  intro other policy hpolicy
  by_cases hother : other = name
  · exact hself policy (hother ▸ hpolicy)
  · intro hdest
    obtain ⟨hold, hfile⟩ := hothers other policy hother hpolicy hdest
    rw [hfile]
    exact h other policy hold hdest

theorem deployed_of_sha_eq_empty (h : policy.sha = "") : Deployed hash files policy :=
  fun _ hsha => absurd h hsha

/-- A file may be written over while nothing is recorded for its policy. -/
theorem Honest.write (h : Honest hash files m) (hsep : Separate m)
    (hpath : target m name = some path) (hsha : ∀ policy, m name = some policy → policy.sha = "") :
    Honest hash (Function.update files path (some bytes)) m :=
  h.frame name (fun policy hpolicy => deployed_of_sha_eq_empty (hsha policy hpolicy))
    fun _ _ hne hpolicy hdest => ⟨hpolicy, hsep.update_other hpath hpolicy hdest hne⟩

theorem Honest.keep (h : Honest hash files m) (hdest : policy.destination = "") (sha : String) :
    Honest hash files (Function.update m name (some { policy with sha := sha })) := by
  refine h.frame name (fun p hp => ?_) fun other p hne hp _ => ⟨?_, rfl⟩
  · obtain rfl : { policy with sha := sha } = p := by simpa using hp
    exact fun hne => absurd hdest hne
  · rwa [Function.update_of_ne hne] at hp

theorem Honest.deploy (h : Honest hash files m) (hsep : Separate m)
    (hpolicy : m name = some policy) :
    Honest hash (Function.update files policy.destination (some content))
      (Function.update m name (some { policy with sha := hash content })) := by
  refine h.frame name (fun p hp => ?_) fun other p hne hp hdest => ?_
  · obtain rfl : { policy with sha := hash content } = p := by simpa using hp
    exact fun _ _ => ⟨content, Function.update_self .., rfl⟩
  · rw [Function.update_of_ne hne] at hp
    exact ⟨hp, hsep.update_other (target_of_eq_some hpolicy) hp hdest hne⟩

end Records

namespace Controller

variable {hash : Content → String} {c c' : Controller} {faults : Faults} {name : String}
  {content : Content} {result : Result} {policy : PolicyDetail}

/-- The map in memory and the saved one list the same destinations, and share none. -/
structure Aligned (c : Controller) : Prop where
  separate : Separate c.policyMap
  agree : ∀ m, c.disk.info = .saved m → target m = target c.policyMap

theorem Aligned.separate_saved (h : c.Aligned) {m : PolicyMap} (hm : c.disk.info = .saved m) :
    Separate m :=
  h.separate.congr (h.agree m hm)

theorem Aligned.savePolicyMap (h : c.Aligned) (faults : Faults) :
    (c.savePolicyMap faults).1.Aligned := by
  rcases savePolicyMap_cases c faults with ⟨hc, _⟩ | hc | hc
  · rwa [hc]
  · rw [hc]
    refine ⟨h.separate, fun m hm => ?_⟩
    obtain rfl := InfoFile.saved.inj hm
    rfl
  · rw [hc]
    exact ⟨h.separate, fun m hm => by cases hm⟩

theorem Aligned.setSha (h : c.Aligned) (hpolicy : c.policyMap name = some policy) (sha : String) :
    (c.setSha name policy sha).Aligned := by
  have ht := target_update hpolicy sha
  exact ⟨h.separate.congr ht, fun m hm => (h.agree m hm).trans ht.symm⟩

theorem Aligned.updated (h : c.Aligned) (hu : Updated hash faults name content c c' result) :
    c'.Aligned := by
  cases hu with
  | same => exact h
  | spoilt bytes hpolicy => exact ⟨h.separate, h.agree⟩
  | kept hpolicy =>
      have hstore : (c.setStore name content).Aligned := ⟨h.separate, h.agree⟩
      exact (hstore.setSha hpolicy _).savePolicyMap faults
  | deployed hpolicy =>
      rename_i policy _ _ _ _
      have hstore : ((c.setDestination policy.destination content).setStore name content).Aligned :=
        ⟨h.separate, h.agree⟩
      exact (hstore.setSha hpolicy _).savePolicyMap faults

theorem honest_updated (hal : c.Aligned) (h : Honest hash c.disk.destination c.policyMap)
    (hu : Updated hash faults name content c c' result) (hlive : result ≠ .stopped)
    (hok : ∀ policy, c.policyMap name = some policy → policy.destination ≠ "" →
      policy.sha ≠ hash content → faults.Truncates c.disk name →
        faults.Copied ∨ policy.sha = "" ∨ faults.Stops) :
    Honest hash c'.disk.destination c'.policyMap := by
  cases hu with
  | same => exact h
  | spoilt bytes hpolicy hdest hsha hopen hcopied _ hstops =>
      have hempty := ((hok _ hpolicy hdest hsha hopen).resolve_left hcopied).resolve_right
        fun h => hlive (hstops h)
      refine h.write hal.separate (target_of_eq_some hpolicy) fun p hp => ?_
      obtain rfl := Option.some.inj (hpolicy.symm.trans hp)
      exact hempty
  | kept hpolicy hdest =>
      rw [policyMap_savePolicyMap, destination_savePolicyMap]
      exact h.keep hdest _
  | deployed hpolicy =>
      rw [policyMap_savePolicyMap, destination_savePolicyMap]
      exact h.deploy hal.separate hpolicy

theorem savedHonest_savePolicyMap (h : faults.answer .saveOpen ≠ .done → c.disk.SavedHonest hash)
    (hmap : Honest hash c.disk.destination c.policyMap) :
    (c.savePolicyMap faults).1.disk.SavedHonest hash := by
  rcases savePolicyMap_cases c faults with ⟨hc, hopen⟩ | hc | hc
  · rw [hc]
    exact h hopen
  · rw [hc]
    intro m hm
    obtain rfl := InfoFile.saved.inj hm
    exact hmap
  · rw [hc]
    exact fun m hm => by cases hm

/-- A file may be written over while the saved map records nothing for its policy. -/
theorem savedHonest_setDestination (hal : c.Aligned) (h : c.disk.SavedHonest hash)
    (hpolicy : c.policyMap name = some policy) (hsha : c.disk.info.sha name = "") (bytes : Content)
    : (c.setDestination policy.destination bytes).disk.SavedHonest hash := by
  intro m hm
  have hm : c.disk.info = .saved m := hm
  have ht : target m name = some policy.destination := by
    rw [hal.agree m hm]
    exact target_of_eq_some hpolicy
  refine (h m hm).write (hal.separate_saved hm) ht fun p hp => ?_
  simpa [InfoFile.sha, hm, hp] using hsha

theorem savedHonest_updated (hal : c.Aligned) (h : c.disk.SavedHonest hash)
    (hmap : Honest hash c.disk.destination c.policyMap)
    (hu : Updated hash faults name content c c' result)
    (hok : ∀ policy, c.policyMap name = some policy → policy.destination ≠ "" →
      policy.sha ≠ hash content → faults.Truncates c.disk name →
        faults.Copied ∧ faults.answer .saveOpen = .done ∨ c.disk.info.sha name = "") :
    c'.disk.SavedHonest hash := by
  cases hu with
  | same => exact h
  | spoilt bytes hpolicy hdest hsha hopen hcopied =>
      have hempty := (hok _ hpolicy hdest hsha hopen).resolve_left fun hc => hcopied hc.1
      exact savedHonest_setDestination hal h hpolicy hempty bytes
  | kept hpolicy hdest => exact savedHonest_savePolicyMap (fun _ => h) (hmap.keep hdest _)
  | deployed hpolicy hdest hsha hopen =>
      refine savedHonest_savePolicyMap (fun hsave => ?_) (hmap.deploy hal.separate hpolicy)
      have hempty := (hok _ hpolicy hdest hsha hopen).resolve_left fun hc => hsave hc.2
      exact savedHonest_setDestination hal h hpolicy hempty content

/-- A call that returns nil has left the pushed file at the destination. -/
theorem destination_of_updated (hinj : Function.Injective hash) (hne : ∀ content, hash content ≠ "")
    (h : Honest hash c.disk.destination c.policyMap)
    (hu : Updated hash faults name content c c' .ok) (hpolicy : c.policyMap name = some policy)
    (hdest : policy.destination ≠ "") : c'.disk.destination policy.destination = some content := by
  generalize hr : Result.ok = result at hu
  cases hu with
  | same hsame =>
      have hsha := hsame hr.symm policy hpolicy
      obtain ⟨found, hfile, hfound⟩ := h name policy hpolicy hdest (hsha ▸ hne content)
      rw [hfile, hinj (hfound.symm.trans hsha)]
  | spoilt bytes hp _ _ _ _ hresult => exact absurd hr.symm hresult
  | kept hp hempty =>
      obtain rfl := Option.some.inj (hpolicy.symm.trans hp)
      exact absurd hempty hdest
  | deployed hp =>
      obtain rfl := Option.some.inj (hpolicy.symm.trans hp)
      rw [destination_savePolicyMap]
      exact Function.update_self ..

end Controller

section Histories

open Controller

variable {hash : Content → String} {s t : State} {l : Label} {policies : List (String × String)}
  {name : String} {content : Content} {faults : Faults}

theorem separate_of_nodup (h : ((policies.map Prod.snd).filter (· ≠ "")).Nodup) :
    Separate (loadPolicyMap .absent policies) := by
  intro name other path hpath hname hother
  have hmem : ∀ name, target (loadPolicyMap .absent policies) name = some path →
      (name, path) ∈ policies.filter (fun p => p.2 ≠ "") := by
    intro name hname
    have hlook : policies.lookup name = some path := by
      simpa [target, loadPolicyMap, Function.comp_def] using hname
    obtain ⟨before, after, rfl, -⟩ := List.lookup_eq_some_iff.mp hlook
    simp [hpath]
  rw [List.filter_map] at h
  exact congrArg Prod.fst (List.inj_on_of_nodup_map h (hmem name hname) (hmem other hother) rfl)

theorem updated_call (hash : Content → String) (s : State) (m : PolicyMap) (name : String)
    (content : Content) (faults : Faults) :
    Updated hash faults name content ⟨s.disk, m⟩
      (updatePolicy hash ⟨s.disk, m⟩ faults name content).1
      (s.call hash m name content faults).2 :=
  updated_updatePolicy

theorem running_call {m m' : PolicyMap}
    (h : (s.call hash m name content faults).1.running = some m') :
    (s.call hash m name content faults).2 ≠ .stopped ∧
      (updatePolicy hash ⟨s.disk, m⟩ faults name content).1.policyMap = m' := by
  simpa [State.call] using h

structure State.Sound (hash : Content → String) (s : State) : Prop where
  saved : s.disk.SavedHonest hash
  separate : ∀ m, s.disk.info = .saved m → Separate m
  aligned : ∀ m, s.running = some m → Controller.Aligned ⟨s.disk, m⟩
  running : ∀ m, s.running = some m → Honest hash s.disk.destination m

theorem State.Sound.start (h : s.Sound hash)
    (hok : ((policies.map Prod.snd).filter (· ≠ "")).Nodup) :
    State.Sound hash { s with running := some (loadPolicyMap s.disk.info policies) } := by
  suffices hload : Controller.Aligned ⟨s.disk, loadPolicyMap s.disk.info policies⟩ ∧
      Honest hash s.disk.destination (loadPolicyMap s.disk.info policies) by
    refine ⟨h.saved, h.separate, fun m hm => ?_, fun m hm => ?_⟩
    · obtain rfl := Option.some.inj hm
      exact hload.1
    · obtain rfl := Option.some.inj hm
      exact hload.2
  cases hinfo : s.disk.info with
  | absent =>
      refine ⟨⟨separate_of_nodup hok, fun m hm => ?_⟩, fun name policy hpolicy => ?_⟩
      · exact absurd (hinfo.symm.trans hm) (by simp)
      · obtain ⟨_, _, rfl⟩ := Option.map_eq_some_iff.mp hpolicy
        exact deployed_of_sha_eq_empty rfl
  | saved m =>
      refine ⟨⟨h.separate m hinfo, fun m' hm' => ?_⟩, h.saved m hinfo⟩
      obtain rfl := InfoFile.saved.inj (hinfo.symm.trans hm')
      rfl
  | broken =>
      refine ⟨⟨fun name other path _ hname => ?_, fun m hm => ?_⟩, fun name policy hpolicy => ?_⟩
      · simp [target, loadPolicyMap] at hname
      · exact absurd (hinfo.symm.trans hm) (by simp)
      · simp [loadPolicyMap] at hpolicy

theorem State.Sound.call (h : s.Sound hash) {m : PolicyMap} (hm : s.running = some m)
    (hok : CarriedThrough hash s (.call name content faults)) :
    (s.call hash m name content faults).1.Sound hash := by
  have hal := h.aligned m hm
  have hmap := h.running m hm
  have hu := updated_call hash s m name content faults
  have hal' := hal.updated hu
  have hsaved' := savedHonest_updated hal h.saved hmap hu fun policy hp hdest hsha hopen =>
    (hok m hm policy hp hdest hsha hopen).2
  refine ⟨hsaved', fun m' hm' => hal'.separate_saved hm', fun m' hm' => ?_, fun m' hm' => ?_⟩
  · obtain ⟨-, rfl⟩ := running_call hm'
    exact hal'
  · obtain ⟨hlive, rfl⟩ := running_call hm'
    exact honest_updated hal hmap hu hlive fun policy hp hdest hsha hopen =>
      (hok m hm policy hp hdest hsha hopen).1

theorem State.Sound.step (h : s.Sound hash) (hok : CarriedThrough hash s l)
    (hstep : step hash s l = some t) : t.Sound hash := by
  cases l with
  | start policies =>
      obtain rfl := Option.some.inj hstep
      exact h.start hok
  | call name content faults =>
      cases hm : s.running with
      | none => simp [Agent.step, hm] at hstep
      | some m =>
          obtain rfl : (s.call hash m name content faults).1 = t := by
            simpa [Agent.step, hm] using hstep
          exact h.call hm hok

theorem State.Initial.sound (h : Initial s) : s.Sound hash := by
  obtain ⟨hrunning, hinfo⟩ := h
  refine ⟨fun m hm => ?_, fun m hm => ?_, fun m hm => ?_, fun m hm => ?_⟩
  · exact absurd (hinfo.symm.trans hm) (by simp)
  · exact absurd (hinfo.symm.trans hm) (by simp)
  · exact absurd (hrunning.symm.trans hm) (by simp)
  · exact absurd (hrunning.symm.trans hm) (by simp)

/-- While calls that truncate a destination are carried through, the recorded hashes are those of
the deployed files, and a call that returns nil has deployed the pushed file. -/
theorem deployed_of_carriedThrough (hinj : Function.Injective hash)
    (hne : ∀ content, hash content ≠ "") (h : Reach (step hash) (CarriedThrough hash) Initial s) :
    s.Truthful hash ∧
      ∀ m name content faults policy, s.running = some m → m name = some policy →
        policy.destination ≠ "" → (s.call hash m name content faults).2 = .ok →
          (s.call hash m name content faults).1.disk.destination policy.destination =
            some content := by
  have hsound : s.Sound hash :=
    Reach.invariant (fun _ hs => State.Initial.sound hs) (fun _ _ _ hs => hs.step) h
  refine ⟨⟨hsound.running, hsound.saved⟩, fun m name content faults policy hm hp hdest hr => ?_⟩
  have hu := updated_call hash s m name content faults
  rw [hr] at hu
  exact destination_of_updated hinj hne (hsound.running m hm) hu hp hdest

end Histories

/-- An injective stand-in for SHA-256. -/
def spelledOut (content : Content) : String := "#" ++ Text.latin1 content

theorem spelledOut_injective : Function.Injective spelledOut := by
  intro a b h
  have hchars := congrArg String.toList h
  simp only [spelledOut, String.toList_append, List.append_cancel_left_eq] at hchars
  exact Text.latin1_injective (String.toList_inj.mp hchars)

theorem spelledOut_ne_empty (content : Content) : spelledOut content ≠ "" := by
  intro h
  have := congrArg String.toList h
  simp [spelledOut] at this

def fresh : State := ⟨⟨fun _ => none, fun _ => none, .absent⟩, none⟩

def noFaults : Faults := ⟨fun _ => .done, 0⟩

def renameFails : Faults := ⟨fun op => if op = .rename then .failed "EIO" else .done, 0⟩

def firewall : List (String × String) := [("firewall", "/etc/rules")]

theorem initial_fresh : Initial fresh :=
  ⟨rfl, rfl⟩

/-- The record of the firewall policy, what pushing `content` returns, and what then lies at
the destination. -/
def push (content : Content) (s : State) : Option (Option PolicyDetail × Result × Option Content) :=
  s.running.map fun m =>
    let (t, result) := s.call spelledOut m "firewall" content noFaults
    (m "firewall", result, t.disk.destination "/etc/rules")

theorem deployed_of_carriedThrough_push :
    ∃ s m policy, Reach (step spelledOut) (CarriedThrough spelledOut) Initial s ∧
      s.running = some m ∧ m "firewall" = some policy ∧ policy.destination = "/etc/rules" ∧
      (s.call spelledOut m "firewall" [66] noFaults).2 = .ok ∧
      (s.call spelledOut m "firewall" [66] noFaults).1.disk.destination policy.destination =
        some [66] := by
  have hrun : ((run (fun s l => if CarriedThrough spelledOut s l then step spelledOut s l
      else none) fresh [.start firewall, .call "firewall" [65] noFaults]).bind (push [66])) =
      some (some ⟨"/etc/rules", spelledOut [65]⟩, .ok, some [66]) := by
    decide +kernel
  obtain ⟨s, hs, hpush⟩ := Option.bind_eq_some_iff.mp hrun
  obtain ⟨m, hm, hout⟩ := Option.map_eq_some_iff.mp hpush
  obtain ⟨hpolicy, hrest⟩ := Prod.mk.inj hout
  obtain ⟨hresult, -⟩ := Prod.mk.inj hrest
  have hreach := Reach.of_run (Reach.init initial_fresh) hs
  refine ⟨s, m, _, hreach, hm, hpolicy, rfl, hresult, ?_⟩
  exact (deployed_of_carriedThrough spelledOut_injective spelledOut_ne_empty hreach).2 m "firewall"
    [66] noFaults _ hm hpolicy (by decide) hresult

/-- The second push overwrites the destination and fails; the first policy pushed again is
taken to be deployed. -/
theorem repush_keeps_other_policy :
    ∃ s m policy, Reach (step spelledOut) (fun _ _ => True) Initial s ∧
      s.running = some m ∧ m "firewall" = some policy ∧ policy.destination = "/etc/rules" ∧
      (s.call spelledOut m "firewall" [65] noFaults).2 = .ok ∧
      (s.call spelledOut m "firewall" [65] noFaults).1.disk.destination policy.destination =
        some [66] := by
  have hrun : ((run (fun s l => if True then step spelledOut s l else none) fresh
      [.start firewall, .call "firewall" [65] noFaults, .call "firewall" [66] renameFails]).bind
        (push [65])) = some (some ⟨"/etc/rules", spelledOut [65]⟩, .ok, some [66]) := by
    decide +kernel
  obtain ⟨s, hs, hpush⟩ := Option.bind_eq_some_iff.mp hrun
  obtain ⟨m, hm, hout⟩ := Option.map_eq_some_iff.mp hpush
  obtain ⟨hpolicy, hrest⟩ := Prod.mk.inj hout
  obtain ⟨hresult, hfile⟩ := Prod.mk.inj hrest
  exact ⟨s, m, _, Reach.of_run (Reach.init initial_fresh) hs, hm, hpolicy, rfl, hresult, hfile⟩

end GhafGivc.Policy.Agent
