import GhafGivc.Policy.Controller

/-! # Configured policies

The agent reads its configuration at every start, but uses it only while nothing was saved.
The destinations of a saved map are those of one earlier configuration, and a file that was
cut short is never written again after the next start.
-/

namespace GhafGivc.Policy.Agent

open Core

def InfoFile.target (info : InfoFile) (name : String) : Option String :=
  match info with
  | .saved m => Agent.target m name
  | _ => none

def State.start (s : State) (policies : List (String × String)) : State :=
  { s with running := some (loadPolicyMap s.disk.info policies) }

/-- A configured policy: the recorded hash counts for the recorded destination only. -/
def InfoFile.configured (info : InfoFile) (name destination : String) : PolicyDetail :=
  ⟨destination, if info.target name = some destination then info.sha name else ""⟩

/-- After a start every configured policy is known with its destination, and a push for it
that meets no fault is carried out. -/
structure State.Knows (hash : Content → String) (s : State) (policies : List (String × String)) :
    Prop where
  listed : ∀ m ∈ (s.start policies).running, ∀ name destination,
    policies.lookup name = some destination →
      m name = some (s.disk.info.configured name destination)
  answered : ∀ m ∈ (s.start policies).running, ∀ name destination content faults,
    policies.lookup name = some destination → (∀ op, faults.answer op = .done) →
      ((s.start policies).call hash m name content faults).2 = .ok

section Calls

variable {hash : Content → String} {c c' : Controller} {faults : Faults} {name : String}
  {content : Content} {result : Result} {policy : PolicyDetail}

theorem Controller.updatePolicy_of_done (hpolicy : c.policyMap name = some policy)
    (hdone : ∀ op, faults.answer op = .done) :
    (c.updatePolicy hash faults name content).2 = .ok := by
  unfold updatePolicy finish copyPolicy savePolicyMap
  simp only [hpolicy, hdone, ite_self, attempt]
  split
  · rfl
  · split
    · rfl
    · rfl

/-- A call keeps the destinations, and saves nothing but the map of a policy it knows. -/
theorem Controller.Updated.targets (h : Updated hash faults name content c c' result) :
    target c'.policyMap = target c.policyMap ∧
      (c'.disk.info = c.disk.info ∨ c.policyMap name ≠ none ∧
        (c'.disk.info = .saved c'.policyMap ∨ c'.disk.info = .broken)) := by
  have hsaved : ∀ (d : Controller) (policy : PolicyDetail), d.policyMap = c.policyMap →
      d.disk.info = c.disk.info → c.policyMap name = some policy →
      let saved := ((d.setSha name policy (hash content)).savePolicyMap faults).1
      target saved.policyMap = target c.policyMap ∧
        (saved.disk.info = c.disk.info ∨ c.policyMap name ≠ none ∧
          (saved.disk.info = .saved saved.policyMap ∨ saved.disk.info = .broken)) := by
    intro d policy hmap hinfo hpolicy
    have hknown : c.policyMap name ≠ none := by simp [hpolicy]
    constructor
    · rw [← hmap] at hpolicy ⊢
      rw [policyMap_savePolicyMap]
      exact target_update hpolicy _
    · rcases savePolicyMap_cases (d.setSha name policy (hash content)) faults with
        ⟨hsame, -⟩ | hsave | hsave
      · rw [hsame]
        exact Or.inl hinfo
      · rw [hsave]
        exact Or.inr ⟨hknown, Or.inl rfl⟩
      · rw [hsave]
        exact Or.inr ⟨hknown, Or.inr rfl⟩
  cases h with
  | same => exact ⟨rfl, Or.inl rfl⟩
  | spoilt bytes hpolicy => exact ⟨rfl, Or.inl rfl⟩
  | kept hpolicy => exact hsaved _ _ rfl rfl hpolicy
  | deployed hpolicy => exact hsaved _ _ rfl rfl hpolicy

end Calls

/-- The destinations are those of a configuration of the run. -/
def Configured (labels : List Label) (m : PolicyMap) : Prop :=
  ∃ policies, .start policies ∈ labels ∧ ∀ name, target m name = policies.lookup name

def Empty (m : PolicyMap) : Prop := ∀ name, m name = none

theorem Configured.congr {labels : List Label} {m m' : PolicyMap} (h : Configured labels m)
    (ht : target m' = target m) : Configured labels m' := by
  rcases h with ⟨policies, hstart, htarget⟩
  exact ⟨policies, hstart, fun name => by rw [ht, htarget]⟩

theorem Empty.congr {m m' : PolicyMap} (h : Empty m) (ht : target m' = target m) : Empty m' := by
  intro name
  have hname := congrFun ht name
  simpa [target, h name] using hname

section Runs

variable {hash : Content → String} {s t : State} {labels : List Label} {l : Label}
  {policies : List (String × String)}

theorem step_cases (h : step hash s l = some t) :
    (∃ policies, l = .start policies ∧ t = s.start policies) ∨
    ∃ m name content faults, l = .call name content faults ∧ s.running = some m ∧
      t = (s.call hash m name content faults).1 := by
  cases l with
  | start policies => exact Or.inl ⟨policies, rfl, (Option.some.inj h).symm⟩
  | call name content faults =>
      cases hm : s.running with
      | none => simp [step, hm] at h
      | some m =>
          exact Or.inr ⟨m, name, content, faults, rfl, rfl, by simpa [step, hm] using h.symm⟩

/-- The maps of a state come from the configurations of the run. -/
structure State.Attributed (labels : List Label) (s : State) : Prop where
  saved : ∀ m, s.disk.info = .saved m → Configured labels m
  running : ∀ m ∈ s.running, Configured labels m ∨ Empty m

theorem State.Attributed.start (h : s.Attributed labels) (hl : .start policies ∈ labels) :
    (s.start policies).Attributed labels := by
  refine ⟨h.saved, fun m hm => ?_⟩
  cases Option.some.inj hm
  cases hinfo : s.disk.info with
  | absent => exact Or.inl ⟨policies, hl, by simp [target, loadPolicyMap, Function.comp_def]⟩
  | saved m => exact Or.inl (h.saved m hinfo)
  | broken => exact Or.inr fun _ => rfl

theorem State.Attributed.call (h : s.Attributed labels) {m : PolicyMap} (hm : s.running = some m)
    (name : String) (content : Content) (faults : Faults) :
    (s.call hash m name content faults).1.Attributed labels := by
  rcases (updated_call hash s m name content faults).targets with ⟨htarget, hinfo⟩
  constructor
  · intro saved hsaved
    rcases hinfo with hsame | ⟨hknown, hwritten | hbroken⟩
    · exact h.saved saved (hsame.symm.trans hsaved)
    · cases InfoFile.saved.inj (hwritten.symm.trans hsaved)
      cases h.running m hm with
      | inl hfrom => exact hfrom.congr htarget
      | inr hempty => exact absurd (hempty name) hknown
    · cases hbroken.symm.trans hsaved
  · intro m' hm'
    rcases running_call hm' with ⟨-, hmap⟩
    rw [← hmap]
    cases h.running m hm with
    | inl hfrom => exact Or.inl (hfrom.congr htarget)
    | inr hempty => exact Or.inr (hempty.congr htarget)

theorem State.Attributed.run (h : s.Attributed labels)
    (hrun : Core.run (step hash) s labels = some t) : t.Attributed labels := by
  refine run_preserves (P := State.Attributed labels) (fun l hl a b ha hb => ?_) h hrun
  rcases step_cases hb with ⟨policies, rfl, rfl⟩ | ⟨m, name, content, faults, -, hm, rfl⟩
  · exact ha.start hl
  · exact ha.call hm name content faults

/-- Nothing is known and nothing can be read back. -/
def State.Lost (s : State) : Prop := s.disk.info = .broken ∧ ∀ m ∈ s.running, Empty m

theorem State.Lost.step (h : s.Lost) (hstep : step hash s l = some t) : t.Lost := by
  rcases step_cases hstep with ⟨policies, rfl, rfl⟩ | ⟨m, name, content, faults, -, hm, rfl⟩
  · refine ⟨h.1, fun m hm => ?_⟩
    cases Option.some.inj hm
    rw [h.1]
    exact fun _ => rfl
  · have hempty := h.2 m hm
    rcases (updated_call hash s m name content faults).targets with ⟨htarget, hinfo⟩
    constructor
    · cases hinfo with
      | inl hsame => exact hsame.trans h.1
      | inr hsaved => exact absurd (hempty name) hsaved.1
    · intro m' hm'
      rcases running_call hm' with ⟨-, hmap⟩
      rw [← hmap]
      exact hempty.congr htarget

theorem State.lost_start (h : s.disk.info = .broken) (policies : List (String × String)) :
    (s.start policies).Lost := by
  refine ⟨h, fun m hm => ?_⟩
  cases Option.some.inj hm
  rw [h]
  exact fun _ => rfl

theorem listed_iff (info : InfoFile) (policies : List (String × String)) :
    (∀ name destination, policies.lookup name = some destination →
      loadPolicyMap info policies name = some (info.configured name destination)) ↔
    info = .absent ∨ ∀ name destination,
      policies.lookup name = some destination → info.target name = some destination := by
  cases info with
  | absent =>
      refine ⟨fun _ => Or.inl rfl, fun _ name destination hlookup => ?_⟩
      simp [loadPolicyMap, hlookup, InfoFile.configured, InfoFile.target]
  | saved m =>
      constructor
      · intro h
        exact Or.inr fun name destination hlookup => target_of_eq_some (h name destination hlookup)
      · intro h name destination hlookup
        have htarget : target m name = some destination :=
          (h.resolve_left (by simp)) name destination hlookup
        rcases Option.map_eq_some_iff.mp htarget with ⟨policy, hpolicy, hdestination⟩
        subst hdestination
        simp [loadPolicyMap, hpolicy, InfoFile.configured, InfoFile.target, htarget, InfoFile.sha]
  | broken =>
      constructor
      · intro h
        right
        intro name destination hlookup
        cases h name destination hlookup
      · intro h name destination hlookup
        cases (h.resolve_left (by simp)) name destination hlookup

theorem State.knows_iff (hash : Content → String) (s : State) (policies : List (String × String)) :
    s.Knows hash policies ↔ s.disk.info = .absent ∨ ∀ name destination,
      policies.lookup name = some destination → s.disk.info.target name = some destination := by
  rw [← listed_iff]
  constructor
  · intro h
    exact h.listed _ rfl
  · intro h
    constructor
    · intro m hm
      cases Option.some.inj hm
      exact h
    · intro m hm name destination content faults hlookup hdone
      cases Option.some.inj hm
      exact Controller.updatePolicy_of_done (h name destination hlookup) hdone

end Runs

/-- In every history of the agent, a start knows the configured policies exactly when nothing
was saved before, or the saved map has each of them with the same destination. What was saved
has the destinations of one configuration that was started with before; a file that was cut
short stays so, whatever follows the next start. -/
theorem start_knows_iff {hash : Content → String} {s₀ s : State} {labels : List Label}
    (hinit : Initial s₀) (hrun : run (step hash) s₀ labels = some s) :
    (∀ policies, s.Knows hash policies ↔ s.disk.info = .absent ∨ ∀ name destination,
      policies.lookup name = some destination → s.disk.info.target name = some destination) ∧
    (∀ m, s.disk.info = .saved m → Configured labels m) ∧
    (s.disk.info = .broken → ∀ policies labels' t,
      run (step hash) (s.start policies) labels' = some t → t.disk.info = .broken) := by
  have hstart : s₀.Attributed labels := by
    constructor
    · intro m hm
      cases hinit.2.symm.trans hm
    · intro m hm
      cases hinit.1.symm.trans hm
  refine ⟨s.knows_iff hash, (hstart.run hrun).saved, ?_⟩
  intro hbroken policies labels' t hrun'
  have hlost : t.Lost := run_preserves (P := State.Lost) (fun _ _ _ _ ha hb => ha.step hb)
    (State.lost_start hbroken policies) hrun'
  exact hlost.1

def saveStops : Faults := ⟨fun op => if op = .saveWrite then .stopped else .done, 0⟩

def startAndPush (policies : List (String × String)) (name : String) (s : State) :
    Option (Option PolicyDetail × Result) :=
  (s.start policies).running.map fun m =>
    (m name, ((s.start policies).call spelledOut m name [66] noFaults).2)

theorem start_knows_iff_firewall :
    ∃ s, run (step spelledOut) fresh [.start firewall, .call "firewall" [65] noFaults] = some s ∧
      (∃ m, s.disk.info = .saved m) ∧ s.Knows spelledOut firewall := by
  have hrun : ((run (step spelledOut) fresh
      [.start firewall, .call "firewall" [65] noFaults]).map fun s =>
        (s.disk.info.target "firewall", s.disk.info.sha "firewall")) =
      some (some "/etc/rules", spelledOut [65]) := by
    decide +kernel
  rcases Option.map_eq_some_iff.mp hrun with ⟨s, hs, hout⟩
  have htarget := congrArg Prod.fst hout
  refine ⟨s, hs, ?_, ((start_knows_iff initial_fresh hs).1 firewall).mpr (Or.inr ?_)⟩
  · cases hinfo : s.disk.info with
    | saved m => exact ⟨m, rfl⟩
    | absent => simp [hinfo, InfoFile.target] at htarget
    | broken => simp [hinfo, InfoFile.target] at htarget
  · intro name destination hlookup
    have hin : (name, destination) ∈ firewall := by
      rcases List.lookup_eq_some_iff.mp hlookup with ⟨before, after, heq, -⟩
      simp [heq]
    cases List.mem_singleton.mp hin
    exact htarget

/-- A policy that was added is unknown, one that was moved keeps its old destination, and
after an interrupted write none is known. -/
theorem start_ignores_configuration :
    (run (step spelledOut) fresh [.start firewall, .call "firewall" [65] noFaults]).bind
        (startAndPush (("proxy", "/etc/proxy") :: firewall) "proxy") =
      some (none, .error "Unknown policy proxy.") ∧
    (run (step spelledOut) fresh [.start firewall, .call "firewall" [65] noFaults]).bind
        (startAndPush [("firewall", "/etc/nftables")] "firewall") =
      some (some ⟨"/etc/rules", spelledOut [65]⟩, .ok) ∧
    (run (step spelledOut) fresh [.start firewall, .call "firewall" [65] saveStops]).bind
        (startAndPush firewall "firewall") =
      some (none, .error "Unknown policy firewall.") := by
  decide +kernel

end GhafGivc.Policy.Agent
