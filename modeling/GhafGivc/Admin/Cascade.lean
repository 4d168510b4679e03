import GhafGivc.Admin.StartApp

/-! # Deregistration and parent links

Agents register themselves with their VM unit as parent, and their services with
themselves as parent. The registry keeps of a parent only the VM that it names, so it knows
the VM of an agent and of an application, but not the agent of a service.
-/

namespace GhafGivc.Admin

open Core

def agentOf (vm : String) : String := (VmName.vm vm).agentService

def unitOf (vm : String) : String := (VmName.vm vm).vmService

/-- A VM name: not empty, and without the sign that numbers units. -/
def Plain (vm : String) : Prop := vm ≠ "" ∧ '@' ∉ vm.toList

instance (vm : String) : Decidable (Plain vm) := by
  unfold Plain
  infer_instance

section Names

variable {vm vm' : String}

theorem agentOf_inj : agentOf vm = agentOf vm' ↔ vm = vm' := by
  refine ⟨fun h => ?_, congrArg agentOf⟩
  have hlist := congrArg String.toList h
  simpa [agentOf, VmName.agentService, VmName.display, String.toList_inj] using hlist

theorem parseVmName_unitOf : parseVmName (unitOf vm) = some vm := parseVmName_eq_some.mpr rfl

theorem unitOf_inj : unitOf vm = unitOf vm' ↔ vm = vm' := by
  refine ⟨fun h => ?_, congrArg unitOf⟩
  have hparsed : some vm = some vm' := by rw [← parseVmName_unitOf, h, parseVmName_unitOf]
  exact Option.some.inj hparsed

theorem agentOf_ne_unitOf : agentOf vm ≠ unitOf vm' := by
  intro h
  have hlist := congrArg String.toList h
  simp [agentOf, unitOf, VmName.agentService, VmName.vmService] at hlist

theorem unitOf_ne_empty : unitOf vm ≠ "" := by
  intro h
  have hlist := congrArg String.toList h
  simp [unitOf, VmName.vmService] at hlist

theorem parseVmName_agentOf : parseVmName (agentOf vm) = none := by
  cases h : parseVmName (agentOf vm) with
  | none => rfl
  | some vm' => exact absurd (parseVmName_eq_some.mp h) agentOf_ne_unitOf

theorem notMem_agentOf (h : '@' ∉ vm.toList) : '@' ∉ (agentOf vm).toList := by
  simpa [agentOf, VmName.agentService, VmName.display] using h

theorem mem_unitName (app : String) (counter : Nat) : '@' ∈ (unitName app counter).toList := by
  simp [unitName]

end Names

/-! ## Registrations -/

inductive Registration where
  | request (req : RegistryRequest)
  | app (appName : String) (vmName : Option String) (status : UnitStatus)

/-- An agent names its VM unit as its parent; the agent of the host has no parent. -/
def RegistryRequest.FromAgent (req : RegistryRequest) : Prop :=
  ∃ vm, Plain vm ∧ req.name = agentOf vm ∧ (req.parent = unitOf vm ∨ req.parent = "") ∧
    ∃ ty, UnitType.ofNat req.type = some ty ∧ ty.service = .mgr

def RegistryRequest.FromService (req : RegistryRequest) : Prop :=
  ∃ vm, Plain vm ∧ req.parent = agentOf vm

def Registration.Sent : Registration → Prop
  | .request req => req.FromAgent ∨ req.FromService
  | .app appName vmName status =>
      Plain (StartApp.targetVm appName vmName).display ∧
        ∃ counter, status.name = unitName appName counter

/-- The registry, with the `Parent` of the request that each entry stems from. -/
structure Tracked where
  registry : Registry
  parents : String → Option String

def Tracked.register (s : Tracked) (entry : RegistryEntry) (parent : Option String) : Tracked :=
  ⟨(s.registry.register entry).1, Function.update s.parents entry.name parent⟩

/-- A request that cannot be read is refused, and an application needs its agent. -/
def Tracked.apply (s : Tracked) : Registration → Tracked
  | .request req =>
      match RegistryEntry.tryFrom req with
      | .ok entry => s.register entry (some req.parent)
      | .error _ => s
  | .app appName vmName status =>
      let vm := StartApp.targetVm appName vmName
      if s.registry.contains vm.agentService ∧ status.activeState = "active" then
        s.register (appEntry status vm) none
      else s

def Tracked.empty : Tracked := ⟨Registry.empty, fun _ => none⟩

def registered (regs : List Registration) : Tracked := regs.foldl Tracked.apply .empty

/-! ## Where entries come from -/

/-- An entry is the agent of a VM, an endpoint whose VM is not known (a service or the agent
of the host), or an application. -/
inductive Origin (s : Tracked) (entry : RegistryEntry) : Prop
  | agent (vm : String) (endpoint : EndpointEntry) (hname : entry.name = agentOf vm)
      (hparent : s.parents entry.name = some (unitOf vm))
      (hplace : entry.placement = .endpoint endpoint vm) (htype : entry.type.service = .mgr)
  | unplaced (parent : String) (endpoint : EndpointEntry)
      (hshape : parent = "" ∨ ∃ vm, parent = agentOf vm)
      (hparent : s.parents entry.name = some parent)
      (hplace : entry.placement = .endpoint endpoint "")
  | app (vm : String) (hvm : Plain vm) (hname : '@' ∈ entry.name.toList)
      (hparent : s.parents entry.name = none)
      (hplace : entry.placement = .managed (unitOf vm) (agentOf vm))
      (htype : entry.type.service = .app) (hagent : s.registry.contains (agentOf vm) = true)

structure Tracked.Sound (s : Tracked) : Prop where
  origin : ∀ entry ∈ s.registry.entries, Origin s entry
  live : ∀ name parent, s.parents name = some parent → s.registry.contains name = true

section Sound

variable {s t : Tracked} {entry : RegistryEntry}

theorem Origin.mono (h : Origin s entry) (hparents : t.parents entry.name = s.parents entry.name)
    (hcontains : ∀ name, s.registry.contains name = true → t.registry.contains name = true) :
    Origin t entry := by
  cases h with
  | agent vm endpoint hname hparent hplace htype =>
      exact .agent vm endpoint hname (hparents.trans hparent) hplace htype
  | unplaced parent endpoint hshape hparent hplace =>
      exact .unplaced parent endpoint hshape (hparents.trans hparent) hplace
  | app vm hvm hname hparent hplace htype hagent =>
      exact .app vm hvm hname (hparents.trans hparent) hplace htype (hcontains _ hagent)

theorem Origin.ne_unitOf {parent vm : String} (h : parent = "" ∨ ∃ vm', parent = agentOf vm') :
    parent ≠ unitOf vm := by
  rcases h with rfl | ⟨vm', rfl⟩
  · exact unitOf_ne_empty.symm
  · exact agentOf_ne_unitOf

theorem Origin.name_of_parent {vm : String} (h : Origin s entry)
    (hunit : s.parents entry.name = some (unitOf vm)) : entry.name = agentOf vm := by
  cases h with
  | agent vm' endpoint hname hparent hplace htype =>
      rw [hname, unitOf_inj.mp (Option.some.inj (hparent.symm.trans hunit))]
  | unplaced parent endpoint hshape hparent hplace =>
      exact absurd (Option.some.inj (hparent.symm.trans hunit)) (ne_unitOf hshape)
  | app vm' hvm hname hparent hplace htype hagent => simp [hparent] at hunit

theorem Origin.of_managed {unit agent : String} (h : Origin s entry)
    (hmanaged : entry.placement = .managed unit agent) :
    s.parents entry.name = none ∧ '@' ∈ entry.name.toList ∧
      ∃ vm, Plain vm ∧ unit = unitOf vm ∧ agent = agentOf vm ∧
        s.registry.contains agent = true := by
  cases h with
  | agent vm endpoint hname hparent hplace htype => simp [hplace] at hmanaged
  | unplaced parent endpoint hshape hparent hplace => simp [hplace] at hmanaged
  | app vm hvm hname hparent hplace htype hagent =>
      obtain ⟨rfl, rfl⟩ := Placement.managed.inj (hplace.symm.trans hmanaged)
      exact ⟨hparent, hname, vm, hvm, rfl, rfl, hagent⟩

theorem contains_register (s : Tracked) (entry : RegistryEntry) (parent : Option String)
    (name : String) :
    (s.register entry parent).registry.contains name =
      (name = entry.name || s.registry.contains name) := by
  rw [Tracked.register, Registry.register_fst, Registry.contains_insert]

theorem Tracked.Sound.register (h : s.Sound) {parent : Option String}
    (hnew : Origin (s.register entry parent) entry) : (s.register entry parent).Sound := by
  constructor
  · intro other hother
    have hget := Registry.get_of_mem hother
    rw [Tracked.register, Registry.register_fst, Registry.get_insert] at hget
    split at hget
    · obtain rfl := Option.some.inj hget
      exact hnew
    · rename_i hne
      refine (h.origin other (Registry.get_eq_some.mp hget).1).mono ?_ fun name hname => ?_
      · exact Function.update_of_ne hne _ _
      · simp [contains_register, hname]
  · intro name found hfound
    rw [contains_register]
    by_cases hname : name = entry.name
    · simp [hname]
    · have hold : s.parents name = some found := by
        simpa [Tracked.register, Function.update_of_ne hname] using hfound
      simp [h.live name found hold]

theorem Tracked.Sound.request (h : s.Sound) {req : RegistryRequest}
    (hsent : req.FromAgent ∨ req.FromService) (hentry : RegistryEntry.tryFrom req = .ok entry) :
    (s.register entry (some req.parent)).Sound := by
  obtain ⟨hname, htype, endpoint, hplace⟩ := tryFrom_eq_ok hentry
  have hparent : (s.register entry (some req.parent)).parents entry.name = some req.parent :=
    Function.update_self ..
  refine h.register ?_
  rcases hsent with ⟨vm, -, hagent, hunit | hnone, ty, hty, hmgr⟩ | ⟨vm, -, hservice⟩
  · rw [hunit, parseVmName_unitOf] at hplace
    rw [hunit] at hparent
    have hmgr' : entry.type.service = .mgr := by
      rw [Option.some.inj (htype.symm.trans hty)]
      exact hmgr
    rw [hunit]
    exact .agent vm endpoint (hname.trans hagent) hparent hplace hmgr'
  · have hempty : parseVmName "" = none := by decide
    rw [hnone, hempty] at hplace
    exact .unplaced req.parent endpoint (Or.inl hnone) hparent hplace
  · rw [hservice, parseVmName_agentOf] at hplace
    exact .unplaced req.parent endpoint (Or.inr ⟨vm, hservice⟩) hparent hplace

theorem Tracked.Sound.app (h : s.Sound) {appName : String} {vmName : Option String}
    {status : UnitStatus} (hvm : Plain (StartApp.targetVm appName vmName).display)
    (hunit : ∃ counter, status.name = unitName appName counter)
    (hagent : s.registry.contains (StartApp.targetVm appName vmName).agentService = true) :
    (s.register (appEntry status (StartApp.targetVm appName vmName)) none).Sound := by
  obtain ⟨counter, hname⟩ := hunit
  refine h.register (.app (StartApp.targetVm appName vmName).display hvm ?_ ?_ rfl rfl ?_)
  · change '@' ∈ status.name.toList
    rw [hname]
    exact mem_unitName appName counter
  · exact Function.update_self ..
  · rw [contains_register]
    exact Bool.or_eq_true_iff.mpr (Or.inr hagent)

theorem Tracked.Sound.apply (h : s.Sound) {reg : Registration} (hsent : reg.Sent) :
    (s.apply reg).Sound := by
  cases reg with
  | request req =>
      cases hentry : RegistryEntry.tryFrom req with
      | error err =>
          simp only [Tracked.apply, hentry]
          exact h
      | ok entry =>
          simp only [Tracked.apply, hentry]
          exact h.request hsent hentry
  | app appName vmName status =>
      simp only [Tracked.apply]
      split
      · rename_i hready
        exact h.app hsent.1 hsent.2 hready.1
      · exact h

theorem sound_registered {regs : List Registration} (hsent : ∀ reg ∈ regs, reg.Sent) :
    (registered regs).Sound := by
  have hempty : Tracked.empty.Sound :=
    ⟨fun entry hentry => absurd hentry (by simp [Tracked.empty, Registry.empty]),
      fun name parent hparent => absurd hparent (by simp [Tracked.empty])⟩
  unfold registered
  generalize Tracked.empty = s at hempty
  induction regs generalizing s with
  | nil => exact hempty
  | cons reg regs ih =>
      exact ih (fun r hr => hsent r (List.mem_cons_of_mem _ hr)) _
        (hempty.apply (hsent reg List.mem_cons_self))

end Sound

/-! ## What goes with an agent or a VM -/

inductive Target where
  | agent (vm : String)
  | vmUnit (vm : String)

namespace Target

def vm : Target → String
  | agent vm => vm
  | vmUnit vm => vm

def name : Target → String
  | agent vm => agentOf vm
  | vmUnit vm => unitOf vm

/-- The agents that go: the one deregistered, or those of the VM. -/
def Removes (s : Tracked) : Target → String → Prop
  | agent vm, name => name = agentOf vm
  | vmUnit vm, name => s.parents name = some (unitOf vm)

/-- The entries, apart from its own, that a target takes along. -/
def Takes (s : Tracked) (target : Target) (entry : RegistryEntry) : Prop :=
  entry.placement = .managed (unitOf target.vm) (agentOf target.vm) ∨
    match target with
    | agent _ => False
    | vmUnit vm => s.parents entry.name = some (unitOf vm)

end Target

section Takes

variable {s : Tracked} {entry : RegistryEntry} {target : Target}

theorem follows_agentOf_iff {vm : String} :
    Registry.follows (agentOf vm) entry = true ↔ entry.agentName = some (agentOf vm) := by
  simp [Registry.follows, parseVmName_agentOf]

theorem follows_unitOf_iff {vm : String} :
    Registry.follows (unitOf vm) entry = true ↔
      entry.agentName = some (unitOf vm) ∨ entry.vmName = some vm := by
  cases hvm : entry.vmName with
  | none => simp [Registry.follows, hvm]
  | some found => simp [Registry.follows, hvm, parseVmName_unitOf]

theorem follows_iff_takes (h : Origin s entry) (hvm : target.vm ≠ "")
    (hne : entry.name ≠ target.name) :
    Registry.follows target.name entry = true ↔ target.Takes s entry := by
  cases target with
  | agent vm =>
      have hne : entry.name ≠ agentOf vm := hne
      rw [Target.name, follows_agentOf_iff]
      cases h with
      | agent vm' endpoint hname hparent hplace htype =>
          simpa [RegistryEntry.agentName, hplace, Target.Takes] using hne
      | unplaced parent endpoint hshape hparent hplace =>
          simpa [RegistryEntry.agentName, hplace, Target.Takes] using hne
      | app vm' hplain hname hparent hplace htype hagent =>
          simp [RegistryEntry.agentName, hplace, Target.Takes, Target.vm, agentOf_inj, unitOf_inj]
  | vmUnit vm =>
      have hne : entry.name ≠ unitOf vm := hne
      rw [Target.name, follows_unitOf_iff]
      cases h with
      | agent vm' endpoint hname hparent hplace htype =>
          simp [RegistryEntry.agentName, RegistryEntry.vmName_of_endpoint hplace, hplace, htype,
            Target.Takes, hne, hparent, unitOf_inj]
      | unplaced parent endpoint hshape hparent hplace =>
          have hparent' : parent ≠ unitOf vm := Origin.ne_unitOf hshape
          have hvmName : entry.vmName ≠ some vm := by
            rw [RegistryEntry.vmName_of_endpoint hplace]
            split
            · exact fun heq => hne (parseVmName_eq_some.mp heq)
            · exact fun heq => hvm (Option.some.inj heq).symm
          simp [RegistryEntry.agentName, hplace, Target.Takes, hne, hvmName, hparent, hparent']
      | app vm' hplain hname hparent hplace htype hagent =>
          simp [RegistryEntry.agentName, RegistryEntry.vmName, hplace, htype, Target.Takes,
            Target.vm, agentOf_inj, unitOf_inj, agentOf_ne_unitOf, hparent, parseVmName_unitOf]

end Takes

/-! ## After a deregistration -/

/-- Entries related to the target: by name, by the parent of their request, or by the agent
or VM that they are managed in. -/
def Related (s : Tracked) (target : Target) (entry : RegistryEntry) : Prop :=
  entry.name = target.name ∨
    (∃ parent, s.parents entry.name = some parent ∧
      (parent = target.name ∨ target.Removes s parent)) ∨
    ∃ vm agent, entry.placement = .managed vm agent ∧ (vm = target.name ∨ agent = target.name)

structure FollowsParents (s : Tracked) (target : Target) (r : Registry) : Prop where
  children : ∀ name parent, r.contains name = true → s.parents name = some parent →
    ¬ target.Removes s parent
  managed : ∀ entry ∈ r.entries, ∀ vm agent, entry.placement = .managed vm agent →
    r.contains agent = true
  others : ∀ entry ∈ s.registry.entries, ¬ Related s target entry → r.get entry.name = some entry

/-- No other entry was registered with a parent that goes. -/
def Childless (s : Tracked) (target : Target) : Prop :=
  ∀ name parent, s.registry.contains name = true → name ≠ target.name →
    s.parents name = some parent → ¬ target.Removes s parent

section Deregister

variable {s : Tracked} {target : Target} {order : List RegistryEntry} {r : Registry}
  {events : List Event} {entry : RegistryEntry} {name : String}

theorem get_deregister_iff (h : s.Sound) (hvm : target.vm ≠ "")
    (hop : s.registry.deregister target.name order = .ok (r, events)) :
    r.get name = some entry ↔ s.registry.get name = some entry ∧ name ≠ target.name ∧
      ¬ target.Takes s entry := by
  obtain ⟨_, -, rfl, -⟩ := Registry.deregister_eq_ok hop
  rw [Registry.get_retain, Option.filter_eq_some_iff]
  simp only [Bool.and_eq_true, decide_eq_true_eq, Bool.not_eq_true']
  refine and_congr_right fun hget => ?_
  obtain ⟨hmem, rfl⟩ := Registry.get_eq_some.mp hget
  refine and_congr_right fun hne => ?_
  rw [← Bool.not_eq_true, follows_iff_takes (h.origin entry hmem) hvm hne]

theorem related_of_takes (h : target.Takes s entry) : Related s target entry := by
  rcases h with hplace | hparent
  · refine Or.inr (Or.inr ⟨_, _, hplace, ?_⟩)
    cases target with
    | agent vm => exact Or.inr rfl
    | vmUnit vm => exact Or.inl rfl
  · cases target with
    | agent vm => exact hparent.elim
    | vmUnit vm => exact Or.inr (Or.inl ⟨unitOf vm, hparent, Or.inl rfl⟩)

theorem not_takes_agentOf {vm : String} (h : Origin s entry) (hname : entry.name = agentOf vm)
    (hplain : Plain vm) (hother : vm ≠ target.vm) : ¬ target.Takes s entry := by
  rintro (hmanaged | hunit)
  · have happ := (h.of_managed hmanaged).2.1
    rw [hname] at happ
    exact notMem_agentOf hplain.2 happ
  · cases target with
    | agent vm' => exact hunit
    | vmUnit vm' => exact hother (agentOf_inj.mp (hname.symm.trans (h.name_of_parent hunit)))

/-- An application keeps its agent unless both go. -/
theorem agent_kept (h : s.Sound) (hvm : target.vm ≠ "")
    (hop : s.registry.deregister target.name order = .ok (r, events)) (hentry : entry ∈ r.entries)
    {unit agent : String} (hplace : entry.placement = .managed unit agent) :
    r.contains agent = true := by
  obtain ⟨hget, hne, htakes⟩ := (get_deregister_iff h hvm hop).mp (Registry.get_of_mem hentry)
  obtain ⟨-, -, vm, hplain, rfl, rfl, hagent⟩ :=
    (h.origin entry (Registry.get_eq_some.mp hget).1).of_managed hplace
  have hother : vm ≠ target.vm := by
    rintro rfl
    exact htakes (Or.inl hplace)
  have htarget : agentOf vm ≠ target.name := by
    cases target with
    | agent vm' => exact fun heq => hother (agentOf_inj.mp heq)
    | vmUnit vm' => exact agentOf_ne_unitOf
  obtain ⟨found, hfound⟩ := Option.isSome_iff_exists.mp hagent
  obtain ⟨hmem, hname⟩ := Registry.get_eq_some.mp hfound
  exact Registry.contains_of_get ((get_deregister_iff h hvm hop).mpr
    ⟨hfound, htarget, not_takes_agentOf (h.origin found hmem) hname hplain hother⟩)

theorem not_takes_of_removes (h : s.Sound) (hentry : entry ∈ s.registry.entries) {parent : String}
    (hparent : s.parents entry.name = some parent) (hremoves : target.Removes s parent) :
    ¬ target.Takes s entry := by
  rintro (hmanaged | hunit)
  · have hnone := ((h.origin entry hentry).of_managed hmanaged).1
    simp [hnone] at hparent
  · cases target with
    | agent vm => exact hunit
    | vmUnit vm =>
        have hunit : s.parents entry.name = some (unitOf vm) := hunit
        obtain rfl := Option.some.inj (hparent.symm.trans hunit)
        -- then the VM unit would be its own parent
        have hself : s.parents (unitOf vm) = some (unitOf vm) := hremoves
        obtain ⟨found, hfound⟩ := Option.isSome_iff_exists.mp (h.live _ _ hself)
        obtain ⟨hmem, hname⟩ := Registry.get_eq_some.mp hfound
        rw [← hname] at hself
        have hagent : found.name = agentOf vm := by
          refine (h.origin found hmem).name_of_parent ?_
          rw [hself, hname]
        exact agentOf_ne_unitOf (hagent.symm.trans hname)

/-- A deregistration follows the parent links exactly when no other entry was registered
with a parent that goes: such children are left behind. -/
theorem deregister_followsParents_iff {regs : List Registration}
    (hsent : ∀ reg ∈ regs, reg.Sent) (hvm : Plain target.vm)
    (hop : (registered regs).registry.deregister target.name order = .ok (r, events)) :
    FollowsParents (registered regs) target r ↔ Childless (registered regs) target := by
  have hsound := sound_registered hsent
  constructor
  · intro hfollows name parent hlive hne hparent hremoves
    obtain ⟨entry, hget⟩ := Option.isSome_iff_exists.mp hlive
    obtain ⟨hmem, hname⟩ := Registry.get_eq_some.mp hget
    have hstays : r.get name = some entry := by
      refine (get_deregister_iff hsound hvm.1 hop).mpr ⟨hget, hne, ?_⟩
      exact not_takes_of_removes hsound hmem (hname ▸ hparent) hremoves
    exact hfollows.children name parent (Registry.contains_of_get hstays) hparent hremoves
  · intro hchildless
    refine ⟨fun name parent hlive hparent => ?_, fun entry hentry vm agent hplace =>
      agent_kept hsound hvm.1 hop hentry hplace, fun entry hentry hunrelated => ?_⟩
    · obtain ⟨entry, hget⟩ := Option.isSome_iff_exists.mp hlive
      obtain ⟨hold, hne, -⟩ := (get_deregister_iff hsound hvm.1 hop).mp hget
      exact hchildless name parent (Registry.contains_of_get hold) hne hparent
    · refine (get_deregister_iff hsound hvm.1 hop).mpr ⟨Registry.get_of_mem hentry, ?_, ?_⟩
      · exact fun hname => hunrelated (Or.inl hname)
      · exact fun htakes => hunrelated (related_of_takes htakes)

end Deregister

def sampleRequest (name : String) (type : Nat) (parent : String) : RegistryRequest :=
  ⟨name, type, parent, some ⟨"tcp", "192.168.101.10", "9000", "chrome-vm"⟩,
    some ⟨name, "", "loaded", "active", "running", "", "running"⟩⟩

def agentSent : Registration :=
  .request (sampleRequest "givc-chrome-vm.service" 12 "microvm@chrome-vm.service")

def serviceSent : Registration :=
  .request (sampleRequest "clipboard.service" 13 "givc-chrome-vm.service")

def unitSent : Registration :=
  .request (sampleRequest "microvm@chrome-vm.service" 11 "givc-ghaf-host.service")

def appSent : Registration := .app "chrome" none StartApp.firstStarted

theorem sent_agentSent : agentSent.Sent :=
  Or.inl ⟨"chrome-vm", by decide, rfl, Or.inl rfl, ⟨.appVM, .mgr⟩, rfl, rfl⟩

theorem sent_serviceSent : serviceSent.Sent := Or.inr ⟨"chrome-vm", by decide, rfl⟩

theorem sent_unitSent : unitSent.Sent := Or.inr ⟨"ghaf-host", by decide, rfl⟩

theorem sent_appSent : appSent.Sent := ⟨by decide, 0, by decide +kernel⟩

def leftNames (regs : List Registration) (target : Target) : Option (List String) :=
  match (registered regs).registry.deregister target.name
      ((registered regs).registry.cascade target.name) with
  | .ok (r, _) => some (r.entries.map RegistryEntry.name)
  | .error _ => none

theorem leftNames_eq_some {regs : List Registration} {target : Target} {names : List String}
    (h : leftNames regs target = some names) :
    ∃ r events, (registered regs).registry.deregister target.name
        ((registered regs).registry.cascade target.name) = .ok (r, events) ∧
      r.entries.map RegistryEntry.name = names := by
  unfold leftNames at h
  cases hop : (registered regs).registry.deregister target.name
      ((registered regs).registry.cascade target.name) with
  | error err => simp [hop] at h
  | ok result =>
      simp only [hop, Option.some.injEq] at h
      exact ⟨result.1, result.2, rfl, h⟩

/-- Without a service nothing is left of the VM but its unit. -/
theorem deregister_followsParents_iff_app :
    ∃ r events, (registered [unitSent, agentSent, appSent]).registry.deregister
        (Target.agent "chrome-vm").name
        ((registered [unitSent, agentSent, appSent]).registry.cascade
          (Target.agent "chrome-vm").name) = .ok (r, events) ∧
      r.entries.map RegistryEntry.name = ["microvm@chrome-vm.service"] ∧
      FollowsParents (registered [unitSent, agentSent, appSent]) (.agent "chrome-vm") r := by
  have hleft : leftNames [unitSent, agentSent, appSent] (.agent "chrome-vm") =
      some ["microvm@chrome-vm.service"] := by decide +kernel
  obtain ⟨r, events, hop, hnames⟩ := leftNames_eq_some hleft
  refine ⟨r, events, hop, hnames, ?_⟩
  have hsent : ∀ reg ∈ [unitSent, agentSent, appSent], reg.Sent := by
    simp only [List.forall_mem_cons]
    exact ⟨sent_unitSent, sent_agentSent, sent_appSent, by simp⟩
  have hchildless : ∀ entry ∈ (registered [unitSent, agentSent, appSent]).registry.entries,
      ∀ parent ∈ (registered [unitSent, agentSent, appSent]).parents entry.name,
        parent ≠ agentOf "chrome-vm" := by decide +kernel
  refine (deregister_followsParents_iff hsent (by decide) hop).mpr ?_
  intro name parent hlive _ hparent hremoves
  obtain ⟨entry, hget⟩ := Option.isSome_iff_exists.mp hlive
  obtain ⟨hmem, rfl⟩ := Registry.get_eq_some.mp hget
  exact hchildless entry hmem parent hparent hremoves

theorem not_followsParents_of_left {regs : List Registration} {target : Target}
    {names : List String} (hleft : leftNames regs target = some names) {child parent : String}
    (hchild : child ∈ names) (hparent : (registered regs).parents child = some parent)
    (hremoves : target.Removes (registered regs) parent) :
    ∃ r events, (registered regs).registry.deregister target.name
        ((registered regs).registry.cascade target.name) = .ok (r, events) ∧
      r.contains child = true ∧ ¬ FollowsParents (registered regs) target r := by
  obtain ⟨r, events, hop, rfl⟩ := leftNames_eq_some hleft
  have hcontains : r.contains child = true := by
    rw [Registry.contains_eq_decide]
    exact decide_eq_true hchild
  exact ⟨r, events, hop, hcontains, fun h => h.children child parent hcontains hparent hremoves⟩

/-- The service of an agent stays when the agent or its VM is removed. -/
theorem deregister_leaves_service :
    (∀ reg ∈ [unitSent, agentSent, serviceSent], reg.Sent) ∧
      ∀ target ∈ [Target.agent "chrome-vm", Target.vmUnit "chrome-vm"], ∃ r events,
        (registered [unitSent, agentSent, serviceSent]).registry.deregister target.name
          ((registered [unitSent, agentSent, serviceSent]).registry.cascade target.name) =
            .ok (r, events) ∧ r.contains "clipboard.service" = true ∧
        ¬ FollowsParents (registered [unitSent, agentSent, serviceSent]) target r := by
  have hparent : (registered [unitSent, agentSent, serviceSent]).parents "clipboard.service" =
      some (agentOf "chrome-vm") := by decide +kernel
  have hagent : (registered [unitSent, agentSent, serviceSent]).parents (agentOf "chrome-vm") =
      some (unitOf "chrome-vm") := by decide +kernel
  have hleft : leftNames [unitSent, agentSent, serviceSent] (.agent "chrome-vm") =
      some ["microvm@chrome-vm.service", "clipboard.service"] := by decide +kernel
  have hleft' : leftNames [unitSent, agentSent, serviceSent] (.vmUnit "chrome-vm") =
      some ["clipboard.service"] := by decide +kernel
  simp only [List.forall_mem_cons]
  refine ⟨⟨sent_unitSent, sent_agentSent, sent_serviceSent, by simp⟩, ?_, ?_, by simp⟩
  · exact not_followsParents_of_left hleft (by simp) hparent rfl
  · exact not_followsParents_of_left hleft' (by simp) hparent hagent

end GhafGivc.Admin
