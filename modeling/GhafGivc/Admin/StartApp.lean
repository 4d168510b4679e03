import GhafGivc.Admin.Registry
import GhafGivc.Core.FirstMatch
import GhafGivc.Core.Transition

/-! # Starting applications

`start_app` takes the first free unit name of its application, waits for the agent to start
the unit, and only then registers it. Until then the name is free for other requests.
-/

namespace GhafGivc.Admin

open Core

def unitName (app : String) (counter : Nat) : String :=
  app ++ "@" ++ toString counter ++ ".service"

theorem unitName_injective (app : String) : Function.Injective (unitName app) := by
  intro i j h
  have hdigits : (toString i).toList = (toString j).toList := by
    simpa [unitName] using congrArg String.toList h
  have hread : ∀ n : Nat, Nat.ofDigitChars 10 (toString n).toList 0 = n := by
    intro n
    simp
  rw [← hread i, hdigits, hread j]

def parseApplicationName (name : String) : Except String (String × Int) :=
  match Text.stripTrail ".service".toList name.toList with
  | some nameNoSuffix =>
      match Delimited.rsplitOnce '@' nameNoSuffix with
      | some (left, right) =>
          match Text.parseSigned 32 right with
          | some num => .ok (String.ofList left, num)
          | none => .error ("While parsing number part of " ++ name)
      | none => .error ("App name " ++ name ++ " not it app@<number>.service format")
  | none => .error ("App name " ++ name ++ " not it app@<number>.service format")

theorem toList_unitName (app : String) (counter : Nat) :
    (unitName app counter).toList =
      app.toList ++ '@' :: ((toString counter).toList ++ ".service".toList) := by
  simp [unitName]

theorem parseApplicationName_unitName {app : String} {counter : Nat} (h : counter < 2 ^ 31) :
    parseApplicationName (unitName app counter) = .ok (app, counter) := by
  have hstrip : Text.stripTrail ".service".toList (unitName app counter).toList =
      some (app.toList ++ '@' :: (toString counter).toList) :=
    Text.stripTrail_eq_some.mpr (by simp [toList_unitName])
  have hsplit : Delimited.rsplitOnce '@' (app.toList ++ '@' :: (toString counter).toList) =
      some (app.toList, (toString counter).toList) :=
    Delimited.rsplitOnce_append_cons _ (Text.notMem_toString (by decide) counter)
  have hparse : Text.parseSigned 32 (toString counter).toList = some (counter : Int) :=
    Text.parseSigned_toString h
  unfold parseApplicationName
  rw [hstrip]
  dsimp only
  rw [hsplit]
  dsimp only
  rw [hparse]
  simp

/-- The loop ends after as many names as the registry has entries. -/
def Registry.createUniqueEntryName (r : Registry) (name : String) : String :=
  unitName name (firstFree (fun counter => r.contains (unitName name counter)) r.entries.length 0)

theorem Registry.contains_createUniqueEntryName (r : Registry) (name : String) :
    r.contains (r.createUniqueEntryName name) = false := by
  have hfree := firstFree_notMem (unitName_injective name) (r.entries.map RegistryEntry.name)
  rw [List.length_map] at hfree
  rw [createUniqueEntryName, contains_eq_decide]
  simpa only [contains_eq_decide, decide_eq_false_iff_not] using hfree

/-- The loop of `create_unique_entry_name`, for at most `fuel` rounds. -/
def Registry.entryNameLoop (r : Registry) (name : String) : Nat → Nat → Option String
  | 0, _ => none
  | fuel + 1, counter =>
      let newName := unitName name counter
      if !r.contains newName then some newName else r.entryNameLoop name fuel (counter + 1)

theorem Registry.entryNameLoop_of_free {r : Registry} {name : String} {fuel counter c : Nat}
    (hstart : counter ≤ c) (hfuel : c < counter + fuel)
    (hfree : r.contains (unitName name c) = false)
    (htaken : ∀ j, counter ≤ j → j < c → r.contains (unitName name j) = true) :
    r.entryNameLoop name fuel counter = some (unitName name c) := by
  induction fuel generalizing counter with
  | zero => omega
  | succ fuel ih =>
      unfold entryNameLoop
      by_cases heq : counter = c
      · subst heq
        simp [hfree]
      · have hlt : counter < c := by omega
        have hrest := ih hlt (by omega) fun j hj => htaken j (by omega)
        simp [htaken counter (Nat.le_refl counter) hlt, hrest]

/-- The name is the first free one, whatever the application is called, and is read back. -/
theorem Registry.createUniqueEntryName_least (r : Registry) (name : String) :
    ∃ c ≤ r.entries.length,
      (∀ fuel, c < fuel → r.entryNameLoop name fuel 0 = some (unitName name c)) ∧
      r.createUniqueEntryName name = unitName name c ∧
      r.contains (unitName name c) = false ∧
      (∀ j < c, r.contains (unitName name j) = true) ∧
      (c < 2 ^ 31 → parseApplicationName (r.createUniqueEntryName name) = .ok (name, c)) := by
  have hle := firstFree_le (fun counter => r.contains (unitName name counter)) r.entries.length 0
  have hspec := firstFree_spec (fun counter => r.contains (unitName name counter))
    r.entries.length 0
  have hfree := r.contains_createUniqueEntryName name
  unfold createUniqueEntryName at hfree ⊢
  generalize firstFree (fun counter => r.contains (unitName name counter)) r.entries.length 0 = c
    at hle hspec hfree ⊢
  have htaken : ∀ j < c, r.contains (unitName name j) = true := by
    intro j hj
    exact hspec.1 j (Nat.zero_le j) hj
  refine ⟨c, by omega, ?_, rfl, hfree, htaken, parseApplicationName_unitName⟩
  intro fuel hfuel
  exact entryNameLoop_of_free (Nat.zero_le c) (by omega) hfree fun j _ => htaken j

/-- Two instances of an application whose name ends like that of a unit. -/
def fooRegistry : Registry where
  entries := [0, 1].map fun counter => appEntry
    ⟨unitName "foo@0.service" counter, "", "loaded", "active", "running", "", "running"⟩
    (.vm "foo-vm")
  names_nodup := by decide

theorem Registry.createUniqueEntryName_least_nested :
    fooRegistry.createUniqueEntryName "foo@0.service" = unitName "foo@0.service" 2 ∧
      parseApplicationName (fooRegistry.createUniqueEntryName "foo@0.service") =
        .ok ("foo@0.service", 2) := by
  rcases fooRegistry.createUniqueEntryName_least "foo@0.service" with
    ⟨c, hle, -, hname, hfree, -, hparse⟩
  have htaken : fooRegistry.contains (unitName "foo@0.service" 0) = true ∧
      fooRegistry.contains (unitName "foo@0.service" 1) = true := by decide
  have hzero : c ≠ 0 := by
    rintro rfl
    cases htaken.1.symm.trans hfree
  have hone : c ≠ 1 := by
    rintro rfl
    cases htaken.2.symm.trans hfree
  have hc : c = 2 := by
    change c ≤ 2 at hle
    omega
  subst hc
  exact ⟨hname, hparse (by decide)⟩

namespace StartApp

/-! ## Requests -/

inductive Phase where
  | idle
  | inFlight (unit : String) (vm : VmName)
  | registered (unit : String)
  | ended
deriving DecidableEq

def Phase.unit : Phase → Option String
  | .inFlight unit _ => some unit
  | .registered unit => some unit
  | _ => none

def Phase.flying : Phase → Option String
  | .inFlight unit _ => some unit
  | _ => none

structure State (Req : Type) where
  registry : Registry
  phase : Req → Phase

inductive Label (Req : Type) where
  | choose (request : Req) (appName : String) (vmName : Option String)
  | finish (request : Req) (status : UnitStatus)
  | fail (request : Req)
  | deregister (name : String) (order : List RegistryEntry)

variable {Req : Type} [DecidableEq Req]

def targetVm (appName : String) : Option String → VmName
  | some vmName => .vm vmName
  | none => .app appName

def State.goto (s : State Req) (request : Req) (phase : Phase) : State Req :=
  { s with phase := Function.update s.phase request phase }

/-- A request whose entry is gone has ended. -/
def Phase.after (registry : Registry) : Phase → Phase
  | .registered unit => if registry.contains unit then .registered unit else .ended
  | phase => phase

/-- The agent starts the unit under the name it was asked for. -/
def step (s : State Req) : Label Req → Option (State Req)
  | .choose request appName vmName =>
      let vm := targetVm appName vmName
      if s.phase request = .idle ∧ s.registry.contains vm.agentService then
        some (s.goto request (.inFlight (s.registry.createUniqueEntryName appName) vm))
      else none
  | .finish request status =>
      match s.phase request with
      | .inFlight unit vm =>
          if status.name ≠ unit then none
          else if status.activeState = "active" then
            some { s.goto request (.registered unit) with
              registry := (s.registry.register (appEntry status vm)).1 }
          else some (s.goto request .ended)
      | _ => none
  | .fail request =>
      match s.phase request with
      | .inFlight _ _ => some (s.goto request .ended)
      | _ => none
  | .deregister name order =>
      if order.Perm (s.registry.cascade name) then
        match s.registry.deregister name order with
        | .ok (registry, _) => some ⟨registry, fun request => (s.phase request).after registry⟩
        | .error _ => some s
      else none

def Initial (s : State Req) : Prop := ∀ request, s.phase request = .idle

/-- No two requests in flight or registered have the same unit. -/
def Distinct (s : State Req) : Prop :=
  ∀ p q unit, (s.phase p).unit = some unit → (s.phase q).unit = some unit → p = q

/-- A request that registers its unit announces no shutdown. -/
def NoReplacement (s : State Req) : Prop :=
  ∀ request unit vm status, s.phase request = .inFlight unit vm → status.name = unit →
    (s.registry.register (appEntry status vm)).2 =
      [.unitRegistered (appEntry status vm).toQueryResult]

/-- The name that is chosen is not in flight. -/
def ChoosesFresh (s : State Req) : Label Req → Prop
  | .choose _ appName _ => ∀ other,
      (s.phase other).flying ≠ some (s.registry.createUniqueEntryName appName)
  | _ => True

/-! ## One step -/

/-- Units in flight are not registered, and registered ones are. -/
structure Separate (s : State Req) : Prop where
  distinct : Distinct s
  free : ∀ request unit vm, s.phase request = .inFlight unit vm →
    s.registry.contains unit = false
  present : ∀ request unit, s.phase request = .registered unit →
    s.registry.contains unit = true

section Step

variable {s t : State Req} {l : Label Req} {request : Req} {unit : String} {vm : VmName}
  {phase : Phase} {registry : Registry}

theorem unit_of_flying (h : phase.flying = some unit) : phase.unit = some unit := by
  cases phase with
  | inFlight other otherVm => exact h
  | idle => cases h
  | registered other => cases h
  | ended => cases h

theorem phase_goto (other : Req) :
    (s.goto request phase).phase other = if other = request then phase else s.phase other := by
  simp [State.goto, Function.update_apply]

omit [DecidableEq Req] in
theorem Separate.noReplacement (h : Separate s) : NoReplacement s := by
  intro request unit vm status hphase hname
  have hfree := h.free request unit vm hphase
  have hnone : s.registry.get status.name = none := by
    rw [← hname] at hfree
    simpa [Registry.contains] using hfree
  simp [Registry.register, appEntry, hnone]

theorem Separate.goto (h : Separate s)
    (hdistinct : ∀ other unit, other ≠ request → (s.phase other).unit = some unit →
      phase.unit ≠ some unit)
    (hfree : ∀ other unit vm, other ≠ request → s.phase other = .inFlight unit vm →
      registry.contains unit = false)
    (hpresent : ∀ other unit, other ≠ request → s.phase other = .registered unit →
      registry.contains unit = true)
    (hself : ∀ unit vm, phase = .inFlight unit vm → registry.contains unit = false)
    (hself' : ∀ unit, phase = .registered unit → registry.contains unit = true) :
    Separate { s.goto request phase with registry := registry } := by
  refine ⟨fun p q unit hp hq => ?_, fun other unit vm hother => ?_, fun other unit hother => ?_⟩
  · have hp : ((s.goto request phase).phase p).unit = some unit := hp
    have hq : ((s.goto request phase).phase q).unit = some unit := hq
    rw [phase_goto] at hp hq
    split at hp <;> split at hq
    · rename_i hpr hqr
      exact hpr.trans hqr.symm
    · rename_i hpr hqr
      exact absurd hp (hdistinct q unit hqr hq)
    · rename_i hpr hqr
      exact absurd hq (hdistinct p unit hpr hp)
    · exact h.distinct p q unit hp hq
  · have hother : (s.goto request phase).phase other = .inFlight unit vm := hother
    rw [phase_goto] at hother
    split at hother
    · exact hself unit vm hother
    · rename_i hne
      exact hfree other unit vm hne hother
  · have hother : (s.goto request phase).phase other = .registered unit := hother
    rw [phase_goto] at hother
    split at hother
    · exact hself' unit hother
    · rename_i hne
      exact hpresent other unit hne hother

theorem Separate.choose (h : Separate s) {appName : String}
    (hfresh : ∀ other, (s.phase other).flying ≠
      some (s.registry.createUniqueEntryName appName)) (vm : VmName) :
    Separate (s.goto request (.inFlight (s.registry.createUniqueEntryName appName) vm)) := by
  have hnew := s.registry.contains_createUniqueEntryName appName
  refine h.goto (fun other unit hne hother hunit => ?_)
    (fun other unit vm _ => h.free other unit vm) (fun other unit _ => h.present other unit)
    (fun unit vm' hphase => ?_) (fun unit hphase => by cases hphase)
  · obtain rfl : s.registry.createUniqueEntryName appName = unit := Option.some.inj hunit
    cases hphase : s.phase other with
    | idle => simp [hphase, Phase.unit] at hother
    | ended => simp [hphase, Phase.unit] at hother
    | inFlight unit' vm' =>
        rw [hphase] at hother
        obtain rfl := Option.some.inj hother
        exact hfresh other (by rw [hphase]; rfl)
    | registered unit' =>
        rw [hphase] at hother
        obtain rfl := Option.some.inj hother
        rw [h.present other _ hphase] at hnew
        cases hnew
  · obtain ⟨rfl, -⟩ := Phase.inFlight.inj hphase
    exact hnew

theorem Separate.register (h : Separate s) {status : UnitStatus}
    (hphase : s.phase request = .inFlight unit vm) (hname : status.name = unit) :
    Separate { s.goto request (.registered unit) with
      registry := (s.registry.register (appEntry status vm)).1 } := by
  have hunit : (s.phase request).unit = some unit := by rw [hphase]; rfl
  have hcontains : ∀ name, (s.registry.register (appEntry status vm)).1.contains name =
      (name = unit || s.registry.contains name) := by
    intro name
    rw [Registry.register_fst, Registry.contains_insert, ← hname]
    rfl
  refine h.goto (fun other unit' hne hother hsame => ?_) (fun other unit' vm' hne hother => ?_)
    (fun other unit' _ hother => ?_) (fun _ _ hself => by cases hself) (fun unit' hself => ?_)
  · obtain rfl : unit = unit' := Option.some.inj hsame
    exact hne (h.distinct other request unit hother hunit)
  · have hne' : unit' ≠ unit := by
      rintro rfl
      exact hne (h.distinct other request unit' (by rw [hother]; rfl) hunit)
    simp [hcontains, hne', h.free other unit' vm' hother]
  · simp [hcontains, h.present other unit' hother]
  · obtain rfl := Phase.registered.inj hself
    simp [hcontains]

theorem Separate.ended (h : Separate s) : Separate (s.goto request .ended) :=
  h.goto (fun _ _ _ _ hunit => by cases hunit) (fun other unit vm _ => h.free other unit vm)
    (fun other unit _ => h.present other unit) (fun _ _ hself => by cases hself)
    (fun _ hself => by cases hself)

theorem after_eq_inFlight :
    phase.after registry = .inFlight unit vm ↔ phase = .inFlight unit vm := by
  cases phase with
  | registered other => by_cases h : registry.contains other <;> simp [Phase.after, h]
  | idle => simp [Phase.after]
  | inFlight other otherVm => simp [Phase.after]
  | ended => simp [Phase.after]

theorem after_eq_registered :
    phase.after registry = .registered unit ↔
      phase = .registered unit ∧ registry.contains unit = true := by
  cases phase with
  | registered other =>
      by_cases h : registry.contains other
      · simp only [Phase.after, h, if_true, Phase.registered.injEq]
        exact ⟨fun heq => ⟨heq, heq ▸ h⟩, And.left⟩
      · simp only [Phase.after, h, Phase.registered.injEq]
        constructor
        · intro heq
          cases heq
        · rintro ⟨rfl, hin⟩
          exact absurd hin h
  | idle => simp [Phase.after]
  | inFlight other otherVm => simp [Phase.after]
  | ended => simp [Phase.after]

theorem unit_of_after (h : (phase.after registry).unit = some unit) : phase.unit = some unit := by
  cases hafter : phase.after registry with
  | inFlight other otherVm =>
      rw [hafter] at h
      rw [after_eq_inFlight.mp hafter]
      exact h
  | registered other =>
      rw [hafter] at h
      rw [(after_eq_registered.mp hafter).1]
      exact h
  | idle => simp [hafter, Phase.unit] at h
  | ended => simp [hafter, Phase.unit] at h

omit [DecidableEq Req] in
theorem Separate.deregister (h : Separate s) {name : String} {order : List RegistryEntry}
    {events : List Event} (horder : order.Perm (s.registry.cascade name))
    (hop : s.registry.deregister name order = .ok (registry, events)) :
    Separate ⟨registry, fun request => (s.phase request).after registry⟩ := by
  refine ⟨fun p q unit hp hq => h.distinct p q unit (unit_of_after hp) (unit_of_after hq),
    fun request unit vm hafter => ?_, fun request unit hafter => (after_eq_registered.mp hafter).2⟩
  have hfree := h.free request unit vm (after_eq_inFlight.mp hafter)
  rw [Registry.contains, Registry.get_deregister hop horder]
  split
  · rfl
  · exact hfree

theorem Separate.step (h : Separate s) (hok : ChoosesFresh s l) (hstep : step s l = some t) :
    Separate t := by
  cases l with
  | choose request appName vmName =>
      simp only [StartApp.step, Option.ite_none_right_eq_some, Option.some.injEq] at hstep
      obtain ⟨-, rfl⟩ := hstep
      exact h.choose hok _
  | finish request status =>
      simp only [StartApp.step] at hstep
      split at hstep
      · rename_i unit vm hphase
        obtain ⟨hname, hstep⟩ := Option.ite_none_left_eq_some.mp hstep
        split at hstep
        · obtain rfl := Option.some.inj hstep
          exact h.register hphase (not_not.mp hname)
        · obtain rfl := Option.some.inj hstep
          exact h.ended
      · cases hstep
  | fail request =>
      simp only [StartApp.step] at hstep
      split at hstep
      · obtain rfl := Option.some.inj hstep
        exact h.ended
      · cases hstep
  | deregister name order =>
      simp only [StartApp.step, Option.ite_none_right_eq_some] at hstep
      obtain ⟨horder, hstep⟩ := hstep
      cases hop : s.registry.deregister name order with
      | error message =>
          simp only [hop, Option.some.injEq] at hstep
          exact hstep ▸ h
      | ok result =>
          simp only [hop, Option.some.injEq] at hstep
          subst hstep
          exact h.deregister horder hop

end Step

/-! ## Every interleaving -/

theorem separate_of_reach {s : State Req} (h : Reach step ChoosesFresh Initial s) : Separate s := by
  refine Reach.invariant (P := Separate) (fun s hs => ?_) (fun s l t hs hok => hs.step hok) h
  refine ⟨fun p q unit hp => ?_, fun request unit vm hphase => ?_, fun request unit hphase => ?_⟩
  · simp [hs p, Phase.unit] at hp
  · exact absurd ((hs request).symm.trans hphase) (by simp)
  · exact absurd ((hs request).symm.trans hphase) (by simp)

/-- While no request chooses a name that is in flight, requests have distinct units and
replace no entry. A request that does choose one shares its unit. -/
theorem distinct_of_choosesFresh {s : State Req} (h : Reach step ChoosesFresh Initial s) :
    Distinct s ∧ NoReplacement s ∧
      ∀ request appName vmName t, step s (.choose request appName vmName) = some t →
        ¬ ChoosesFresh s (.choose request appName vmName) → ¬ Distinct t := by
  have hsep := separate_of_reach h
  refine ⟨hsep.distinct, hsep.noReplacement, fun request appName vmName t hstep htaken => ?_⟩
  simp only [step, Option.ite_none_right_eq_some, Option.some.injEq] at hstep
  obtain ⟨⟨hidle, -⟩, rfl⟩ := hstep
  simp only [ChoosesFresh, not_forall, not_not] at htaken
  obtain ⟨other, hother⟩ := htaken
  have hne : other ≠ request := by
    rintro rfl
    simp [hidle, Phase.flying] at hother
  intro hdistinct
  refine hne (hdistinct other request (s.registry.createUniqueEntryName appName) ?_ ?_)
  · rw [phase_goto, if_neg hne]
    exact unit_of_flying hother
  · rw [phase_goto, if_pos rfl]
    rfl

instance (s : State Bool) : (l : Label Bool) → Decidable (ChoosesFresh s l)
  | .choose _ _ _ => decidable_of_iff' _ Bool.forall_bool
  | .finish _ _ => isTrue trivial
  | .fail _ => isTrue trivial
  | .deregister _ _ => isTrue trivial

def agentRegistered : State Bool :=
  ⟨Registry.empty.insert (agentEntry "chrome-vm" "active"), fun _ => .idle⟩

theorem initial_agentRegistered : Initial agentRegistered := fun _ => rfl

def firstStarted : UnitStatus :=
  ⟨"chrome@0.service", "chrome", "loaded", "active", "running", "", "running"⟩

/-- The second request comes when the first is registered. -/
def orderlyStarts : List (Label Bool) :=
  [.choose false "chrome" none, .finish false firstStarted, .choose true "chrome" none]

theorem distinct_of_choosesFresh_orderlyStarts :
    ∃ s : State Bool, Reach step ChoosesFresh Initial s ∧
      s.phase false = .registered "chrome@0.service" ∧
      s.phase true = .inFlight "chrome@1.service" (.app "chrome") ∧ Distinct s ∧
      NoReplacement s := by
  have hrun : (run (fun s l => if ChoosesFresh s l then step s l else none) agentRegistered
      orderlyStarts).map (fun s => (s.phase false, s.phase true)) =
      some (.registered "chrome@0.service", .inFlight "chrome@1.service" (.app "chrome")) := by
    decide +kernel
  obtain ⟨s, hs, hout⟩ := Option.map_eq_some_iff.mp hrun
  obtain ⟨hfirst, hsecond⟩ := Prod.mk.inj hout
  have hreach := Reach.of_run (Reach.init initial_agentRegistered) hs
  obtain ⟨hdistinct, hnone, -⟩ := distinct_of_choosesFresh hreach
  exact ⟨s, hreach, hfirst, hsecond, hdistinct, hnone⟩

/-- The second request comes while the first waits for the agent. -/
def overlappingStarts : List (Label Bool) :=
  [.choose false "chrome" none, .choose true "chrome" none, .finish false firstStarted]

theorem overlappingStarts_share_unit :
    ∃ s : State Bool, Reach step (fun _ _ => True) Initial s ∧
      s.phase false = .registered "chrome@0.service" ∧
      s.phase true = .inFlight "chrome@0.service" (.app "chrome") ∧ ¬ Distinct s ∧
      (s.registry.register (appEntry firstStarted (.app "chrome"))).2 =
        [.unitShutdown (appEntry firstStarted (.app "chrome")).toQueryResult,
          .unitRegistered (appEntry firstStarted (.app "chrome")).toQueryResult] := by
  have hrun : (run (fun s l => if True then step s l else none) agentRegistered
      overlappingStarts).map (fun s => (s.phase false, s.phase true,
        (s.registry.register (appEntry firstStarted (.app "chrome"))).2)) =
      some (.registered "chrome@0.service", .inFlight "chrome@0.service" (.app "chrome"),
        [.unitShutdown (appEntry firstStarted (.app "chrome")).toQueryResult,
          .unitRegistered (appEntry firstStarted (.app "chrome")).toQueryResult]) := by
    decide +kernel
  obtain ⟨s, hs, hout⟩ := Option.map_eq_some_iff.mp hrun
  obtain ⟨hfirst, hrest⟩ := Prod.mk.inj hout
  obtain ⟨hsecond, hevents⟩ := Prod.mk.inj hrest
  refine ⟨s, Reach.of_run (Reach.init initial_agentRegistered) hs, hfirst, hsecond,
    fun hdistinct => ?_, hevents⟩
  have hsame := hdistinct false true "chrome@0.service" (by rw [hfirst]; rfl) (by rw [hsecond]; rfl)
  exact absurd hsame (by decide)

end StartApp

end GhafGivc.Admin
