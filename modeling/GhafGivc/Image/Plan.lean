import GhafGivc.Image.Runtime

/-! # Install and remove plans -/

namespace GhafGivc.Image

open Core

structure Plan where
  steps : List Step
deriving DecidableEq

namespace Plan

def installUki (slot : SlotGroup) (file : File) (boot source : String) : Outcome String Step := do
  let name ← Outcome.context ((slot.boot.bind BootEntry.uki).map UkiEntry.display)
    "cannot determine UKI name for slot"
  pure (.installUki file boot source name)

def legacyBootloaderMigration (rt : Runtime) : List Step :=
  [.loaderDefault rt.boot, .removeSelection rt.boot, .setDefault]

def installIntoSlot (rt : Runtime) (m : Manifest) (slot : SlotGroup) (source : String) :
    Outcome String Plan := do
  let root ← Outcome.context slot.root "slot has no root volume"
  let verity ← Outcome.context slot.verity "slot has no verity volume"
  let version ← m.toVersion
  let usedRoot ← root.intoVersion version
  let usedVerity ← verity.intoVersion version
  let uki ← installUki slot m.kernel rt.boot source
  let active ← rt.activeSlot
  let migration := if active.isLegacy then legacyBootloaderMigration rt else []
  pure ⟨[.installVolume root.volume m.store source, .installVolume verity.volume m.verity source,
    .finalizeFlush root.volume, .finalizeFlush verity.volume,
    usedRoot.rename, usedVerity.rename, uki] ++ migration⟩

def install (rt : Runtime) (m : Manifest) (source : String) : Outcome String Plan := do
  let selection ← rt.selectUpdateSlot m
  match selection with
  | .alreadyInstalled => pure ⟨[]⟩
  | .selected slot preSteps =>
      let plan ← installIntoSlot rt m slot source
      -- lvcreate and lvresize steps come before the dd and rename steps
      pure ⟨preSteps ++ plan.steps⟩

def renameToEmpty (role emptyId : String) : Option Slot → List Step
  | some slot =>
      [.lvrename slot.volume.vgName slot.volume.lvName (role ++ "_empty_" ++ emptyId)]
  | none => []

def renameSlotToEmpty (slot : SlotGroup) (emptyId : String) : List Step :=
  renameToEmpty "root" emptyId slot.root ++ renameToEmpty "verity" emptyId slot.verity

/-- The UKI of the slot and, for a legacy slot, every legacy boot entry. -/
def unlinkSteps (rt : Runtime) (slot : SlotGroup) : List Step :=
  (slot.boot.toList.map BootEntry.toRemove) ++
    (if slot.isLegacy then (rt.bootEntries.filter BootEntry.isLegacy).map BootEntry.toRemove
      else [])

def removalId (rt : Runtime) (slot : SlotGroup) : Outcome String String :=
  match slot.emptyId with
  | some h => if rt.hasEmptyWithHash h then rt.allocateEmptyIdentifier else .ok h
  | none => rt.allocateEmptyIdentifier

def remove (rt : Runtime) (version : Version) : Outcome String Plan := do
  let slot ← rt.findSlotGroup version
  Outcome.ensure (!slot.isActive rt.kernel) "cannot remove active slot"
  let emptyId ← removalId rt slot
  pure ⟨unlinkSteps rt slot ++ renameSlotToEmpty slot emptyId⟩

end Plan

/-! ## Planning returns

Cutting the hash fragment is the only panic on the way to a plan.
-/

theorem Runtime.findExactOneGroup_returns (rt : Runtime) (p : SlotGroup → Bool)
    (reason : String) : (rt.findExactOneGroup p reason).Returns := by
  unfold findExactOneGroup
  split
  · exact Outcome.returns_ok _
  · exact Outcome.returns_ok _
  · exact Outcome.returns_err _

theorem Runtime.activeSlot_returns (rt : Runtime) : rt.activeSlot.Returns :=
  (rt.findExactOneGroup_returns _ _).bind fun _ _ => Outcome.returns_context _ _

theorem Runtime.allocateEmptyIdentifier_returns (rt : Runtime) :
    rt.allocateEmptyIdentifier.Returns :=
  Outcome.returns_context _ _

theorem Runtime.createVolume_returns (vg emptyId role : String)
    (manifestSize activeSize : Option Nat) :
    (createVolume vg emptyId role manifestSize activeSize).Returns :=
  (Outcome.returns_context _ _).bind fun _ _ =>
    (Outcome.returns_context _ _).bind fun _ _ => Outcome.returns_ok _

theorem Runtime.createEmptySlot_returns (rt : Runtime) (m : Manifest) :
    (rt.createEmptySlot m).Returns :=
  rt.activeSlot_returns.bind fun _ _ => (Outcome.returns_context _ _).bind fun _ _ =>
    (Outcome.returns_context _ _).bind fun _ _ => rt.allocateEmptyIdentifier_returns.bind fun _ _ =>
    (createVolume_returns _ _ _ _ _).bind fun _ _ =>
    (createVolume_returns _ _ _ _ _).bind fun _ _ => Outcome.returns_ok _

theorem SlotGroup.attachUki_returns (g : SlotGroup) (uki : UkiEntry) :
    (g.attachUki uki).Returns :=
  (Outcome.returns_ensure _ _).bind fun _ _ => Outcome.returns_ok _

theorem Runtime.selectUpdateSlot_returns {rt : Runtime} {m : Manifest}
    (hm : m.toVersion.Returns) : (rt.selectUpdateSlot m).Returns := by
  refine hm.bind fun target _ => ?_
  split
  · exact Outcome.returns_ok _
  · split
    · exact (SlotGroup.attachUki_returns _ _).bind fun _ _ => Outcome.returns_ok _
    · exact (rt.createEmptySlot_returns m).bind fun _ _ =>
        (SlotGroup.attachUki_returns _ _).bind fun _ _ => Outcome.returns_ok _

theorem Slot.intoVersion_returns (s : Slot) (v : Version) : (s.intoVersion v).Returns :=
  (Outcome.returns_ensure _ _).bind fun _ _ => Outcome.returns_ok _

namespace Plan

theorem installIntoSlot_returns {rt : Runtime} {m : Manifest} {slot : SlotGroup} {source : String}
    (hm : m.toVersion.Returns) : (installIntoSlot rt m slot source).Returns :=
  (Outcome.returns_context _ _).bind fun _ _ => (Outcome.returns_context _ _).bind fun _ _ =>
    hm.bind fun _ _ => (Slot.intoVersion_returns _ _).bind fun _ _ =>
    (Slot.intoVersion_returns _ _).bind fun _ _ =>
    ((Outcome.returns_context _ _).bind fun _ _ => Outcome.returns_ok _).bind fun _ _ =>
    rt.activeSlot_returns.bind fun _ _ => Outcome.returns_ok _

theorem install_returns {rt : Runtime} {m : Manifest} {source : String}
    (hm : m.toVersion.Returns) : (install rt m source).Returns := by
  refine (Runtime.selectUpdateSlot_returns hm).bind fun selection _ => ?_
  cases selection with
  | alreadyInstalled => exact Outcome.returns_ok _
  | selected slot pre =>
      exact (installIntoSlot_returns hm).bind fun _ _ => Outcome.returns_ok _

theorem removalId_returns (rt : Runtime) (slot : SlotGroup) : (removalId rt slot).Returns := by
  unfold removalId
  split
  · split
    · exact rt.allocateEmptyIdentifier_returns
    · exact Outcome.returns_ok _
  · exact rt.allocateEmptyIdentifier_returns

theorem remove_returns (rt : Runtime) (version : Version) : (remove rt version).Returns := by
  have hfind : (rt.findSlotGroup version).Returns := by
    refine (rt.findExactOneGroup_returns _ _).bind fun exact _ => ?_
    split
    · exact Outcome.returns_ok _
    · split
      · exact (Outcome.returns_ok none).bind fun _ _ => Outcome.returns_context _ _
      · exact (rt.findExactOneGroup_returns _ _).bind fun _ _ => Outcome.returns_context _ _
  exact hfind.bind fun slot _ => (Outcome.returns_ensure _ _).bind fun _ _ =>
    (removalId_returns rt slot).bind fun _ _ => Outcome.returns_ok _

end Plan

end GhafGivc.Image
