import GhafGivc.Image.Grouping

/-! # The runtime view and the choice of an update slot

`Runtime.new` re-derives the slot groups from the listings of `lvs` and `bootctl`
and from the kernel command line; every decision of the planner is taken on it.
-/

namespace GhafGivc.Image

open Core

structure Runtime where
  slotgroups : List SlotGroup
  volumes : List Volume
  kernel : KernelParams
  bootEntries : List BootEntry
  boot : String
deriving DecidableEq

inductive SlotSelection where
  | alreadyInstalled
  | selected (slot : SlotGroup) (preSteps : List Step)
deriving DecidableEq

namespace Runtime

def new (volumes : List Volume) (cmdline : String) (bootctl : List BootctlItem) :
    Outcome String Runtime := do
  let (slots, volumes) := Slot.fromVolumes volumes
  let (managed, unmanaged) := (BootEntry.fromBootctl bootctl).partition BootEntry.isManaged
  let slotgroups ← SlotGroup.groupVolumes slots managed
  let kernel ← KernelParams.fromCmdline cmdline
  pure ⟨slotgroups, volumes, kernel, unmanaged, "/boot"⟩

def slotsByClass (rt : Runtime) (groups : List SlotGroup) (c : SlotClass) : List SlotGroup :=
  groups.filter fun g => g.classify rt.kernel = c

def findExactOneGroup (rt : Runtime) (predicate : SlotGroup → Bool) (reason : String) :
    Outcome String (Option SlotGroup) :=
  match rt.slotgroups.filter predicate with
  | [] => .ok none
  | [slot] => .ok (some slot)
  | _ :: _ :: _ => .err ("ambiguous slot selection for " ++ reason)

def hasHashedRevision (revision : String) (g : SlotGroup) : Bool :=
  g.version.any fun v => v.revision = revision && v.hasHash

def findSlotGroup (rt : Runtime) (version : Version) : Outcome String SlotGroup := do
  let exact ← rt.findExactOneGroup (·.version = some version) ("version=" ++ version.display)
  match exact with
  | some slot => pure slot
  | none =>
      let fallback ← if version.hasHash then pure none else
        rt.findExactOneGroup (hasHashedRevision version.revision)
          ("version=" ++ version.display ++ " (fallback by revision)")
      Outcome.context fallback ("slot not found: version=" ++ version.display)

def activeSlot (rt : Runtime) : Outcome String SlotGroup := do
  let active ← rt.findExactOneGroup (·.isActive rt.kernel) "active slot"
  Outcome.context active "no active slot detected"

def hasEmptyWithHash (rt : Runtime) (hash : String) : Bool :=
  rt.slotgroups.any fun g => g.emptyId = some hash

def allocateEmptyIdentifier (rt : Runtime) : Outcome String String :=
  let used := rt.slotgroups.filterMap SlotGroup.emptyId
  Outcome.context (((List.range 100).map fun i => toString i).find? fun c => !used.contains c)
    "empty identifier space exhausted"

/-- One `lvresize` when the slot is known to be smaller than its image. -/
def resizeStep (slot : Option Slot) (needed : Option Nat) : List Step :=
  match slot, needed with
  | some slot, some needed =>
      if slot.volume.lvSizeBytes.any (· < needed) then [.lvresize slot.volume needed] else []
  | _, _ => []

def resizeStepsForSlot (slot : SlotGroup) (manifest : Manifest) : List Step :=
  resizeStep slot.root manifest.store.unpackedSize ++
    resizeStep slot.verity manifest.verity.unpackedSize

/-- One new volume of an empty slot, with the step that creates it. -/
def createVolume (vg emptyId role : String) (manifestSize activeSize : Option Nat) :
    Outcome String (Slot × Step) := do
  let size ← Outcome.context (manifestSize.or activeSize)
    ("cannot determine " ++ role ++ " LV size: no unpacked_size in manifest and no active " ++
      role ++ " size")
  let lvName := role ++ "_empty_" ++ emptyId
  let slot ← Outcome.context (Slot.fromVolumes [⟨lvName, vg, some size⟩]).1.head?
    ("failed to parse created " ++ role ++ " slot")
  pure (slot, .lvcreate vg lvName size)

/-- Empty volumes sized for the manifest images, or like those of the active slot. -/
def createEmptySlot (rt : Runtime) (manifest : Manifest) :
    Outcome String (SlotGroup × List Step) := do
  let active ← rt.activeSlot
  let activeRoot ← Outcome.context active.root "active slot has no root"
  let activeVerity ← Outcome.context active.verity "active slot has no verity"
  let vg := activeRoot.volume.vgName
  let emptyId ← rt.allocateEmptyIdentifier
  let (root, rootStep) ← createVolume vg emptyId "root" manifest.store.unpackedSize
    activeRoot.volume.lvSizeBytes
  let (verity, verityStep) ← createVolume vg emptyId "verity" manifest.verity.unpackedSize
    activeVerity.volume.lvSizeBytes
  pure (⟨some root, some verity, none⟩, [rootStep, verityStep])

def spareSlot (rt : Runtime) : Option SlotGroup :=
  rt.slotgroups.find? fun g => g.isEmpty && !g.isActive rt.kernel && g.isComplete

def selectUpdateSlot (rt : Runtime) (manifest : Manifest) : Outcome String SlotSelection := do
  let target ← manifest.toVersion
  -- 1. Target already installed (complete used slot)
  if rt.slotgroups.any fun g => g.isUsed && g.isComplete && g.version = some target then
    pure .alreadyInstalled
  else
    match rt.spareSlot with
    | some slot =>
        -- 2. First suitable empty slot, resized when it is too small
        let preSteps := resizeStepsForSlot slot manifest
        let slot ← slot.attachUki ⟨target, none⟩
        pure (.selected slot preSteps)
    | none =>
        -- 3. No empty slot: create one sized for the manifest
        let (slot, preSteps) ← rt.createEmptySlot manifest
        let slot ← slot.attachUki ⟨target, none⟩
        pure (.selected slot preSteps)

end Runtime

end GhafGivc.Image
