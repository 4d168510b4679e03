import GhafGivc.Core.FirstMatch
import GhafGivc.Core.PartialKeys
import GhafGivc.Image.Uki

/-! # Kernel parameters and slot groups

A group joins the root volume, the verity volume and the UKI of one logical
update slot. Grouping is re-derived from names on every start: slots join the
first group with their status, then UKIs join the first group with their version.
-/

namespace GhafGivc.Image

open Core Delimited

def ValidHash (hash : String) : Prop :=
  hash.toList.all Char.isHexDigit = true ∧ Text.byteLen hash.toList = 64

instance (hash : String) : Decidable (ValidHash hash) :=
  inferInstanceAs (Decidable (_ ∧ _))

structure KernelParams where
  storeHash : Option String
  revision : Option String
  storeHash_valid : ∀ h ∈ storeHash, ValidHash h
deriving DecidableEq

namespace KernelParams

def findArg (cmdline key : String) : Option String :=
  ((Text.splitWhitespace cmdline.toList).filterMap (splitOnce '=')).findSome? fun p =>
    if p.1 = key.toList then some (String.ofList p.2) else none

def fromCmdline (cmdline : String) : Outcome String KernelParams :=
  let storeHash := findArg cmdline "ghaf.storehash"
  if valid : ∀ h ∈ storeHash, ValidHash h then
    .ok ⟨storeHash, findArg cmdline "ghaf.revision", valid⟩
  else .err "Invalid verity hash"

/-- The first 16 characters: the constructor guarantees 64 of them. -/
def verityHashFragment (kernel : KernelParams) : Option String :=
  kernel.storeHash.map fun h => String.ofList (h.toList.take 16)

def toVersion (kernel : KernelParams) : Option Version :=
  kernel.revision.map fun r => ⟨r, kernel.verityHashFragment⟩

end KernelParams

structure SlotGroup where
  root : Option Slot
  verity : Option Slot
  boot : Option BootEntry
deriving DecidableEq

namespace SlotGroup

def matchesSlot (g : SlotGroup) (slot : Slot) : Bool :=
  g.root.any (·.matchesSlot slot) || g.verity.any (·.matchesSlot slot)

/-- Only a group with a root volume can take a UKI. -/
def matchesBoot (g : SlotGroup) (boot : BootEntry) : Bool :=
  g.root.any fun r =>
    r.version = boot.version || g.verity.any fun v => v.version = boot.version

def attachSlot (g : SlotGroup) (slot : Slot) : Outcome String SlotGroup :=
  match slot.kind with
  | .root => do
      Outcome.ensure g.root.isNone "Duplicate root slot in group"
      pure { g with root := some slot }
  | .verity => do
      Outcome.ensure g.verity.isNone "Duplicate verity slot in group"
      pure { g with verity := some slot }

def attachBoot (g : SlotGroup) (boot : BootEntry) : Outcome String SlotGroup :=
  if g.boot.isSome then
    match boot.version with
    | some v => .err ("invalid state: multiple UKIs for version=" ++ v.display)
    | none => .panicked
  else .ok { g with boot := some boot }

def placeSlot (groups : List SlotGroup) (slot : Slot) : Outcome String (List SlotGroup) :=
  upsert (·.matchesSlot slot) (·.attachSlot slot) (attachSlot ⟨none, none, none⟩ slot) groups

/-- A UKI without volumes is still a group. -/
def placeBoot (groups : List SlotGroup) (boot : BootEntry) : Outcome String (List SlotGroup) :=
  upsert (·.matchesBoot boot) (·.attachBoot boot) (.ok ⟨none, none, some boot⟩) groups

def groupVolumes (slots : List Slot) (boots : List BootEntry) :
    Outcome String (List SlotGroup) := do
  let groups ← slots.foldlM placeSlot []
  boots.foldlM placeBoot groups

/-- Root first, then verity, then the UKI of an orphan group. -/
def version (g : SlotGroup) : Option Version :=
  match g.root, g.verity, g.boot with
  | some root, _, _ => root.version
  | none, some verity, _ => verity.version
  | none, none, some boot => boot.version
  | none, none, none => none

def emptyId (g : SlotGroup) : Option String :=
  match g.root, g.verity with
  | some root, _ => root.emptyId
  | none, some verity => verity.emptyId
  | none, none => none

def isEmpty (g : SlotGroup) : Bool :=
  match g.root, g.verity with
  | some root, some verity => root.isEmpty && verity.isEmpty
  | some root, none => root.isEmpty
  | none, some verity => verity.isEmpty
  | none, none => false

def isUsed (g : SlotGroup) : Bool :=
  g.root.any (!·.isEmpty) || g.verity.any (!·.isEmpty) || g.boot.isSome

def isComplete (g : SlotGroup) : Bool := g.root.isSome && g.verity.isSome

def isLegacy (g : SlotGroup) : Bool := g.root.any Slot.isLegacy || g.verity.any Slot.isLegacy

def isActive (g : SlotGroup) (kernel : KernelParams) : Bool :=
  match g.version, kernel.toVersion with
  | some slotV, some kernelV => slotV = kernelV
  -- kernel has no version info, only a used legacy slot is active
  | some _, none => g.isLegacy
  | none, _ => false

/-- The last check asks for an empty group with a UKI. -/
def validate (g : SlotGroup) : Outcome String Unit := do
  g.root.forM fun root => g.verity.forM fun verity =>
    Outcome.ensure (root.matchesSlot verity)
      ("root and verity slots do not match: " ++ root.display ++ " vs " ++ verity.display)
  g.boot.forM fun boot => do
    g.root.forM fun root =>
      Outcome.ensure (boot.matchesSlot root)
        ("UKI does not match root slot: " ++ boot.display ++ " vs " ++ root.display)
    g.verity.forM fun verity =>
      Outcome.ensure (boot.matchesSlot verity)
        ("UKI does not match verity slot: " ++ boot.display ++ " vs " ++ verity.display)
  Outcome.ensure (g.isEmpty && g.boot.isSome) "empty slot group contains UKI"

def classify (g : SlotGroup) (kernel : KernelParams) : SlotClass :=
  match g.validate with
  | .ok _ =>
      if g.isActive kernel then .active
      else if g.isEmpty then .empty
      else .inactive
  | _ => .broken

def attachUki (g : SlotGroup) (uki : UkiEntry) : Outcome String SlotGroup := do
  Outcome.ensure g.boot.isNone "Already have UKI (state error)"
  pure { g with boot := some (BootEntry.ofUki uki) }

end SlotGroup

end GhafGivc.Image
