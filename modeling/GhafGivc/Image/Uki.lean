import GhafGivc.Image.Slot

/-! # Boot entries and UKI file names

A managed boot entry is a unified kernel image whose file name carries the
version it boots and, optionally, the boot counters of the loader.
-/

namespace GhafGivc.Image

open Core Delimited

structure BootctlItem where
  itemType : String
  id : String
deriving DecidableEq

structure BootCounter where
  remaining : UInt32
  used : Option UInt32
deriving DecidableEq

structure UkiEntry where
  version : Version
  bootCounter : Option BootCounter
deriving DecidableEq

inductive BootEntryKind where
  | managed (uki : UkiEntry)
  | unmanaged
  | legacy
deriving DecidableEq

structure BootEntry where
  id : String
  kind : BootEntryKind
deriving DecidableEq

namespace UkiEntry

def displayCounter : Option BootCounter → String
  | none => ""
  | some ⟨remaining, none⟩ => "+" ++ toString remaining.toNat
  | some ⟨remaining, some used⟩ =>
      "+" ++ toString remaining.toNat ++ "-" ++ toString used.toNat

def display (u : UkiEntry) : String :=
  "ghaf-" ++ u.version.displayAlternate ++ displayCounter u.bootCounter ++ ".efi"

def parseU32 (cs : List Char) (error : String) : Outcome String UInt32 := do
  let value ← Outcome.context (Text.parseUnsigned 32 cs) error
  pure (UInt32.ofNat value)

/-- The text after the last plus sign: `N` or `N-M`. -/
def parseCounter (right : List Char) : Outcome String BootCounter :=
  match splitOnce '-' right with
  | some (r, u) => do
      let remaining ← parseU32 r "invalid remaining counter"
      let used ← parseU32 u "invalid used counter"
      pure ⟨remaining, some used⟩
  | none => do
      let remaining ← parseU32 right "invalid remaining counter"
      pure ⟨remaining, none⟩

/-- Name without the `.efi` extension, which is compared without case. -/
def efiStem (name : List Char) : Option (List Char) :=
  match Text.splitAtBytes (Text.byteLen name - 4) name with
  | some (stem, ext) =>
      if Text.eqIgnoreAsciiCase ext ".efi".toList then some stem else none
  | none => none

/-- Optional boot counters at the end of the stem. -/
def splitCounter (stem : List Char) : Outcome String (List Char × Option BootCounter) :=
  match rsplitOnce '+' stem with
  | some (left, right) => do
      let counter ← parseCounter right
      pure (left, some counter)
  | none => pure (stem, none)

def fromStr (name : String) : Outcome String UkiEntry := do
  let stem ← Outcome.context (efiStem name.toList) "Not an EFI"
  let stem ← Outcome.context (Text.stripLead "ghaf-".toList stem) "invalid UKI prefix"
  let (core, bootCounter) ← splitCounter stem
  let (version, hash) ← Outcome.context (splitOnce '-' core) "missing version/hash"
  Outcome.ensure (version ≠ "empty".toList) "UKI version must not be 'empty'"
  pure ⟨⟨String.ofList version, some (String.ofList hash)⟩, bootCounter⟩

def matchesSlot (u : UkiEntry) (slot : Slot) : Bool := slot.version = some u.version

end UkiEntry

namespace BootEntry

def display (b : BootEntry) : String :=
  match b.kind with
  | .managed uki => "managed: " ++ uki.display ++ " [id=" ++ b.id ++ "]"
  | .unmanaged => "unmanaged: id=" ++ b.id
  | .legacy => "legacy: id=" ++ b.id

def ofItem (item : BootctlItem) : Option BootEntry :=
  if item.itemType = "type2" then
    match UkiEntry.fromStr item.id with
    | .ok uki => some ⟨item.id, .managed uki⟩
    | _ => some ⟨item.id, .unmanaged⟩
  else if item.itemType = "type1" then some ⟨item.id, .legacy⟩
  else none

def fromBootctl (items : List BootctlItem) : List BootEntry := items.filterMap ofItem

def isManaged (b : BootEntry) : Bool :=
  match b.kind with
  | .managed _ => true
  | _ => false

def isLegacy (b : BootEntry) : Bool :=
  match b.kind with
  | .legacy => true
  | _ => false

def uki (b : BootEntry) : Option UkiEntry :=
  match b.kind with
  | .managed uki => some uki
  | _ => none

def version (b : BootEntry) : Option Version := b.uki.map UkiEntry.version

def matchesSlot (b : BootEntry) (slot : Slot) : Bool :=
  match b.kind with
  | .managed uki => uki.matchesSlot slot
  | _ => false

def toRemove (b : BootEntry) : Step := .unlink b.id

def ofUki (uki : UkiEntry) : BootEntry := ⟨uki.display, .managed uki⟩

end BootEntry

/-! ## Versions that survive their UKI file name -/

/-- The versions that a counter-free UKI file name carries. -/
def Version.UkiPlain (v : Version) : Prop :=
  '-' ∉ v.revision.toList ∧ '+' ∉ v.revision.toList ∧ v.revision ≠ "empty" ∧
    ∃ h ∈ v.hash, '+' ∉ h.toList

instance (v : Version) : Decidable v.UkiPlain :=
  match hv : v.hash with
  | none => isFalse fun h => by
      obtain ⟨_, _, _, x, hx, _⟩ := h
      simp [hv] at hx
  | some x =>
      decidable_of_iff ('-' ∉ v.revision.toList ∧ '+' ∉ v.revision.toList ∧
        v.revision ≠ "empty" ∧ '+' ∉ x.toList) (by simp [Version.UkiPlain, hv])

namespace UkiEntry

theorem efiStem_append_efi (stem : List Char) : efiStem (stem ++ ".efi".toList) = some stem := by
  have hlen : Text.byteLen (stem ++ ".efi".toList) - 4 = Text.byteLen stem := by
    have : Text.byteLen ".efi".toList = 4 := by decide
    rw [Text.byteLen_append, this, Nat.add_sub_cancel]
  have hext : Text.eqIgnoreAsciiCase ".efi".toList ".efi".toList = true := by decide
  simp only [efiStem, hlen, Text.splitAtBytes_append, hext, if_true]

variable {u : UkiEntry}

variable {name : String}

theorem fromStr_eq_ok :
    fromStr name = .ok u ↔
      ∃ stem core version hash, efiStem name.toList = some ("ghaf-".toList ++ stem) ∧
        splitCounter stem = .ok (core, u.bootCounter) ∧
        splitOnce '-' core = some (version, hash) ∧ version ≠ "empty".toList ∧
        u.version = ⟨String.ofList version, some (String.ofList hash)⟩ := by
  obtain ⟨uv, uc⟩ := u
  constructor
  · intro h
    obtain ⟨stem₀, h₀, h⟩ := Outcome.bind_eq_ok.mp h
    obtain ⟨stem, h₁, h⟩ := Outcome.bind_eq_ok.mp h
    obtain ⟨⟨core, counter⟩, h₂, h⟩ := Outcome.bind_eq_ok.mp h
    obtain ⟨⟨version, hash⟩, h₃, h⟩ := Outcome.bind_eq_ok.mp h
    obtain ⟨_, h₄, h⟩ := Outcome.bind_eq_ok.mp h
    obtain ⟨rfl, rfl⟩ := UkiEntry.mk.inj (Outcome.ok.inj h)
    have hstem := Text.stripLead_eq_some.mp (Outcome.context_eq_ok.mp h₁)
    refine ⟨stem, core, version, hash, ?_, h₂, Outcome.context_eq_ok.mp h₃, ?_, rfl⟩
    · rw [← hstem]
      exact Outcome.context_eq_ok.mp h₀
    · exact of_decide_eq_true (Outcome.ensure_eq_ok.mp h₄)
  · rintro ⟨stem, core, version, hash, h₀, h₂, h₃, h₄, rfl⟩
    have h₁ : Text.stripLead "ghaf-".toList ("ghaf-".toList ++ stem) = some stem :=
      Text.stripLead_eq_some.mpr rfl
    refine Outcome.bind_eq_ok.mpr ⟨_, Outcome.context_eq_ok.mpr h₀, ?_⟩
    refine Outcome.bind_eq_ok.mpr ⟨stem, Outcome.context_eq_ok.mpr h₁, ?_⟩
    refine Outcome.bind_eq_ok.mpr ⟨(core, uc), h₂, ?_⟩
    refine Outcome.bind_eq_ok.mpr ⟨(version, hash), Outcome.context_eq_ok.mpr h₃, ?_⟩
    exact Outcome.bind_eq_ok.mpr ⟨⟨⟩, Outcome.ensure_eq_ok.mpr (decide_eq_true h₄), rfl⟩

theorem fromStr_version (h : fromStr name = .ok u) :
    '-' ∉ u.version.revision.toList ∧ u.version.revision ≠ "empty" ∧ u.version.hash.isSome := by
  obtain ⟨stem, core, version, hash, _, _, h₃, h₄, hv⟩ := fromStr_eq_ok.mp h
  have hdash := (splitOnce_eq_some.mp h₃).2
  rw [hv]
  refine ⟨by simpa using hdash, ?_, rfl⟩
  intro he
  apply h₄
  have := congrArg String.toList he
  simpa using this

@[simp] theorem displayCounter_none : displayCounter none = "" := rfl

theorem display_toList (revision hash : String) (counter : Option BootCounter) :
    (display ⟨⟨revision, some hash⟩, counter⟩).toList =
      ("ghaf-".toList ++ (revision.toList ++ '-' :: hash.toList ++
        (displayCounter counter).toList)) ++ ".efi".toList := by
  simp [display, Version.displayAlternate]

theorem parseU32_toString (n : UInt32) (error : String) :
    parseU32 (toString n.toNat).toList error = .ok n := by
  have hread : Text.parseUnsigned 32 (toString n.toNat).toList = some n.toNat :=
    Text.parseUnsigned_toString n.toNat_lt
  rw [parseU32, hread]
  simp [Outcome.context]

theorem displayCounter_some (c : BootCounter) :
    ∃ right, (displayCounter (some c)).toList = '+' :: right ∧ '+' ∉ right ∧
      parseCounter right = .ok c := by
  have hplus : Char.isDigit '+' = false := by decide
  have hdash : Char.isDigit '-' = false := by decide
  rcases c with ⟨remaining, used⟩
  cases used with
  | none =>
      refine ⟨(toString remaining.toNat).toList, ?_, Text.notMem_toString hplus _, ?_⟩
      · simp [displayCounter]
      · rw [parseCounter, splitOnce_eq_none.mpr (Text.notMem_toString hdash _)]
        simp only [parseU32_toString, Outcome.ok_bind, Outcome.pure_eq]
  | some used =>
      refine ⟨(toString remaining.toNat).toList ++ '-' :: (toString used.toNat).toList, ?_, ?_, ?_⟩
      · simp [displayCounter]
      · rw [List.mem_append, List.mem_cons, not_or, not_or]
        exact ⟨Text.notMem_toString hplus _, by decide, Text.notMem_toString hplus _⟩
      · rw [parseCounter, splitOnce_append_cons _ (Text.notMem_toString hdash _)]
        simp only [parseU32_toString, Outcome.ok_bind, Outcome.pure_eq]

theorem splitCounter_displayCounter {core : List Char} {counter : Option BootCounter}
    (h : counter = none → '+' ∉ core) :
    splitCounter (core ++ (displayCounter counter).toList) = .ok (core, counter) := by
  cases counter with
  | none =>
      have hnone := rsplitOnce_eq_none.mpr (h rfl)
      simp [splitCounter, hnone]
  | some c =>
      rcases displayCounter_some c with ⟨right, htext, hplus, hparse⟩
      rw [htext, splitCounter, rsplitOnce_append_cons _ hplus]
      simp only [hparse, Outcome.ok_bind, Outcome.pure_eq]

/-- The entries that a UKI file name carries. -/
def Plain (u : UkiEntry) : Prop :=
  '-' ∉ u.version.revision.toList ∧ u.version.revision ≠ "empty" ∧
    ∃ h, u.version.hash = some h ∧
      (u.bootCounter = none → '+' ∉ u.version.revision.toList ∧ '+' ∉ h.toList)

theorem fromStr_display_of_plain (h : u.Plain) : fromStr u.display = .ok u := by
  rcases u with ⟨⟨revision, hash⟩, counter⟩
  rcases h with ⟨hdash, hne, x, hx, hcounter⟩
  cases hx
  refine fromStr_eq_ok.mpr ⟨_, revision.toList ++ '-' :: x.toList, revision.toList, x.toList, ?_,
    splitCounter_displayCounter ?_, splitOnce_append_cons _ hdash, ?_, by simp⟩
  · rw [display_toList, efiStem_append_efi]
  · intro hnone
    simpa using hcounter hnone
  · intro he
    exact hne (String.toList_inj.mp he)

theorem fromStr_display {v : Version} (h : v.UkiPlain) :
    fromStr (display ⟨v, none⟩) = .ok ⟨v, none⟩ := by
  rcases h with ⟨hdash, hplus, hne, x, hx, hxplus⟩
  exact fromStr_display_of_plain ⟨hdash, hne, x, hx, fun _ => ⟨hplus, hxplus⟩⟩

theorem splitCounter_eq_none {stem core : List Char} (h : splitCounter stem = .ok (core, none)) :
    stem = core ∧ '+' ∉ core := by
  unfold splitCounter at h
  split at h
  · rcases Outcome.bind_eq_ok.mp h with ⟨c, _, hc⟩
    cases hc
  · rename_i hsplit
    cases h
    exact ⟨rfl, rsplitOnce_eq_none.mp hsplit⟩

theorem plain_of_fromStr (h : fromStr name = .ok u) : u.Plain := by
  rcases fromStr_eq_ok.mp h with ⟨stem, core, version, hash, _, hcounter, hsplit, _, hv⟩
  have hversion := fromStr_version h
  refine ⟨hversion.1, hversion.2.1, String.ofList hash, by rw [hv], ?_⟩
  intro hnone
  rw [hnone] at hcounter
  have hplus := (splitCounter_eq_none hcounter).2
  rw [(splitOnce_eq_some.mp hsplit).1] at hplus
  rw [hv]
  simpa using hplus

/-- Parsing and rendering are inverse to each other: on every name that parses, and on
every entry that a name carries. -/
theorem ukiName_codec :
    (∀ name u, fromStr name = .ok u → fromStr u.display = .ok u) ∧
      ∀ u : UkiEntry, u.Plain → fromStr u.display = .ok u := by
  constructor
  · intro name u h
    exact fromStr_display_of_plain (plain_of_fromStr h)
  · intro u h
    exact fromStr_display_of_plain h

/-- A version survives its UKI file name exactly when it is plain. -/
theorem fromStr_display_version_iff {v : Version} {x : String} (hv : v.hash = some x) :
    (∃ u, fromStr (display ⟨v, none⟩) = .ok u ∧ u.version = v) ↔ v.UkiPlain := by
  obtain ⟨revision, hash⟩ := v
  obtain rfl : hash = some x := hv
  constructor
  · rintro ⟨u, hu, huv⟩
    obtain ⟨stem, core, version, hash, h₀, h₂, h₃, h₄, hver⟩ := fromStr_eq_ok.mp hu
    rw [display_toList, efiStem_append_efi, Option.some.injEq, List.append_cancel_left_eq] at h₀
    obtain rfl : revision.toList ++ '-' :: x.toList = stem := by simpa using h₀
    rw [huv] at hver
    obtain ⟨hrev, hhash⟩ := Version.mk.inj hver
    obtain ⟨hcore, hdash⟩ := splitOnce_eq_some.mp h₃
    have hrev' : revision.toList = version := by rw [hrev, String.toList_ofList]
    have hhash' : x.toList = hash := by rw [Option.some.inj hhash, String.toList_ofList]
    subst hrev' hhash'
    -- a counter would have been cut off the very text that the version reassembles to
    have hplus : '+' ∉ revision.toList ++ '-' :: x.toList := by
      intro hmem
      cases hs : rsplitOnce '+' (revision.toList ++ '-' :: x.toList) with
      | none => exact rsplitOnce_eq_none.mp hs hmem
      | some p =>
          obtain ⟨left, right⟩ := p
          obtain ⟨c, _, hc⟩ := Outcome.bind_eq_ok.mp (by simpa [splitCounter, hs] using h₂)
          have hleft : left = core := (Prod.mk.inj (Outcome.ok.inj hc)).1
          have hlen := congrArg List.length (rsplitOnce_eq_some.mp hs).1
          rw [hleft, hcore] at hlen
          simp at hlen
    simp only [List.mem_append, List.mem_cons, not_or] at hplus
    refine ⟨hdash, hplus.1, ?_, x, rfl, hplus.2.2⟩
    intro he
    exact h₄ (congrArg String.toList he)
  · intro h
    exact ⟨_, fromStr_display h, rfl⟩

end UkiEntry

/-! ## Entries of a listing -/

namespace BootEntry

variable {b : BootEntry}

theorem version_isSome_of_isManaged (h : b.isManaged = true) : ∃ v, b.version = some v := by
  obtain ⟨id, kind⟩ := b
  cases kind with
  | managed uki => exact ⟨uki.version, rfl⟩
  | unmanaged => simp [isManaged] at h
  | legacy => simp [isManaged] at h

theorem ofItem_id {item : BootctlItem} (h : ofItem item = some b) : b.id = item.id := by
  unfold ofItem at h
  split at h
  · split at h <;> cases h <;> rfl
  · split at h
    · cases h
      rfl
    · cases h

theorem fromStr_of_version {item : BootctlItem} {v : Version} (h : ofItem item = some b)
    (hv : b.version = some v) :
    item.itemType = "type2" ∧ ∃ u, UkiEntry.fromStr b.id = .ok u ∧ u.version = v := by
  have hid := ofItem_id h
  unfold ofItem at h
  split at h
  · rename_i ht
    split at h
    · rename_i u hu
      cases h
      exact ⟨ht, u, hu, by simpa [version, uki] using hv⟩
    · cases h
      simp [version, uki] at hv
  · split at h
    · cases h
      simp [version, uki] at hv
    · cases h

end BootEntry

end GhafGivc.Image
