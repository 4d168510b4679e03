import GhafGivc.Image.Step

/-! # Slots and their names

A slot is a logical volume whose name carries its role and its status. The name
is the only place where the status is stored, so decoding and rendering have to
be inverse to each other on every status that can be written.
-/

namespace GhafGivc.Image

open Core Delimited

inductive Kind where
  | root
  | verity
deriving DecidableEq

inductive EmptyId where
  | known (id : String)
  | legacy
deriving DecidableEq

inductive Status where
  | used (version : Version)
  | empty (id : EmptyId)
deriving DecidableEq

structure Slot where
  kind : Kind
  status : Status
  volume : Volume
deriving DecidableEq

inductive SlotClass where
  | broken
  | active
  | empty
  | inactive
deriving DecidableEq

namespace Kind

def display : Kind → String
  | root => "root"
  | verity => "verity"

def parse (name : String) : Outcome String Kind :=
  if name = "root" then .ok root
  else if name = "verity" then .ok verity
  else .err "Matching variant not found"

theorem parse_eq_ok {name : String} {k : Kind} : parse name = .ok k ↔ name = k.display := by
  unfold parse
  by_cases hr : name = "root"
  · subst hr
    cases k <;> simp [display]
  · by_cases hv : name = "verity"
    · subst hv
      cases k <;> simp [display]
    · cases k <;> simp [hr, hv, display]

theorem underscore_notMem_display (k : Kind) : '_' ∉ k.display.toList := by
  cases k <;> decide

end Kind

namespace Status

def isEmpty : Status → Bool
  | empty _ => true
  | used _ => false

def version : Status → Option Version
  | used v => some v
  | empty _ => none

def emptyId : Status → Option String
  | empty (.known id) => some id
  | _ => none

/-- A used slot without hash, or an empty slot with unknown id. -/
def isLegacy : Status → Bool
  | used v => !v.hasHash
  | empty .legacy => true
  | empty (.known _) => false

def suffix : Status → String
  | used ⟨revision, none⟩ => "_" ++ revision
  | used ⟨revision, some hash⟩ => "_" ++ revision ++ "_" ++ hash
  | empty (.known id) => "_empty_" ++ id
  | empty .legacy => "_empty"

/-- The statuses that a slot name can carry. -/
def Plain : Status → Prop
  | used v => '_' ∉ v.revision.toList ∧ v.revision ≠ "empty" ∧ ∀ h ∈ v.hash, '_' ∉ h.toList
  | empty (.known id) => '_' ∉ id.toList
  | empty .legacy => True

instance (s : Status) : Decidable s.Plain := by
  cases s with
  | used v => exact inferInstanceAs (Decidable (_ ∧ _ ∧ ∀ h ∈ v.hash, _))
  | empty e =>
      cases e with
      | known id => exact inferInstanceAs (Decidable ('_' ∉ id.toList))
      | legacy => exact inferInstanceAs (Decidable True)

end Status

namespace Slot

def displayName (k : Kind) (s : Status) : String := k.display ++ s.suffix

def display (s : Slot) : String := displayName s.kind s.status

/-- The status a version field and an optional trailing field stand for. -/
def statusOf (versionRaw : String) (hashOrId : Option String) : Status :=
  if versionRaw = "empty" then
    .empty (match hashOrId with
      | some id => .known id
      | none => .legacy)
  else .used ⟨versionRaw, hashOrId⟩

def decodeStatus (value : String) : Outcome String (Kind × Status) :=
  -- split from the right: [name]_[version]_[hash?]
  match rsplitn '_' 3 value.toList with
  | [] => .err "empty input"
  | [_] => .err "missing version"
  | [last, middle] => finish middle last none
  | last :: middle :: first :: _ => finish first middle (some last)
where
  finish (name versionRaw : List Char) (hashOrId : Option (List Char)) :
      Outcome String (Kind × Status) := do
    Outcome.ensure (name ≠ []) "name is empty"
    let status := statusOf (String.ofList versionRaw) (hashOrId.map String.ofList)
    let kind ← Kind.parse (String.ofList name)
    pure (kind, status)

def ofVolume (volume : Volume) : Option Slot :=
  match decodeStatus volume.lvName with
  | .ok (kind, status) => some ⟨kind, status, volume⟩
  | _ => none

/-- Partition volumes into parsed slots and unparsed volumes. -/
def fromVolumes : List Volume → List Slot × List Volume
  | [] => ([], [])
  | volume :: vols =>
      let (slots, unparsed) := fromVolumes vols
      match ofVolume volume with
      | some slot => (slot :: slots, unparsed)
      | none => (slots, volume :: unparsed)

def isEmpty (s : Slot) : Bool := s.status.isEmpty
def isUsed (s : Slot) : Bool := !s.status.isEmpty
def isLegacy (s : Slot) : Bool := s.status.isLegacy
def emptyId (s : Slot) : Option String := s.status.emptyId
def version (s : Slot) : Option Version := s.status.version

def intoVersion (s : Slot) (v : Version) : Outcome String Slot := do
  Outcome.ensure (!s.isUsed) "Can't assign version to already used slot"
  pure { s with status := .used v }

def rename (s : Slot) : Step := .lvrename s.volume.vgName s.volume.lvName s.display

/-- Slot kind (root / verity) is intentionally ignored. -/
def matchesSlot (s other : Slot) : Bool := s.status = other.status

/-! ## Names and statuses determine each other -/

theorem suffix_statusOf (a : String) (b : Option String) :
    (statusOf a b).suffix = match b with
      | none => "_" ++ a
      | some h => "_" ++ a ++ "_" ++ h := by
  unfold statusOf
  split
  · rename_i ha
    subst ha
    cases b with
    | none => rfl
    | some h => exact congrArg (· ++ h) (by decide : ("_empty_" : String) = "_" ++ "empty" ++ "_")
  · cases b <;> rfl

variable {s : Status} {k : Kind} {v : Volume} {vols : List Volume}

theorem plain_iff_statusOf :
    s.Plain ↔ ∃ a b, '_' ∉ a.toList ∧ (∀ x ∈ b, '_' ∉ x.toList) ∧ s = statusOf a b := by
  constructor
  · intro h
    match s, h with
    | .used v, h =>
        exact ⟨v.revision, v.hash, h.1, h.2.2, by simp [statusOf, h.2.1]⟩
    | .empty (.known id), h =>
        exact ⟨"empty", some id, by decide, by rintro x ⟨⟩; exact h, rfl⟩
    | .empty .legacy, _ => exact ⟨"empty", none, by decide, by simp, rfl⟩
  · rintro ⟨a, b, ha, hb, rfl⟩
    unfold statusOf
    split
    · cases b with
      | none => trivial
      | some id => exact hb id rfl
    · rename_i hne
      exact ⟨ha, hne, hb⟩

theorem finish_eq_ok {name versionRaw : List Char} {hashOrId : Option (List Char)} :
    decodeStatus.finish name versionRaw hashOrId = .ok (k, s) ↔
      String.ofList name = k.display ∧
        s = statusOf (String.ofList versionRaw) (hashOrId.map String.ofList) := by
  unfold decodeStatus.finish
  by_cases hn : name = []
  · subst hn
    have hk : String.ofList [] ≠ k.display := by cases k <;> decide
    simp [Outcome.ensure, hk]
  · simp only [Outcome.ensure, hn, ne_eq, not_false_eq_true, decide_true, if_true,
      Outcome.ok_bind]
    rw [Outcome.bind_eq_ok]
    constructor
    · rintro ⟨k', hk, h⟩
      obtain ⟨rfl, rfl⟩ := Prod.mk.inj (Outcome.ok.inj h)
      exact ⟨Kind.parse_eq_ok.mp hk, rfl⟩
    · rintro ⟨hk, rfl⟩
      exact ⟨k, Kind.parse_eq_ok.mpr hk, rfl⟩

theorem decodeStatus_statusOf {a : String} {b : Option String} (ha : '_' ∉ a.toList)
    (hb : ∀ x ∈ b, '_' ∉ x.toList) :
    decodeStatus (displayName k (statusOf a b)) = .ok (k, statusOf a b) := by
  have hk := k.underscore_notMem_display
  cases b with
  | none =>
      have hl : (displayName k (statusOf a none)).toList = k.display.toList ++ '_' :: a.toList := by
        simp [displayName, suffix_statusOf]
      unfold decodeStatus
      rw [hl, rsplitn_append_cons 1 ha, rsplitn_of_notMem 1 hk]
      exact finish_eq_ok.mpr ⟨String.ofList_toList, by simp⟩
  | some h =>
      have hl : (displayName k (statusOf a (some h))).toList =
          (k.display.toList ++ '_' :: a.toList) ++ '_' :: h.toList := by
        simp [displayName, suffix_statusOf]
      unfold decodeStatus
      rw [hl, rsplitn_append_cons 1 (hb h rfl), rsplitn_append_cons 0 ha, rsplitn_of_notMem 0 hk]
      exact finish_eq_ok.mpr ⟨String.ofList_toList, by simp⟩

variable {value : String}

/-- Decoding accepts exactly the rendered plain statuses. -/
theorem decodeStatus_eq_ok :
    decodeStatus value = .ok (k, s) ↔ value = displayName k s ∧ s.Plain := by
  constructor
  · intro h
    unfold decodeStatus at h
    cases h1 : rsplitOnce '_' value.toList with
    | none => simp [rsplitn, h1] at h
    | some p =>
        obtain ⟨rest, last⟩ := p
        obtain ⟨hl, hlast⟩ := rsplitOnce_eq_some.mp h1
        cases h2 : rsplitOnce '_' rest with
        | none =>
            simp only [rsplitn, h1, h2] at h
            obtain ⟨hk, rfl⟩ := finish_eq_ok.mp h
            refine ⟨?_, plain_iff_statusOf.mpr ⟨_, _, by simpa using hlast, by simp, rfl⟩⟩
            rw [← String.toList_inj, hl]
            simp [displayName, suffix_statusOf, ← hk]
        | some q =>
            obtain ⟨first, middle⟩ := q
            obtain ⟨hr, hmid⟩ := rsplitOnce_eq_some.mp h2
            simp only [rsplitn, h1, h2] at h
            obtain ⟨hk, rfl⟩ := finish_eq_ok.mp h
            refine ⟨?_, plain_iff_statusOf.mpr ⟨_, _, by simpa using hmid, by simpa using hlast,
              rfl⟩⟩
            rw [← String.toList_inj, hl, hr]
            simp [displayName, suffix_statusOf, ← hk]
  · rintro ⟨rfl, hp⟩
    obtain ⟨a, b, ha, hb, rfl⟩ := plain_iff_statusOf.mp hp
    exact decodeStatus_statusOf ha hb

theorem decodeStatus_displayName (h : s.Plain) : decodeStatus (displayName k s) = .ok (k, s) :=
  decodeStatus_eq_ok.mpr ⟨rfl, h⟩

theorem displayName_inj {k k' : Kind} {s s' : Status} (h : s.Plain) (h' : s'.Plain)
    (e : displayName k s = displayName k' s') : k = k' ∧ s = s' := by
  have hdecode := decodeStatus_displayName (k := k) h
  rw [e, decodeStatus_displayName h'] at hdecode
  have hpair := Prod.mk.inj (Outcome.ok.inj hdecode)
  exact ⟨hpair.1.symm, hpair.2.symm⟩

theorem displayName_statusOf (k : Kind) (a : String) (b : Option String) :
    displayName k (statusOf a b) = match b with
      | none => k.display ++ "_" ++ a
      | some h => k.display ++ "_" ++ a ++ "_" ++ h := by
  rw [displayName, suffix_statusOf]
  cases b <;> simp only [String.append_assoc]

theorem exists_decodeStatus_iff :
    (∃ k s, decodeStatus value = .ok (k, s)) ↔
      ∃ (k : Kind) (a : String), '_' ∉ a.toList ∧
        (value = k.display ++ "_" ++ a ∨
          ∃ b : String, '_' ∉ b.toList ∧ value = k.display ++ "_" ++ a ++ "_" ++ b) := by
  constructor
  · intro h
    rcases h with ⟨k, s, h⟩
    rcases decodeStatus_eq_ok.mp h with ⟨rfl, hplain⟩
    rcases plain_iff_statusOf.mp hplain with ⟨a, b, ha, hb, rfl⟩
    refine ⟨k, a, ha, ?_⟩
    rw [displayName_statusOf]
    cases b with
    | none => exact Or.inl rfl
    | some b => exact Or.inr ⟨b, hb b rfl, rfl⟩
  · intro h
    rcases h with ⟨k, a, ha, rfl | ⟨b, hb, rfl⟩⟩
    · exact ⟨k, statusOf a none, decodeStatus_eq_ok.mpr ⟨(displayName_statusOf k a none).symm,
        plain_iff_statusOf.mpr ⟨a, none, ha, by simp, rfl⟩⟩⟩
    · exact ⟨k, statusOf a (some b), decodeStatus_eq_ok.mpr
        ⟨(displayName_statusOf k a (some b)).symm,
          plain_iff_statusOf.mpr ⟨a, some b, ha, by simpa using hb, rfl⟩⟩⟩

/-- Decoding and rendering are inverse to each other: on every name that decodes and on
every plain status. -/
theorem slotName_codec :
    (∀ value, (∃ k s, decodeStatus value = .ok (k, s)) ↔
        ∃ (k : Kind) (a : String), '_' ∉ a.toList ∧
          (value = k.display ++ "_" ++ a ∨
            ∃ b : String, '_' ∉ b.toList ∧ value = k.display ++ "_" ++ a ++ "_" ++ b)) ∧
      (∀ value k s volume, decodeStatus value = .ok (k, s) → display ⟨k, s, volume⟩ = value) ∧
      (∀ k s volume, s.Plain → decodeStatus (display ⟨k, s, volume⟩) = .ok (k, s)) ∧
      ∀ k s k' s', s.Plain → s'.Plain → displayName k s = displayName k' s' →
        k = k' ∧ s = s' := by
  refine ⟨fun _ => exists_decodeStatus_iff, ?_, ?_, ?_⟩
  · intro value k s volume h
    exact (decodeStatus_eq_ok.mp h).1.symm
  · intro k s volume hplain
    exact decodeStatus_displayName hplain
  · intro k s k' s' h h' e
    exact displayName_inj h h' e

/-! ## Slots of a volume list -/

theorem ofVolume_eq_some {s : Slot} :
    ofVolume v = some s ↔ decodeStatus v.lvName = .ok (s.kind, s.status) ∧ s.volume = v := by
  unfold ofVolume
  obtain ⟨kind, status, volume⟩ := s
  cases h : decodeStatus v.lvName with
  | ok p =>
      obtain ⟨k, st⟩ := p
      simp only [Option.some.injEq, mk.injEq, Outcome.ok.injEq, Prod.mk.injEq, and_assoc,
        eq_comm (a := v)]
  | err e => simp
  | panicked => simp

theorem fromVolumes_cons (v : Volume) (vols : List Volume) :
    fromVolumes (v :: vols) =
      match ofVolume v with
      | some slot => (slot :: (fromVolumes vols).1, (fromVolumes vols).2)
      | none => ((fromVolumes vols).1, v :: (fromVolumes vols).2) := rfl

theorem fromVolumes_fst (vols : List Volume) : (fromVolumes vols).1 = vols.filterMap ofVolume := by
  induction vols with
  | nil => rfl
  | cons v vs ih =>
      cases h : ofVolume v with
      | none => rw [fromVolumes_cons, h, List.filterMap_cons_none h, ih]
      | some s => rw [fromVolumes_cons, h, List.filterMap_cons_some h, ih]

theorem fromVolumes_snd (vols : List Volume) :
    (fromVolumes vols).2 = vols.filter fun v => (ofVolume v).isNone := by
  induction vols with
  | nil => rfl
  | cons v vs ih =>
      cases h : ofVolume v with
      | none => rw [fromVolumes_cons, h, List.filter_cons_of_pos (by simp [h]), ih]
      | some s => rw [fromVolumes_cons, h, List.filter_cons_of_neg (by simp [h]), ih]

theorem decodeStatus_ne_ok_of_unparsed (h : v ∈ (fromVolumes vols).2) (p : Kind × Status) :
    decodeStatus v.lvName ≠ .ok p := by
  intro hp
  rw [fromVolumes_snd, List.mem_filter] at h
  have hsome : ofVolume v = some ⟨p.1, p.2, v⟩ := ofVolume_eq_some.mpr ⟨hp, rfl⟩
  rw [hsome] at h
  cases h.2

/-- No volume is lost and none is made up. -/
theorem perm_fromVolumes (vols : List Volume) :
    ((fromVolumes vols).1.map Slot.volume ++ (fromVolumes vols).2).Perm vols := by
  induction vols with
  | nil => exact List.Perm.nil
  | cons v vs ih =>
      cases h : ofVolume v with
      | none =>
          rw [fromVolumes_cons, h]
          exact List.perm_middle.trans (ih.cons v)
      | some s =>
          rw [fromVolumes_cons, h]
          have hv := (ofVolume_eq_some.mp h).2
          subst hv
          exact ih.cons s.volume

theorem mem_fromVolumes {s : Slot} :
    s ∈ (fromVolumes vols).1 ↔
      s.volume ∈ vols ∧ decodeStatus s.volume.lvName = .ok (s.kind, s.status) := by
  rw [fromVolumes_fst, List.mem_filterMap]
  constructor
  · rintro ⟨v, hv, hs⟩
    obtain ⟨hd, rfl⟩ := ofVolume_eq_some.mp hs
    exact ⟨hv, hd⟩
  · rintro ⟨hv, hd⟩
    exact ⟨s.volume, hv, ofVolume_eq_some.mpr ⟨hd, rfl⟩⟩

theorem lvName_of_mem_fromVolumes {s : Slot} (h : s ∈ (fromVolumes vols).1) :
    s.volume.lvName = displayName s.kind s.status ∧ s.status.Plain :=
  decodeStatus_eq_ok.mp (mem_fromVolumes.mp h).2

end Slot

end GhafGivc.Image
