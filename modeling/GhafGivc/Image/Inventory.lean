import GhafGivc.Image.Catalog
import GhafGivc.Image.Listing

/-! # The planner's decisions, read off the names

For a world whose names do not clash, each query of the runtime is expressed by
the keys and UKIs present. Nothing here assumes complete slots, so the results
also apply to the worlds an interrupted plan leaves behind.
-/

namespace GhafGivc.Image

open Core SlotGroup

namespace World

def slots (w : World) : List Slot := (Slot.fromVolumes w.volumes).1

/-- The runtime that a world with clash-free names is read as. -/
def runtimeOf (w : World) (kernel : KernelParams) : Runtime :=
  ⟨view w.slots w.names.ukis, (Slot.fromVolumes w.volumes).2, kernel,
    (BootEntry.fromBootctl w.esp.items).filter (!·.isManaged), "/boot"⟩

def slot (w : World) (k : Kind) (s : Status) : Option Slot := slotFor w.slots k s

def group (w : World) (s : Status) : SlotGroup := row w.slots w.names.ukis s

theorem map_key_slots (w : World) : w.slots.map Slot.key = w.names.keys := by
  rw [slots, Slot.fromVolumes_fst, List.map_filterMap, Names.keys, names, List.filterMap_map]
  congr 1
  funext v
  change (Slot.ofVolume v).map Slot.key = nameKey v.id
  unfold Slot.ofVolume nameKey Volume.id
  cases Slot.decodeStatus v.lvName <;> rfl

theorem mem_slots {w : World} {t : Slot} :
    t ∈ w.slots ↔ t.volume ∈ w.volumes ∧ nameKey t.volume.id = some t.key := by
  rw [slots, Slot.mem_fromVolumes, Slot.key, nameKey_eq_some, Slot.decodeStatus_eq_ok]
  rfl

theorem mem_statuses_slots {w : World} {s : Status} :
    s ∈ statuses w.slots ↔ ∃ k, (k, s) ∈ w.names.keys := by
  rw [mem_statuses_iff_key, map_key_slots]

theorem runtime_eq_ok_iff {w : World} {cmdline : String} {rt : Runtime} :
    w.runtime cmdline = .ok rt ↔
      w.names.keys.Nodup ∧ ((claimed w.slots w.names.ukis).map BootEntry.version).Nodup ∧
        ∃ kernel, KernelParams.fromCmdline cmdline = .ok kernel ∧ rt = w.runtimeOf kernel := by
  rw [runtime, Runtime.new_eq_ok_iff, not_clashing_iff, ← map_key_slots, and_assoc]
  rfl

section Groups

variable {w : World} {kernel : KernelParams} {g : SlotGroup} {s : Status} {k : Kind}

theorem mem_slotgroups :
    g ∈ (w.runtimeOf kernel).slotgroups ↔
      (∃ k s, (k, s) ∈ w.names.keys ∧ w.group s = g) ∨
        ∃ b ∈ w.names.ukis, isOrphan w.slots b = true ∧ orphan b = g := by
  simp only [runtimeOf, mem_view, mem_statuses_slots, group]
  constructor
  · rintro (⟨s, ⟨k, hk⟩, h⟩ | h)
    · exact Or.inl ⟨k, s, hk, h⟩
    · exact Or.inr h
  · rintro (⟨k, s, hk, h⟩ | h)
    · exact Or.inl ⟨s, ⟨k, hk⟩, h⟩
    · exact Or.inr h

theorem group_mem (h : (k, s) ∈ w.names.keys) :
    w.group s ∈ (w.runtimeOf kernel).slotgroups :=
  mem_slotgroups.mpr (Or.inl ⟨k, s, h, rfl⟩)

theorem group_version (h : (k, s) ∈ w.names.keys) : (w.group s).version = s.version :=
  version_row (mem_statuses_slots.mpr ⟨k, h⟩)

theorem group_emptyId (h : (k, s) ∈ w.names.keys) : (w.group s).emptyId = s.emptyId :=
  emptyId_row (mem_statuses_slots.mpr ⟨k, h⟩)

theorem group_isEmpty (h : (k, s) ∈ w.names.keys) : (w.group s).isEmpty = s.isEmpty :=
  isEmpty_row (mem_statuses_slots.mpr ⟨k, h⟩)

theorem group_isLegacy (h : (k, s) ∈ w.names.keys) : (w.group s).isLegacy = s.isLegacy :=
  isLegacy_row (mem_statuses_slots.mpr ⟨k, h⟩)

theorem group_isActive (h : (k, s) ∈ w.names.keys) :
    (w.group s).isActive kernel = s.isActive kernel :=
  isActive_row kernel (mem_statuses_slots.mpr ⟨k, h⟩)

theorem group_isComplete :
    (w.group s).isComplete = true ↔
      (Kind.root, s) ∈ w.names.keys ∧ (Kind.verity, s) ∈ w.names.keys := by
  rw [group, isComplete_row, map_key_slots]

theorem slot_isSome : (w.slot k s).isSome = true ↔ (k, s) ∈ w.names.keys := by
  rw [← map_key_slots]
  exact slotFor_isSome_iff

theorem slot_spec {r : Slot} (h : w.slot k s = some r) :
    r.kind = k ∧ r.status = s ∧ r.volume ∈ w.volumes ∧ nameKey r.volume.id = some (k, s) := by
  obtain ⟨hmem, hk, hs⟩ := slotFor_spec h
  obtain ⟨hv, hkey⟩ := mem_slots.mp hmem
  exact ⟨hk, hs, hv, by rw [hkey, Slot.key, hk, hs]⟩

theorem slot_id_mem {r : Slot} (h : w.slot k s = some r) : r.volume.id ∈ w.names.ids :=
  List.mem_map_of_mem (slot_spec h).2.2.1

theorem group_inj {t : Status} (hs : (k, s) ∈ w.names.keys) (h : w.group s = w.group t) : s = t :=
  row_inj (mem_statuses_slots.mpr ⟨k, hs⟩) h

theorem isOrphan_eq_false_iff_key {b : BootEntry} {v : Version} (hb : b.version = some v) :
    isOrphan w.slots b = false ↔ (Kind.root, Status.used v) ∈ w.names.keys := by
  rw [isOrphan_eq_false_iff hb, map_key_slots]

end Groups

end World

/-- Names that can be read back: no two slot volumes clash, and no root volume has
two UKIs. -/
structure Names.Readable (n : Names) : Prop where
  nodup : n.keys.Nodup
  single : ∀ b ∈ n.ukis, ∀ c ∈ n.ukis, ∀ v, b.version = some v → c.version = some v →
    (Kind.root, Status.used v) ∈ n.keys → b = c

namespace World

theorem nodup_claimed_iff {w : World} :
    ((claimed w.slots w.names.ukis).map BootEntry.version).Nodup ↔
      ∀ b ∈ w.names.ukis, ∀ c ∈ w.names.ukis, ∀ v, b.version = some v → c.version = some v →
        (Kind.root, Status.used v) ∈ w.names.keys → b = c := by
  have hclaimed : ∀ b v, b.version = some v →
      (b ∈ claimed w.slots w.names.ukis ↔
        b ∈ w.names.ukis ∧ (Kind.root, Status.used v) ∈ w.names.keys) := by
    intro b v hbv
    rw [claimed, List.mem_filter, Bool.not_eq_true', isOrphan_eq_false_iff_key hbv]
  constructor
  · intro h b hb c hc v hbv hcv hkey
    exact List.inj_on_of_nodup_map h ((hclaimed b v hbv).mpr ⟨hb, hkey⟩)
      ((hclaimed c v hcv).mpr ⟨hc, hkey⟩) (hbv.trans hcv.symm)
  · intro h
    refine (List.nodup_map_iff_inj_on ((Names.nodup_ukis _).filter _)).mpr ?_
    intro b hb c hc hbc
    obtain ⟨u, _, hbv⟩ := Names.version_of_mem_ukis (List.mem_filter.mp hb).1
    have hcv := hbc.symm.trans hbv
    obtain ⟨hb, hkey⟩ := (hclaimed b _ hbv).mp hb
    exact h b hb c ((hclaimed c _ hcv).mp hc).1 _ hbv hcv hkey

/-- Reading a world succeeds exactly on readable names. -/
theorem runtime_iff_readable {w : World} {cmdline : String} {rt : Runtime} :
    w.runtime cmdline = .ok rt ↔
      w.names.Readable ∧
        ∃ kernel, KernelParams.fromCmdline cmdline = .ok kernel ∧ rt = w.runtimeOf kernel := by
  rw [runtime_eq_ok_iff, nodup_claimed_iff]
  constructor
  · intro h
    exact ⟨⟨h.1, h.2.1⟩, h.2.2⟩
  · intro h
    exact ⟨h.1.nodup, h.1.single, h.2⟩

theorem runtime_of_readable {w : World} {cmdline : String} {kernel : KernelParams}
    (hk : KernelParams.fromCmdline cmdline = .ok kernel) (h : w.names.Readable) :
    w.runtime cmdline = .ok (w.runtimeOf kernel) :=
  runtime_iff_readable.mpr ⟨h, kernel, hk, rfl⟩

section Queries

variable {w : World} {kernel : KernelParams} {g : SlotGroup} {s : Status} {v : Version}
  {rt : Runtime} {p : SlotGroup → Bool} {reason : String}

theorem findExactOneGroup_eq_some :
    rt.findExactOneGroup p reason = .ok (some g) ↔ rt.slotgroups.filter p = [g] := by
  unfold Runtime.findExactOneGroup
  rcases rt.slotgroups.filter p with _ | ⟨x, _ | ⟨y, l⟩⟩ <;> simp

theorem findExactOneGroup_eq_none :
    rt.findExactOneGroup p reason = .ok none ↔ rt.slotgroups.filter p = [] := by
  unfold Runtime.findExactOneGroup
  rcases rt.slotgroups.filter p with _ | ⟨x, _ | ⟨y, l⟩⟩ <;> simp

theorem activeSlot_eq_ok :
    rt.activeSlot = .ok g ↔ rt.slotgroups.filter (·.isActive rt.kernel) = [g] := by
  rw [← findExactOneGroup_eq_some, Runtime.activeSlot, Outcome.bind_eq_ok]
  constructor
  · rintro ⟨o, ho, h⟩
    rw [Outcome.context_eq_ok.mp h] at ho
    exact ho
  · intro h
    exact ⟨some g, h, rfl⟩

/-- Without orphan UKIs the active slot is the group of the only active status. -/
theorem activeSlot_of_unique {k : Kind} (attached : ∀ b ∈ w.names.ukis, isOrphan w.slots b = false)
    (hk : (k, s) ∈ w.names.keys) (hs : s.isActive kernel = true)
    (unique : ∀ k' t, (k', t) ∈ w.names.keys → t.isActive kernel = true → t = s) :
    (w.runtimeOf kernel).activeSlot = .ok (w.group s) := by
  refine activeSlot_eq_ok.mpr (filter_eq_singleton (nodup_view (Names.nodup_ukis _)) (group_mem hk)
    ((group_isActive hk).trans hs) ?_)
  intro g hg hact
  rcases mem_slotgroups.mp hg with ⟨k', t, hk', rfl⟩ | ⟨b, hb, ho, _⟩
  · rw [unique k' t hk' ((group_isActive hk').symm.trans hact)]
  · rw [attached b hb] at ho
    cases ho

theorem installed_iff :
    ((w.runtimeOf kernel).slotgroups.any
        fun g => g.isUsed && g.isComplete && g.version = some v) = true ↔
      w.names.Installed v := by
  simp only [Names.Installed, List.any_eq_true, Bool.and_eq_true, decide_eq_true_eq]
  constructor
  · rintro ⟨g, hg, ⟨_, hc⟩, hv⟩
    rcases mem_slotgroups.mp hg with ⟨k, s, hk, rfl⟩ | ⟨b, _, _, rfl⟩
    · rw [group_version hk] at hv
      rw [← Status.eq_used_of_version hv]
      exact group_isComplete.mp hc
    · simp [orphan, isComplete] at hc
  · rintro ⟨hr, hv⟩
    exact ⟨_, group_mem hr, ⟨isUsed_row_of_version (mem_statuses_slots.mpr ⟨_, hr⟩) rfl,
      group_isComplete.mpr ⟨hr, hv⟩⟩, group_version hr⟩

/-- A version that no group reports is in no name. -/
theorem fresh_of_unreported
    (h : ∀ g ∈ (w.runtimeOf kernel).slotgroups, g.version ≠ some v) :
    (∀ k, (k, Status.used v) ∉ w.names.keys) ∧ ∀ c ∈ w.names.ukis, c.version ≠ some v := by
  have fresh : ∀ k, (k, Status.used v) ∉ w.names.keys := fun k hk =>
    h _ (group_mem hk) (group_version hk)
  refine ⟨fresh, ?_⟩
  intro c hc hcv
  cases ho : isOrphan w.slots c with
  | false => exact fresh .root ((isOrphan_eq_false_iff_key hcv).mp ho)
  | true => exact h (orphan c) (mem_slotgroups.mpr (Or.inr ⟨c, hc, ho, rfl⟩)) hcv

theorem isSpare_group {k : Kind} (hk : (k, s) ∈ w.names.keys) :
    ((w.group s).isEmpty && !(w.group s).isActive kernel && (w.group s).isComplete) = true ↔
      s.isEmpty = true ∧ (Kind.root, s) ∈ w.names.keys ∧ (Kind.verity, s) ∈ w.names.keys := by
  rw [Bool.and_eq_true, Bool.and_eq_true, group_isEmpty hk, group_isActive hk, group_isComplete]
  constructor
  · rintro ⟨⟨hs, _⟩, h⟩
    exact ⟨hs, h⟩
  · rintro ⟨hs, h⟩
    exact ⟨⟨hs, by rw [Status.isActive_of_isEmpty hs]; rfl⟩, h⟩

theorem spareSlot_eq_some (h : (w.runtimeOf kernel).spareSlot = some g) :
    ∃ s, s.isEmpty = true ∧ (Kind.root, s) ∈ w.names.keys ∧ (Kind.verity, s) ∈ w.names.keys ∧
      w.group s = g := by
  have hp := List.find?_some h
  rcases mem_slotgroups.mp (List.mem_of_find?_eq_some h) with ⟨k, s, hk, rfl⟩ | ⟨b, _, _, rfl⟩
  · obtain ⟨hs, hr, hv⟩ := (isSpare_group hk).mp hp
    exact ⟨s, hs, hr, hv, rfl⟩
  · simp [orphan, isComplete] at hp

theorem spareSlot_eq_none :
    (w.runtimeOf kernel).spareSlot = none ↔
      ∀ s, s.isEmpty = true → (Kind.root, s) ∈ w.names.keys → (Kind.verity, s) ∉ w.names.keys := by
  constructor
  · intro h s hs hr hv
    exact List.find?_eq_none.mp h _ (group_mem hr) ((isSpare_group hr).mpr ⟨hs, hr, hv⟩)
  · intro h
    cases hf : (w.runtimeOf kernel).spareSlot with
    | none => rfl
    | some g =>
        obtain ⟨s, hs, hr, hv, _⟩ := spareSlot_eq_some hf
        exact absurd hv (h s hs hr)

theorem mem_emptyIds {id : String} :
    id ∈ (w.runtimeOf kernel).slotgroups.filterMap SlotGroup.emptyId ↔
      ∃ k, (k, Status.empty (.known id)) ∈ w.names.keys := by
  rw [List.mem_filterMap, ← mem_statuses_slots, mem_statuses]
  exact exists_emptyId_view

theorem allocateEmptyIdentifier_fresh {id : String}
    (h : (w.runtimeOf kernel).allocateEmptyIdentifier = .ok id) :
    (Status.empty (.known id)).Plain ∧
      ∀ k, (k, Status.empty (.known id)) ∉ w.names.keys := by
  have hspec := Runtime.allocateEmptyIdentifier_spec h
  refine ⟨hspec.1, fun k hk => ?_⟩
  exact hspec.2 _ (group_mem hk) (group_emptyId hk)

theorem allocateEmptyIdentifier_congr {w' : World} (h : w'.names.keys = w.names.keys) :
    (w'.runtimeOf kernel).allocateEmptyIdentifier =
      (w.runtimeOf kernel).allocateEmptyIdentifier := by
  have hused : ∀ c, ((w'.runtimeOf kernel).slotgroups.filterMap SlotGroup.emptyId).contains c =
      ((w.runtimeOf kernel).slotgroups.filterMap SlotGroup.emptyId).contains c := by
    intro c
    rw [Bool.eq_iff_iff, List.contains_iff_mem, List.contains_iff_mem, mem_emptyIds, mem_emptyIds,
      h]
  simp only [Runtime.allocateEmptyIdentifier, hused]

end Queries

end World

end GhafGivc.Image
