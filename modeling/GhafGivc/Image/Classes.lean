import GhafGivc.Image.ListingOrder

/-! # Classes of groups

`validate` guards `classify`: a group that it refuses is broken. Its last check was
meant to refuse a UKI on an empty group and asks for one instead. The check before it
refuses exactly those groups, so nothing passes.
-/

namespace GhafGivc.Image

open Core SlotGroup

namespace SlotGroup

/-- What `validate` is there for: the parts of the group match, and an empty group has
no UKI. -/
def Consistent (g : SlotGroup) : Prop :=
  (∀ root ∈ g.root, ∀ verity ∈ g.verity, root.matchesSlot verity = true) ∧
    (∀ boot ∈ g.boot, ∀ t ∈ g.slots, boot.matchesSlot t = true) ∧
    ¬ (g.isEmpty = true ∧ g.boot.isSome = true)

/-- The class that the parts of a group and the kernel give it. -/
def HasClass (g : SlotGroup) (kernel : KernelParams) : SlotClass → Prop
  | .broken => ¬ g.Consistent
  | .active => g.Consistent ∧ g.isActive kernel = true
  | .empty => g.Consistent ∧ g.isEmpty = true
  | .inactive => g.Consistent ∧ g.isActive kernel = false ∧ g.isEmpty = false

variable {g : SlotGroup}

theorem validate_eq_ok :
    g.validate = .ok () ↔
      (∀ root ∈ g.root, ∀ verity ∈ g.verity, root.matchesSlot verity = true) ∧
        (∀ boot ∈ g.boot, ∀ t ∈ g.slots, boot.matchesSlot t = true) ∧
        g.isEmpty = true ∧ g.boot.isSome = true := by
  have hslots : ∀ p : Slot → Prop,
      (∀ t ∈ g.slots, p t) ↔ (∀ t ∈ g.root, p t) ∧ ∀ t ∈ g.verity, p t := by
    intro p
    simp only [SlotGroup.slots, List.mem_append, Option.mem_toList, Option.mem_def, or_imp,
      forall_and]
  simp only [validate, hslots]
  rw [Outcome.bind_eq_ok]
  constructor
  · intro h
    rcases h with ⟨_, hpair, h⟩
    rcases Outcome.bind_eq_ok.mp h with ⟨_, hboot, hlast⟩
    have hlast := Outcome.ensure_eq_ok.mp hlast
    rw [Bool.and_eq_true] at hlast
    refine ⟨fun root hr verity hv => ?_, fun boot hb => ⟨fun t ht => ?_, fun t ht => ?_⟩, hlast⟩
    · exact Outcome.ensure_eq_ok.mp (Outcome.forM_eq_ok.mp (Outcome.forM_eq_ok.mp hpair root hr)
        verity hv)
    · rcases Outcome.bind_eq_ok.mp (Outcome.forM_eq_ok.mp hboot boot hb) with ⟨_, hroot, _⟩
      exact Outcome.ensure_eq_ok.mp (Outcome.forM_eq_ok.mp hroot t ht)
    · rcases Outcome.bind_eq_ok.mp (Outcome.forM_eq_ok.mp hboot boot hb) with ⟨_, _, hverity⟩
      exact Outcome.ensure_eq_ok.mp (Outcome.forM_eq_ok.mp hverity t ht)
  · intro h
    rcases h with ⟨hpair, hboot, hlast⟩
    refine ⟨⟨⟩, ?_, Outcome.bind_eq_ok.mpr ⟨⟨⟩, ?_, ?_⟩⟩
    · apply Outcome.forM_eq_ok.mpr
      intro root hr
      apply Outcome.forM_eq_ok.mpr
      intro verity hv
      exact Outcome.ensure_eq_ok.mpr (hpair root hr verity hv)
    · apply Outcome.forM_eq_ok.mpr
      intro boot hb
      refine Outcome.bind_eq_ok.mpr ⟨⟨⟩, Outcome.forM_eq_ok.mpr fun t ht => ?_,
        Outcome.forM_eq_ok.mpr fun t ht => ?_⟩
      · exact Outcome.ensure_eq_ok.mpr ((hboot boot hb).1 t ht)
      · exact Outcome.ensure_eq_ok.mpr ((hboot boot hb).2 t ht)
    · apply Outcome.ensure_eq_ok.mpr
      rw [Bool.and_eq_true]
      exact hlast

theorem exists_isEmpty_slot (h : g.isEmpty = true) : ∃ t ∈ g.slots, t.isEmpty = true := by
  rcases g with ⟨root, verity, boot⟩
  cases root with
  | some r =>
      refine ⟨r, by simp [SlotGroup.slots], ?_⟩
      cases verity <;> simp_all [isEmpty]
  | none =>
      cases verity with
      | some t => exact ⟨t, by simp [SlotGroup.slots], h⟩
      | none => cases h

theorem matchesSlot_of_isEmpty {b : BootEntry} {t : Slot} (h : t.isEmpty = true) :
    b.matchesSlot t = false := by
  have hversion : t.version = none := Status.version_of_isEmpty h
  unfold BootEntry.matchesSlot
  split
  · simp [UkiEntry.matchesSlot, hversion]
  · rfl

/-- A UKI on an empty group does not match its slots, and without one the last check
fails. -/
theorem validate_ne_ok (g : SlotGroup) : g.validate ≠ .ok () := by
  intro h
  rcases validate_eq_ok.mp h with ⟨_, hboot, hempty, hsome⟩
  rcases Option.isSome_iff_exists.mp hsome with ⟨b, hb⟩
  rcases exists_isEmpty_slot hempty with ⟨t, ht, hte⟩
  have hmatch := hboot b hb t ht
  rw [matchesSlot_of_isEmpty hte] at hmatch
  cases hmatch

theorem classify_eq_broken (g : SlotGroup) (kernel : KernelParams) :
    g.classify kernel = .broken := by
  unfold classify
  split
  · rename_i h
    exact absurd h (validate_ne_ok g)
  · rfl

theorem matchesSlot_of_version {b : BootEntry} {t : Slot} (managed : b.isManaged = true)
    (h : b.version = t.version) : b.matchesSlot t = true := by
  rcases b with ⟨id, kind⟩
  cases kind with
  | managed uki => exact decide_eq_true h.symm
  | unmanaged => cases managed
  | legacy => cases managed

theorem consistent_of_mem_view {slots : List Slot} {boots : List BootEntry}
    (managed : ∀ b ∈ boots, b.isManaged = true) (hclash : ¬ Clashing slots boots)
    (hg : g ∈ view slots boots) : g.Consistent := by
  have hpart := partitions_view managed hclash
  refine ⟨?_, ?_, ?_⟩
  · intro root hroot verity hverity
    exact decide_eq_true (hpart.uniform g hg root hroot verity hverity)
  · intro b hb t ht
    rcases mem_view.mp hg with ⟨s, _, rfl⟩ | ⟨c, _, _, rfl⟩
    · rcases bootFor_eq_some hb with ⟨hmem, hversion, _⟩
      apply matchesSlot_of_version (managed b hmem)
      rw [hversion, Slot.version, (status_of_mem_row ht).2]
    · cases ht
  · intro h
    rcases exists_isEmpty_slot h.1 with ⟨t, ht, hempty⟩
    rw [hpart.empty_bare g hg t ht hempty] at h
    cases h.2

theorem view_eq_nil_iff {slots : List Slot} {boots : List BootEntry} :
    view slots boots = [] ↔ slots = [] ∧ boots = [] := by
  constructor
  · intro h
    rcases List.append_eq_nil_iff.mp h with ⟨hrows, horphans⟩
    have hslots : slots = [] := by
      by_contra hne
      rcases List.exists_mem_of_ne_nil slots hne with ⟨t, ht⟩
      have hs := mem_statuses.mpr ⟨t, ht, rfl⟩
      rw [List.map_eq_nil_iff.mp hrows] at hs
      cases hs
    subst hslots
    refine ⟨rfl, List.eq_nil_iff_forall_not_mem.mpr ?_⟩
    simpa [isOrphan] using List.map_eq_nil_iff.mp horphans
  · intro h
    rw [h.1, h.2]
    rfl

end SlotGroup

/-- Every group is validated and classified as its parts and the kernel demand. -/
structure Runtime.Classifies (rt : Runtime) : Prop where
  validates : ∀ g ∈ rt.slotgroups, g.validate = .ok () ↔ g.Consistent
  classes : ∀ g ∈ rt.slotgroups, ∀ kernel c, g.classify kernel = c ↔ g.HasClass kernel c
  by_class : ∀ c g, g ∈ rt.slotsByClass rt.slotgroups c ↔
    g ∈ rt.slotgroups ∧ g.HasClass rt.kernel c

theorem not_classifies_of_mem {rt : Runtime} {g : SlotGroup} (hg : g ∈ rt.slotgroups)
    (hconsistent : g.Consistent) : ¬ rt.Classifies := by
  intro h
  have hbroken := classify_eq_broken g rt.kernel
  exact (h.classes g hg rt.kernel .broken).mp hbroken hconsistent

/-- Groups are classified as they should be only where there is none. -/
theorem classifies_iff {volumes : List Volume} {cmdline : String} {items : List BootctlItem}
    {rt : Runtime} (h : Runtime.new volumes cmdline items = .ok rt) :
    rt.Classifies ↔ (Slot.fromVolumes volumes).1 = [] ∧ BootEntry.ukis items = [] := by
  rcases Runtime.new_eq_ok_iff.mp h with ⟨hclash, kernel, _, rfl⟩
  rw [← view_eq_nil_iff]
  constructor
  · intro hclasses
    apply List.eq_nil_iff_forall_not_mem.mpr
    intro g hg
    have hconsistent := consistent_of_mem_view (BootEntry.isManaged_of_mem_ukis items) hclash hg
    exact not_classifies_of_mem hg hconsistent hclasses
  · intro hnil
    have hgroups : (Runtime.listed volumes items kernel).slotgroups = [] := hnil
    constructor
    · simp [hgroups]
    · simp [hgroups]
    · simp [hgroups, Runtime.slotsByClass]

theorem classes_samples :
    (mixedRuntime.slotgroups.map fun g => (g.isActive legacyKernel, g.isEmpty, g.validate)) =
        [(true, false, .err "empty slot group contains UKI"),
          (false, true, .err "empty slot group contains UKI"),
          (false, false, .err "empty slot group contains UKI")] ∧
      mixedRuntime.slotsByClass mixedRuntime.slotgroups .broken = mixedRuntime.slotgroups ∧
      mixedRuntime.slotgroups ≠ [] := by
  decide +kernel

/-- An active, an empty and an inactive group are all broken. -/
theorem mixedRuntime_all_broken :
    Runtime.new mixedVolumes "quiet" mixedItems = .ok mixedRuntime ∧
      (mixedRuntime.slotgroups.map fun g => (g.isActive legacyKernel, g.isEmpty, g.validate)) =
        [(true, false, .err "empty slot group contains UKI"),
          (false, true, .err "empty slot group contains UKI"),
          (false, false, .err "empty slot group contains UKI")] ∧
      (∀ g ∈ mixedRuntime.slotgroups, g.Consistent) ∧
      mixedRuntime.slotsByClass mixedRuntime.slotgroups .broken = mixedRuntime.slotgroups ∧
      ¬ mixedRuntime.Classifies := by
  rcases Runtime.new_eq_ok_iff.mp mixed_samples.1 with ⟨hclash, _⟩
  rcases classes_samples with ⟨hgroups, hbroken, hne⟩
  have hconsistent : ∀ g ∈ mixedRuntime.slotgroups, g.Consistent := fun g hg =>
    consistent_of_mem_view (BootEntry.isManaged_of_mem_ukis mixedItems) hclash hg
  rcases List.exists_mem_of_ne_nil _ hne with ⟨g, hg⟩
  exact ⟨mixed_samples.1, hgroups, hconsistent, hbroken,
    not_classifies_of_mem hg (hconsistent g hg)⟩

theorem classifies_iff_mixedRuntime :
    mixedRuntime.Classifies ↔
      (Slot.fromVolumes mixedVolumes).1 = [] ∧ BootEntry.ukis mixedItems = [] :=
  classifies_iff mixed_samples.1

end GhafGivc.Image
