import GhafGivc.Image.Runtime

/-! # Reading the listings

Everything that a run knows of the system is read from the listings of `lvs` and
`bootctl`. The groups partition what was listed: every slot volume and every managed
UKI has its place in one of them.
-/

namespace GhafGivc.Image

open Core

namespace SlotGroup

def slots (g : SlotGroup) : List Slot := g.root.toList ++ g.verity.toList

/-- Two slots of one kind and status, or two UKIs of the version of one root volume. -/
def Clashing (slots : List Slot) (boots : List BootEntry) : Prop :=
  (∃ a b, [a, b].Sublist slots ∧ a.kind = b.kind ∧ a.status = b.status) ∨
    ∃ b c, [b, c].Sublist boots ∧
      ∃ r ∈ slots, r.kind = .root ∧ r.version = b.version ∧ r.version = c.version

/-- The groups hold every slot and every UKI once, each among its own. -/
structure Partitions (groups : List SlotGroup) (slots : List Slot) (boots : List BootEntry) :
    Prop where
  slots_once : (groups.flatMap SlotGroup.slots).Perm slots
  uniform : ∀ g ∈ groups, ∀ root ∈ g.root, ∀ verity ∈ g.verity, root.status = verity.status
  apart : groups.Pairwise fun g h => ∀ a ∈ g.slots, ∀ b ∈ h.slots, a.status ≠ b.status
  boots_once : (groups.filterMap SlotGroup.boot).Perm boots
  joined : ∀ g ∈ groups, ∀ b ∈ g.boot, g.slots ≠ [] → g.version = b.version
  empty_bare : ∀ g ∈ groups, ∀ a ∈ g.slots, a.isEmpty = true → g.boot = none

section Clashes

variable {slots : List Slot} {boots : List BootEntry} {b : BootEntry}

theorem attachSlot_returns (g : SlotGroup) (slot : Slot) : (g.attachSlot slot).Returns := by
  unfold attachSlot
  cases slot.kind with
  | root => exact (Outcome.returns_ensure _ _).bind fun _ _ => Outcome.returns_ok _
  | verity => exact (Outcome.returns_ensure _ _).bind fun _ _ => Outcome.returns_ok _

theorem attachBoot_returns (managed : b.isManaged = true) (g : SlotGroup) :
    (g.attachBoot b).Returns := by
  rcases BootEntry.version_isSome_of_isManaged managed with ⟨v, hv⟩
  unfold attachBoot
  rw [hv]
  split
  · exact Outcome.returns_err _
  · exact Outcome.returns_ok _

/-- The panic of a second entry without version is out of reach. -/
theorem groupVolumes_returns (managed : ∀ b ∈ boots, b.isManaged = true) :
    (groupVolumes slots boots).Returns := by
  refine Outcome.Returns.bind ?_ fun groups _ => ?_
  · apply Outcome.Returns.foldlM
    intro groups slot _
    exact upsert_returns (fun g => attachSlot_returns g slot) (attachSlot_returns _ slot) groups
  · apply Outcome.Returns.foldlM
    intro groups b hb
    exact upsert_returns (attachBoot_returns (managed b hb)) (Outcome.returns_ok _) groups

theorem isOrphan_eq_false :
    isOrphan slots b = false ↔ ∃ r ∈ slots, r.kind = .root ∧ r.version = b.version := by
  simp [isOrphan]

theorem nodup_claimed_iff_sublist :
    ((claimed slots boots).map BootEntry.version).Nodup ↔
      ∀ b c, [b, c].Sublist boots → isOrphan slots b = false → isOrphan slots c = false →
        b.version ≠ c.version := by
  rewrite [claimed, List.Nodup, List.pairwise_map, List.pairwise_filter,
    List.pairwise_iff_forall_sublist]
  simp only [Bool.not_eq_true']

theorem not_clashing_iff :
    ¬ Clashing slots boots ↔
      (slots.map Slot.key).Nodup ∧ ((claimed slots boots).map BootEntry.version).Nodup := by
  rw [Clashing, not_or, nodup_map_iff_sublist, nodup_claimed_iff_sublist]
  apply and_congr
  · constructor
    · intro h a b hab hkey
      exact h ⟨a, b, hab, congrArg Prod.fst hkey, congrArg Prod.snd hkey⟩
    · intro h hclash
      rcases hclash with ⟨a, b, hab, hkind, hstatus⟩
      exact h a b hab (Prod.ext hkind hstatus)
  · constructor
    · intro h b c hbc hb hc hversion
      rcases isOrphan_eq_false.mp hb with ⟨r, hr, hkind, hrb⟩
      exact h ⟨b, c, hbc, r, hr, hkind, hrb, hrb.trans hversion⟩
    · intro h hclash
      rcases hclash with ⟨b, c, hbc, r, hr, hkind, hrb, hrc⟩
      exact h b c hbc (isOrphan_eq_false.mpr ⟨r, hr, hkind, hrb⟩)
        (isOrphan_eq_false.mpr ⟨r, hr, hkind, hrc⟩) (hrb.symm.trans hrc)

theorem groupVolumes_of_not_clashing (managed : ∀ b ∈ boots, b.isManaged = true)
    (h : ¬ Clashing slots boots) : groupVolumes slots boots = .ok (view slots boots) := by
  have hnodup := not_clashing_iff.mp h
  exact (groupVolumes_eq_ok_iff managed).mpr ⟨hnodup.1, hnodup.2, rfl⟩

theorem groupVolumes_eq_err_iff (managed : ∀ b ∈ boots, b.isManaged = true) :
    (∃ e, groupVolumes slots boots = .err e) ↔ Clashing slots boots := by
  constructor
  · intro h
    by_contra hclash
    rcases h with ⟨e, he⟩
    rw [groupVolumes_of_not_clashing managed hclash] at he
    cases he
  · intro hclash
    cases h : groupVolumes slots boots with
    | ok groups =>
        rcases (groupVolumes_eq_ok_iff managed).mp h with ⟨hkeys, hclaimed, _⟩
        exact absurd hclash (not_clashing_iff.mpr ⟨hkeys, hclaimed⟩)
    | err e => exact ⟨e, rfl⟩
    | panicked => exact absurd h (groupVolumes_returns managed)

end Clashes

section Partition

variable {slots : List Slot} {boots : List BootEntry} {s : Status} {t : Slot} {b : BootEntry}
  {volumes : List Volume}

theorem mem_slots_row :
    t ∈ (row slots boots s).slots ↔
      slotFor slots .root s = some t ∨ slotFor slots .verity s = some t := by
  simp [SlotGroup.slots, row]

theorem slots_orphan (b : BootEntry) : (orphan b).slots = [] := rfl

theorem status_of_mem_row (h : t ∈ (row slots boots s).slots) : t ∈ slots ∧ t.status = s := by
  rcases mem_slots_row.mp h with h | h
  · exact ⟨(slotFor_spec h).1, (slotFor_spec h).2.2⟩
  · exact ⟨(slotFor_spec h).1, (slotFor_spec h).2.2⟩

theorem mem_row_of_mem (nodup : (slots.map Slot.key).Nodup) (h : t ∈ slots) :
    t ∈ (row slots boots t.status).slots := by
  have hrow := slotFor_of_mem nodup h
  cases hk : t.kind with
  | root => exact mem_slots_row.mpr (Or.inl (hk ▸ hrow))
  | verity => exact mem_slots_row.mpr (Or.inr (hk ▸ hrow))

theorem eq_row_of_mem_slots {g : SlotGroup} (hg : g ∈ view slots boots) (ht : t ∈ g.slots) :
    t ∈ slots ∧ g = row slots boots t.status := by
  rcases mem_view.mp hg with ⟨s, _, rfl⟩ | ⟨c, _, _, rfl⟩
  · rcases status_of_mem_row ht with ⟨hmem, rfl⟩
    exact ⟨hmem, rfl⟩
  · cases ht

theorem key_eq_of_volume_id {r t : Slot} (hr : r ∈ (Slot.fromVolumes volumes).1)
    (ht : t ∈ (Slot.fromVolumes volumes).1) (h : r.volume.id = t.volume.id) : r.key = t.key := by
  rcases Slot.lvName_of_mem_fromVolumes hr with ⟨hrname, hrplain⟩
  rcases Slot.lvName_of_mem_fromVolumes ht with ⟨htname, htplain⟩
  have hname : r.volume.lvName = t.volume.lvName := congrArg Prod.snd h
  rw [hrname, htname] at hname
  rcases Slot.displayName_inj hrplain htplain hname with ⟨hkind, hstatus⟩
  exact Prod.ext hkind hstatus

theorem eq_of_volume_id {g g' : SlotGroup} {r t : Slot}
    (hg : g ∈ view (Slot.fromVolumes volumes).1 boots)
    (hg' : g' ∈ view (Slot.fromVolumes volumes).1 boots) (hr : r ∈ g.slots) (ht : t ∈ g'.slots)
    (h : r.volume.id = t.volume.id) : g = g' := by
  rcases eq_row_of_mem_slots hg hr with ⟨hrmem, hrow⟩
  rcases eq_row_of_mem_slots hg' ht with ⟨htmem, hrow'⟩
  have hstatus : r.status = t.status := congrArg Prod.snd (key_eq_of_volume_id hrmem htmem h)
  rw [hrow, hrow', hstatus]

theorem nodup_slots_row : (row slots boots s).slots.Nodup := by
  rw [SlotGroup.slots, List.nodup_append]
  refine ⟨by cases h : (row slots boots s).root <;> simp,
    by cases h : (row slots boots s).verity <;> simp, ?_⟩
  intro a ha b hb e
  have hroot := (slotFor_spec (Option.mem_toList.mp ha)).2.1
  have hverity := (slotFor_spec (Option.mem_toList.mp hb)).2.1
  rw [e, hverity] at hroot
  cases hroot

theorem flatMap_slots_view (nodup : (slots.map Slot.key).Nodup) :
    ((view slots boots).flatMap SlotGroup.slots).Perm slots := by
  have hrows : (view slots boots).flatMap SlotGroup.slots =
      (statuses slots).flatMap fun s => (row slots boots s).slots := by
    simp [view, List.flatMap_append, List.flatMap_map, slots_orphan]
  rw [hrows]
  apply (List.perm_ext_iff_of_nodup ?_ nodup.of_map).mpr
  · intro t
    rw [List.mem_flatMap]
    constructor
    · intro h
      rcases h with ⟨s, _, ht⟩
      exact (status_of_mem_row ht).1
    · intro ht
      exact ⟨t.status, mem_statuses.mpr ⟨t, ht, rfl⟩, mem_row_of_mem nodup ht⟩
  · rw [List.nodup_flatMap]
    refine ⟨fun _ _ => nodup_slots_row, (nodup_statuses slots).imp ?_⟩
    intro s u hne a ha hb
    exact hne ((status_of_mem_row ha).2.symm.trans (status_of_mem_row hb).2)

theorem bootFor_eq_some (h : bootFor slots boots s = some b) :
    b ∈ boots ∧ b.version = s.version ∧ (slotFor slots .root s).isSome = true := by
  unfold bootFor at h
  split at h
  · rename_i hroot
    exact ⟨List.mem_of_find?_eq_some h, by simpa using List.find?_some h, hroot⟩
  · cases h

theorem bootFor_eq_some_iff (managed : ∀ b ∈ boots, b.isManaged = true)
    (nodup : ((claimed slots boots).map BootEntry.version).Nodup) :
    bootFor slots boots s = some b ↔ b ∈ claimed slots boots ∧ b.version = s.version := by
  constructor
  · intro h
    rcases bootFor_eq_some h with ⟨hmem, hversion, hroot⟩
    rcases Option.isSome_iff_exists.mp hroot with ⟨r, hr⟩
    rcases slotFor_spec hr with ⟨hrmem, hkind, rfl⟩
    rw [claimed, List.mem_filter, isOrphan_eq_false.mpr ⟨r, hrmem, hkind, hversion.symm⟩]
    exact ⟨⟨hmem, rfl⟩, hversion⟩
  · intro h
    rcases h with ⟨hb, hversion⟩
    rcases List.mem_filter.mp hb with ⟨hmem, hclaimed⟩
    rw [Bool.not_eq_true'] at hclaimed
    rcases BootEntry.version_isSome_of_isManaged (managed b hmem) with ⟨v, hv⟩
    rw [Status.eq_used_of_version (hversion.symm.trans hv), bootFor_used hv hclaimed]
    cases hfind : boots.find? fun c => c.version = some v with
    | none => exact absurd (List.find?_eq_none.mp hfind b hmem) (by simp [hv])
    | some c =>
        have hcv : c.version = some v := by simpa using List.find?_some hfind
        have hc : c ∈ claimed slots boots := by
          rw [claimed, List.mem_filter, (isOrphan_eq_false_iff hcv).mpr
            ((isOrphan_eq_false_iff hv).mp hclaimed)]
          exact ⟨List.mem_of_find?_eq_some hfind, rfl⟩
        rw [List.inj_on_of_nodup_map nodup hc hb (hcv.trans hv.symm)]

theorem mem_claimed_iff (managed : ∀ b ∈ boots, b.isManaged = true)
    (nodup : ((claimed slots boots).map BootEntry.version).Nodup) :
    b ∈ claimed slots boots ↔ ∃ s ∈ statuses slots, bootFor slots boots s = some b := by
  constructor
  · intro hb
    rcases List.mem_filter.mp hb with ⟨hmem, hclaimed⟩
    rw [Bool.not_eq_true'] at hclaimed
    rcases BootEntry.version_isSome_of_isManaged (managed b hmem) with ⟨v, hv⟩
    have hkey := (isOrphan_eq_false_iff hv).mp hclaimed
    exact ⟨.used v, mem_statuses_iff_key.mpr ⟨_, hkey⟩,
      (bootFor_eq_some_iff managed nodup).mpr ⟨hb, hv⟩⟩
  · intro h
    rcases h with ⟨s, _, hboot⟩
    exact ((bootFor_eq_some_iff managed nodup).mp hboot).1

theorem filterMap_boot_view (managed : ∀ b ∈ boots, b.isManaged = true)
    (nodup : ((claimed slots boots).map BootEntry.version).Nodup) :
    ((view slots boots).filterMap SlotGroup.boot).Perm boots := by
  have hsplit : (view slots boots).filterMap SlotGroup.boot =
      (statuses slots).filterMap (bootFor slots boots) ++ boots.filter (isOrphan slots) := by
    rw [view, List.filterMap_append, List.filterMap_map, List.filterMap_map]
    exact congrArg _ (List.filterMap_some)
  have hclaimed : ((statuses slots).filterMap (bootFor slots boots)).Perm
      (claimed slots boots) := by
    apply (List.perm_ext_iff_of_nodup ?_ nodup.of_map).mpr
    · intro b
      rw [List.mem_filterMap, mem_claimed_iff managed nodup]
    · apply (nodup_statuses slots).filterMap
      intro s u b hs hu
      have hversion := (bootFor_eq_some hs).2.1
      rcases BootEntry.version_isSome_of_isManaged (managed b (bootFor_eq_some hs).1) with ⟨v, hv⟩
      rw [Status.eq_used_of_version (hversion.symm.trans hv),
        Status.eq_used_of_version ((bootFor_eq_some hu).2.1.symm.trans hv)]
  rw [hsplit]
  refine (hclaimed.append_right _).trans (List.perm_append_comm.trans ?_)
  exact List.filter_append_perm (isOrphan slots) boots

theorem partitions_view (managed : ∀ b ∈ boots, b.isManaged = true)
    (h : ¬ Clashing slots boots) : Partitions (view slots boots) slots boots where
  slots_once := flatMap_slots_view (not_clashing_iff.mp h).1
  uniform g hg root hroot verity hverity := by
    rcases mem_view.mp hg with ⟨s, _, rfl⟩ | ⟨b, _, _, rfl⟩
    · rw [(slotFor_spec hroot).2.2, (slotFor_spec hverity).2.2]
    · cases hroot
  apart := by
    rw [view, List.pairwise_append]
    refine ⟨List.pairwise_map.mpr ((nodup_statuses slots).imp ?_), ?_, ?_⟩
    · intro s u hne a ha b hb e
      rw [(status_of_mem_row ha).2, (status_of_mem_row hb).2] at e
      exact hne e
    · apply List.pairwise_map.mpr
      apply List.pairwise_of_forall
      intro b c a ha
      cases ha
    · intro g _ g' hg' a _ b hb
      rcases List.mem_map.mp hg' with ⟨c, _, rfl⟩
      cases hb
  boots_once := filterMap_boot_view managed (not_clashing_iff.mp h).2
  joined g hg b hb hslots := by
    rcases mem_view.mp hg with ⟨s, hs, rfl⟩ | ⟨c, _, _, rfl⟩
    · rw [version_row hs]
      exact (bootFor_eq_some hb).2.1.symm
    · exact absurd rfl hslots
  empty_bare g hg a ha hempty := by
    rcases mem_view.mp hg with ⟨s, _, rfl⟩ | ⟨c, _, _, rfl⟩
    · rw [Slot.isEmpty, (status_of_mem_row ha).2] at hempty
      exact bootFor_eq_none_of_isEmpty managed hempty
    · cases ha

end Partition

/-- Grouping what was listed fails exactly on a clash, and otherwise partitions it. The
entries that are no UKI of this system are sorted out before. -/
theorem groupVolumes_partitions (volumes : List Volume) (boots : List BootEntry) :
    let slots := (Slot.fromVolumes volumes).1
    let unparsed := (Slot.fromVolumes volumes).2
    let managed := boots.filter BootEntry.isManaged
    ((∃ e, groupVolumes slots managed = .err e) ↔ Clashing slots managed) ∧
      (¬ Clashing slots managed →
        ∃ groups, groupVolumes slots managed = .ok groups ∧ Partitions groups slots managed) ∧
      (slots.map Slot.volume ++ unparsed).Perm volumes ∧
      (∀ s ∈ slots, Slot.decodeStatus s.volume.lvName = .ok (s.kind, s.status)) ∧
      ∀ v ∈ unparsed, ∀ p, Slot.decodeStatus v.lvName ≠ .ok p := by
  intro slots unparsed managed
  have hmanaged : ∀ b ∈ managed, b.isManaged = true := fun b hb => (List.mem_filter.mp hb).2
  refine ⟨groupVolumes_eq_err_iff hmanaged, ?_, Slot.perm_fromVolumes volumes, ?_, ?_⟩
  · intro hclash
    exact ⟨_, groupVolumes_of_not_clashing hmanaged hclash, partitions_view hmanaged hclash⟩
  · intro s hs
    exact (Slot.mem_fromVolumes.mp hs).2
  · intro v hv p hp
    exact Slot.decodeStatus_ne_ok_of_unparsed hv p hp

end SlotGroup

/-! ## The runtime of a listing -/

open SlotGroup

/-- The UKIs of this system in the listing of `bootctl`. -/
def BootEntry.ukis (items : List BootctlItem) : List BootEntry :=
  (fromBootctl items).filter isManaged

theorem BootEntry.isManaged_of_mem_ukis (items : List BootctlItem) :
    ∀ b ∈ ukis items, b.isManaged = true :=
  fun _ hb => (List.mem_filter.mp hb).2

namespace Runtime

def listed (volumes : List Volume) (items : List BootctlItem) (kernel : KernelParams) : Runtime :=
  ⟨view (Slot.fromVolumes volumes).1 (BootEntry.ukis items), (Slot.fromVolumes volumes).2, kernel,
    (BootEntry.fromBootctl items).filter (!·.isManaged), "/boot"⟩

theorem new_eq_ok_iff {volumes : List Volume} {cmdline : String} {items : List BootctlItem}
    {rt : Runtime} :
    Runtime.new volumes cmdline items = .ok rt ↔
      ¬ Clashing (Slot.fromVolumes volumes).1 (BootEntry.ukis items) ∧
        ∃ kernel, KernelParams.fromCmdline cmdline = .ok kernel ∧
          rt = listed volumes items kernel := by
  have hpart : (BootEntry.fromBootctl items).partition BootEntry.isManaged =
      (BootEntry.ukis items, (BootEntry.fromBootctl items).filter (!·.isManaged)) := by
    rw [List.partition_eq_filter_filter]
    rfl
  have hmanaged := BootEntry.isManaged_of_mem_ukis items
  simp only [Runtime.new, hpart]
  rw [Outcome.bind_eq_ok]
  constructor
  · intro h
    rcases h with ⟨groups, hg, h⟩
    rcases (groupVolumes_eq_ok_iff hmanaged).mp hg with ⟨hkeys, hclaimed, rfl⟩
    rcases Outcome.bind_eq_ok.mp h with ⟨kernel, hkernel, h⟩
    exact ⟨not_clashing_iff.mpr ⟨hkeys, hclaimed⟩, kernel, hkernel, (Outcome.ok.inj h).symm⟩
  · intro h
    rcases h with ⟨hclash, kernel, hkernel, rfl⟩
    refine ⟨_, groupVolumes_of_not_clashing hmanaged hclash, ?_⟩
    rw [hkernel]
    rfl

end Runtime

/-! ## Identifiers of empty slots -/

theorem exists_emptyId_view {slots : List Slot} {boots : List BootEntry} {id : String} :
    (∃ g ∈ view slots boots, g.emptyId = some id) ↔
      ∃ t ∈ slots, t.status = .empty (.known id) := by
  constructor
  · intro h
    rcases h with ⟨g, hg, hid⟩
    rcases mem_view.mp hg with ⟨s, hs, rfl⟩ | ⟨b, _, _, rfl⟩
    · rw [emptyId_row hs] at hid
      rcases mem_statuses.mp hs with ⟨t, ht, rfl⟩
      exact ⟨t, ht, Status.eq_empty_of_emptyId hid⟩
    · cases hid
  · intro h
    rcases h with ⟨t, ht, hstatus⟩
    have hs := mem_statuses.mpr ⟨t, ht, hstatus⟩
    exact ⟨_, mem_view.mpr (Or.inl ⟨_, hs, rfl⟩), emptyId_row hs⟩

variable {rt : Runtime}

theorem Runtime.allocateEmptyIdentifier_spec {id : String}
    (h : rt.allocateEmptyIdentifier = .ok id) :
    (Status.empty (.known id)).Plain ∧ ∀ g ∈ rt.slotgroups, g.emptyId ≠ some id := by
  have hfind := Outcome.context_eq_ok.mp h
  constructor
  · rcases List.mem_map.mp (List.mem_of_find?_eq_some hfind) with ⟨i, _, rfl⟩
    exact Text.notMem_toString (by decide) i
  · intro g hg hid
    have hunused := List.find?_some hfind
    rw [Bool.not_eq_true', List.contains_eq_mem, decide_eq_false_iff_not] at hunused
    exact hunused (List.mem_filterMap.mpr ⟨g, hg, hid⟩)

theorem Runtime.allocateEmptyIdentifier_eq_err_iff :
    (∃ e, rt.allocateEmptyIdentifier = .err e) ↔
      ∀ i < 100, ∃ g ∈ rt.slotgroups, g.emptyId = some (toString i) := by
  unfold allocateEmptyIdentifier
  rw [Outcome.context_eq_err_iff, List.find?_eq_none, List.forall_mem_map]
  simp [List.contains_eq_mem]

/-! ## Versions and groups -/

/-- Each version is reported by one group, which then has the UKI of the version. -/
structure Runtime.OneGroupPerVersion (rt : Runtime) (slots : List Slot) (boots : List BootEntry) :
    Prop where
  distinct : (rt.slotgroups.filterMap SlotGroup.version).Nodup
  unambiguous : ∀ v reason e, rt.findExactOneGroup (·.version = some v) reason ≠ .err e
  joins : ∀ b ∈ boots, ∀ t ∈ slots, t.version = b.version →
    ∃ g ∈ rt.slotgroups, g.boot = some b ∧ t ∈ g.slots

/-- A version without root volume is carried by at most one volume or UKI. -/
def LoneVersions (slots : List Slot) (boots : List BootEntry) : Prop :=
  ∀ v, (∀ t ∈ slots, t.kind = .root → t.version ≠ some v) →
    slots.countP (·.version = some v) + boots.countP (·.version = some v) ≤ 1

section Versions

variable {slots : List Slot} {boots : List BootEntry} {v : Version}

/-- The groups of one version: the row of its volumes and its UKIs without root volume. -/
theorem countP_version_view :
    (view slots boots).countP (·.version = some v) =
      (if Status.used v ∈ statuses slots then 1 else 0) +
        (boots.filter (isOrphan slots)).countP (·.version = some v) := by
  rw [view, List.countP_append, List.countP_map, List.countP_map]
  congr 1
  rw [← (nodup_statuses slots).count, List.count_eq_countP]
  apply List.countP_congr
  intro s hs
  simp only [Function.comp_apply, version_row hs, decide_eq_true_eq, beq_iff_eq]
  constructor
  · exact Status.eq_used_of_version
  · intro h
    rw [h]
    rfl

theorem countP_version_slots (nodup : (slots.map Slot.key).Nodup)
    (hroot : ∀ t ∈ slots, t.kind = .root → t.version ≠ some v) :
    slots.countP (·.version = some v) = if Status.used v ∈ statuses slots then 1 else 0 := by
  have hkey : ∀ t ∈ slots, t.version = some v ↔ t.key = (.verity, .used v) := by
    intro t ht
    constructor
    · intro hv
      cases hk : t.kind with
      | root => exact absurd hv (hroot t ht hk)
      | verity => rw [Slot.key, hk, Status.eq_used_of_version hv]
    · intro h
      have hstatus : t.status = .used v := congrArg Prod.snd h
      rw [Slot.version, hstatus]
      rfl
  have hmem : (Kind.verity, Status.used v) ∈ slots.map Slot.key ↔
      Status.used v ∈ statuses slots := by
    rw [mem_statuses, List.mem_map]
    constructor
    · intro h
      rcases h with ⟨t, ht, hk⟩
      exact ⟨t, ht, congrArg Prod.snd hk⟩
    · intro h
      rcases h with ⟨t, ht, hs⟩
      refine ⟨t, ht, (hkey t ht).mp ?_⟩
      rw [Slot.version, hs]
      rfl
  have hcount : slots.countP (·.version = some v) =
      (slots.map Slot.key).count (.verity, .used v) := by
    rw [List.count_eq_countP, List.countP_map]
    apply List.countP_congr
    intro t ht
    simpa using hkey t ht
  rw [hcount, nodup.count]
  simp only [hmem]

/-- A root volume gathers everything of its version in one group. -/
theorem countP_version_of_root (hroot : ∃ t ∈ slots, t.kind = .root ∧ t.version = some v) :
    (view slots boots).countP (·.version = some v) = 1 := by
  rcases hroot with ⟨t, ht, hk, hv⟩
  have hstatus : Status.used v ∈ statuses slots :=
    mem_statuses.mpr ⟨t, ht, Status.eq_used_of_version hv⟩
  have hnone : (boots.filter (isOrphan slots)).countP (·.version = some v) = 0 := by
    rw [List.countP_eq_zero]
    intro b hb hbv
    have hbv : b.version = some v := by simpa using hbv
    have horphan := (List.mem_filter.mp hb).2
    rw [isOrphan_eq_false.mpr ⟨t, ht, hk, hv.trans hbv.symm⟩] at horphan
    cases horphan
  rw [countP_version_view, hnone, if_pos hstatus]

theorem countP_version_of_no_root (nodup : (slots.map Slot.key).Nodup)
    (hroot : ∀ t ∈ slots, t.kind = .root → t.version ≠ some v) :
    (view slots boots).countP (·.version = some v) =
      slots.countP (·.version = some v) + boots.countP (·.version = some v) := by
  rw [countP_version_view, ← countP_version_slots nodup hroot, List.countP_filter]
  congr 1
  apply List.countP_congr
  intro b _
  simp only [Bool.and_eq_true, decide_eq_true_eq, and_iff_left_iff_imp]
  intro hv
  by_contra horphan
  rcases isOrphan_eq_false.mp (by simpa using horphan) with ⟨t, ht, hk, htv⟩
  exact hroot t ht hk (htv.trans hv)

theorem nodup_version_view_iff (nodup : (slots.map Slot.key).Nodup) :
    ((view slots boots).filterMap SlotGroup.version).Nodup ↔ LoneVersions slots boots := by
  rw [nodup_filterMap_iff_countP]
  apply forall_congr'
  intro v
  by_cases hroot : ∃ t ∈ slots, t.kind = .root ∧ t.version = some v
  · rw [countP_version_of_root hroot]
    refine ⟨fun _ hno => ?_, fun _ => Nat.le_refl 1⟩
    rcases hroot with ⟨t, ht, hk, hv⟩
    exact absurd hv (hno t ht hk)
  · have hno : ∀ t ∈ slots, t.kind = .root → t.version ≠ some v :=
      fun t ht hk hv => hroot ⟨t, ht, hk, hv⟩
    rw [countP_version_of_no_root nodup hno]
    exact ⟨fun h _ => h, fun h => h hno⟩

theorem LoneVersions.joins (h : LoneVersions slots boots) (hclash : ¬ Clashing slots boots)
    (managed : ∀ b ∈ boots, b.isManaged = true) {b : BootEntry} {t : Slot} (hb : b ∈ boots)
    (ht : t ∈ slots) (hversion : t.version = b.version) :
    ∃ g ∈ view slots boots, g.boot = some b ∧ t ∈ g.slots := by
  have hnodup := not_clashing_iff.mp hclash
  rcases BootEntry.version_isSome_of_isManaged (managed b hb) with ⟨v, hv⟩
  have hclaimed : b ∈ claimed slots boots := by
    rw [claimed, List.mem_filter, Bool.not_eq_true', isOrphan_eq_false]
    refine ⟨hb, ?_⟩
    by_contra hno
    have hroot : ∀ r ∈ slots, r.kind = .root → r.version ≠ some v :=
      fun r hr hk hrv => hno ⟨r, hr, hk, hrv.trans hv.symm⟩
    have hslots : 0 < slots.countP (·.version = some v) :=
      List.countP_pos_iff.mpr ⟨t, ht, by simpa using hversion.trans hv⟩
    have hboots : 0 < boots.countP (·.version = some v) :=
      List.countP_pos_iff.mpr ⟨b, hb, by simpa using hv⟩
    have hle := h v hroot
    omega
  rcases (mem_claimed_iff managed hnodup.2).mp hclaimed with ⟨s, hs, hboot⟩
  have hsv : s.version = some v := (bootFor_eq_some hboot).2.1.symm.trans hv
  have hstatus : t.status = s := by
    rw [Status.eq_used_of_version hsv, Status.eq_used_of_version (hversion.trans hv)]
  exact ⟨_, mem_view.mpr (Or.inl ⟨s, hs, rfl⟩), hboot, hstatus ▸ mem_row_of_mem hnodup.1 ht⟩

end Versions

theorem Runtime.findExactOneGroup_of_countP {p : SlotGroup → Bool} (h : rt.slotgroups.countP p ≤ 1)
    (reason e : String) : rt.findExactOneGroup p reason ≠ .err e := by
  rw [List.countP_eq_length_filter] at h
  unfold findExactOneGroup
  split
  · intro he
    cases he
  · intro he
    cases he
  · rename_i hfilter
    rw [hfilter] at h
    simp at h

/-- The exact condition under which a version identifies its group. -/
theorem oneGroupPerVersion_iff {volumes : List Volume} {cmdline : String}
    {items : List BootctlItem} {rt : Runtime} (h : Runtime.new volumes cmdline items = .ok rt) :
    rt.OneGroupPerVersion (Slot.fromVolumes volumes).1 (BootEntry.ukis items) ↔
      LoneVersions (Slot.fromVolumes volumes).1 (BootEntry.ukis items) := by
  rcases Runtime.new_eq_ok_iff.mp h with ⟨hclash, kernel, _, rfl⟩
  have hdistinct : ((Runtime.listed volumes items kernel).slotgroups.filterMap
      SlotGroup.version).Nodup ↔ _ := nodup_version_view_iff (not_clashing_iff.mp hclash).1
  constructor
  · intro hone
    exact hdistinct.mp hone.distinct
  · intro hlone
    refine ⟨hdistinct.mpr hlone, ?_, ?_⟩
    · intro v reason e
      apply Runtime.findExactOneGroup_of_countP
      exact nodup_filterMap_iff_countP.mp (hdistinct.mpr hlone) v
    · intro b hb t ht hversion
      exact hlone.joins hclash (BootEntry.isManaged_of_mem_ukis items) hb ht hversion

def orphanVersion : Version := ⟨"25.12.1", some "44cc41b403a2d323"⟩

/-- What is left when the root volume of a slot is lost. -/
def orphanVolumes : List Volume := [⟨"verity_25.12.1_44cc41b403a2d323", "pool", some 5⟩]

def orphanItems : List BootctlItem := [⟨"type2", "ghaf-25.12.1-44cc41b403a2d323.efi"⟩]

def legacyKernel : KernelParams := ⟨none, none, by simp⟩

def orphanRuntime : Runtime := Runtime.listed orphanVolumes orphanItems legacyKernel

theorem orphan_samples :
    Runtime.new orphanVolumes "quiet" orphanItems = .ok orphanRuntime ∧
      orphanRuntime.slotgroups.filterMap SlotGroup.version = [orphanVersion, orphanVersion] ∧
      orphanRuntime.findSlotGroup orphanVersion =
        .err "ambiguous slot selection for version=25.12.1" := by
  decide +kernel

/-- The UKI opens a second group of the version, and the version is ambiguous. -/
theorem orphanUki_splits_version :
    Runtime.new orphanVolumes "quiet" orphanItems = .ok orphanRuntime ∧
      orphanRuntime.slotgroups.filterMap SlotGroup.version = [orphanVersion, orphanVersion] ∧
      orphanRuntime.findSlotGroup orphanVersion =
        .err "ambiguous slot selection for version=25.12.1" ∧
      ¬ orphanRuntime.OneGroupPerVersion (Slot.fromVolumes orphanVolumes).1
        (BootEntry.ukis orphanItems) := by
  rcases orphan_samples with ⟨hnew, hversions, hfind⟩
  refine ⟨hnew, hversions, hfind, ?_⟩
  intro hone
  have hnodup := hone.distinct
  rw [hversions] at hnodup
  simp at hnodup

theorem oneGroupPerVersion_iff_orphanRuntime :
    orphanRuntime.OneGroupPerVersion (Slot.fromVolumes orphanVolumes).1
        (BootEntry.ukis orphanItems) ↔
      LoneVersions (Slot.fromVolumes orphanVolumes).1 (BootEntry.ukis orphanItems) :=
  oneGroupPerVersion_iff orphan_samples.1

end GhafGivc.Image
