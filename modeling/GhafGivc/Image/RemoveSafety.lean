import GhafGivc.Image.Invariant

/-! # Removals and the running system

The running system is identified by the store hash of its kernel command line, or
by being the legacy slot when there is none. `remove` refuses the active slot, but
activity also compares the revision, and the boot entries of legacy slots carry no
owner.
-/

namespace GhafGivc.Image

open Core SlotGroup

/-- The group of the running system: by store hash when there is one, else the used
legacy group, of the revision of the kernel when that is given. -/
def Runtime.IsBooted (rt : Runtime) (g : SlotGroup) : Prop :=
  g ∈ rt.slotgroups ∧ ∃ x, g.version = some x ∧
    match rt.kernel.verityHashFragment with
    | some hash => x.hash = some hash
    | none => g.isLegacy = true ∧ ∀ revision ∈ rt.kernel.revision, x.revision = revision

/-- No step renames a volume of the booted group or unlinks its UKI, and none unlinks
a legacy entry when that group is a legacy one. -/
def Runtime.BootSafe (rt : Runtime) (plan : Plan) : Prop :=
  ∀ g, rt.IsBooted g →
    (∀ r ∈ g.root.toList ++ g.verity.toList, ∀ target,
      .lvrename r.volume.vgName r.volume.lvName target ∉ plan.steps) ∧
    (∀ b ∈ g.boot, .unlink b.id ∉ plan.steps) ∧
    (g.isLegacy = true → ∀ b ∈ rt.bootEntries, b.isLegacy = true → .unlink b.id ∉ plan.steps)

/-- A group of version `x` does not carry the store hash of the kernel and, without a
store hash, it is not a legacy group while the kernel runs from another one and legacy
entries exist. -/
def Runtime.SparesBooted (rt : Runtime) (x : Version) : Prop :=
  (∀ hash ∈ rt.kernel.verityHashFragment, x.hash ≠ some hash) ∧
    (rt.kernel.verityHashFragment = none → x.hash = none →
      (∃ b ∈ rt.bootEntries, b.isLegacy = true) →
        ∀ revision ∈ rt.kernel.revision, ∀ g ∈ rt.slotgroups, g.version ≠ some ⟨revision, none⟩)

section Groups

variable {w : World} {kernel : KernelParams} {g g' : SlotGroup} {b : BootEntry}

theorem boot_mem_ukis (hg : g ∈ (w.runtimeOf kernel).slotgroups) (hb : g.boot = some b) :
    b ∈ w.names.ukis := by
  rcases World.mem_slotgroups.mp hg with ⟨_, s, _, rfl⟩ | ⟨c, hc, _, rfl⟩
  · exact (group_boot hb).1
  · obtain rfl : c = b := Option.some.inj hb
    exact hc

theorem eq_of_boot (hg : g ∈ (w.runtimeOf kernel).slotgroups)
    (hg' : g' ∈ (w.runtimeOf kernel).slotgroups) (hb : g.boot = some b) (hb' : g'.boot = some b) :
    g = g' := by
  obtain ⟨u, _, hbv⟩ := Names.version_of_mem_ukis (boot_mem_ukis hg hb)
  have hrow : ∀ s, (w.group s).boot = some b →
      s = .used u.version ∧ isOrphan w.slots b = false := by
    intro s hs
    rcases bootFor_eq_some hs with ⟨_, hversion, hroot⟩
    have hstatus := Status.eq_used_of_version (hversion.symm.trans hbv)
    subst hstatus
    exact ⟨rfl, (World.isOrphan_eq_false_iff_key hbv).mpr (World.slot_isSome.mp hroot)⟩
  rcases World.mem_slotgroups.mp hg with ⟨_, s, _, rfl⟩ | ⟨c, _, ho, rfl⟩ <;>
    rcases World.mem_slotgroups.mp hg' with ⟨_, s', _, rfl⟩ | ⟨c', _, ho', rfl⟩
  · rw [(hrow s hb).1, (hrow s' hb').1]
  · obtain rfl : c' = b := Option.some.inj hb'
    rw [(hrow s hb).2] at ho'
    cases ho'
  · obtain rfl : c = b := Option.some.inj hb
    rw [(hrow s' hb').2] at ho
    cases ho
  · obtain rfl : c = b := Option.some.inj hb
    obtain rfl : c' = c := Option.some.inj hb'
    rfl

theorem isLegacy_iff_of_version {x : Version} (hg : g ∈ (w.runtimeOf kernel).slotgroups)
    (hx : g.version = some x) : g.isLegacy = true ↔ x.hash = none := by
  rcases World.mem_slotgroups.mp hg with ⟨k, s, hks, rfl⟩ | ⟨b, hb, _, rfl⟩
  · rw [World.group_isLegacy hks]
    obtain rfl := Status.eq_used_of_version ((World.group_version hks).symm.trans hx)
    cases hh : x.hash <;> simp [Status.isLegacy, Version.hasHash, hh]
  · obtain ⟨u, hu, hbv⟩ := Names.version_of_mem_ukis hb
    obtain rfl : u.version = x := Option.some.inj (hbv.symm.trans hx)
    obtain ⟨_, _, hsome⟩ := UkiEntry.fromStr_version hu
    simp only [isLegacy, orphan, Option.any_none, Bool.or_false, Bool.false_eq_true, false_iff]
    intro hnone
    simp [hnone] at hsome

theorem isActive_of_legacy {x : Version} (hx : g.version = some x) (hl : g.isLegacy = true)
    (hhash : x.hash = none) (hfrag : kernel.verityHashFragment = none)
    (hrev : ∀ revision ∈ kernel.revision, x.revision = revision) : g.isActive kernel = true := by
  obtain ⟨revision, hash⟩ := x
  obtain rfl : hash = none := hhash
  cases hr : kernel.revision with
  | none => simp [isActive, hx, KernelParams.toVersion, hr, hl]
  | some r =>
      obtain rfl : revision = r := hrev r hr
      simp [isActive, hx, KernelParams.toVersion, hr, hfrag]

end Groups

section Steps

variable {w : World} {kernel : KernelParams} {g : SlotGroup}

theorem lvrename_mem_removal {id vg lv target : String} :
    .lvrename vg lv target ∈ Plan.unlinkSteps (w.runtimeOf kernel) g ++
        Plan.renameSlotToEmpty g id →
      ∃ r ∈ g.root.toList ++ g.verity.toList, r.volume.id = (vg, lv) := by
  rw [unlinkSteps_eq, List.mem_append]
  rintro (h | h)
  · obtain ⟨_, _, e⟩ := List.mem_map.mp h
    cases e
  · obtain ⟨root, verity, boot⟩ := g
    rcases List.mem_append.mp h with h | h
    · cases root with
      | none => cases h
      | some r =>
          obtain ⟨rfl, rfl, _⟩ := Step.lvrename.inj (List.mem_singleton.mp h)
          exact ⟨r, by simp, rfl⟩
    · cases verity with
      | none => cases h
      | some t =>
          obtain ⟨rfl, rfl, _⟩ := Step.lvrename.inj (List.mem_singleton.mp h)
          exact ⟨t, by simp, rfl⟩

theorem unlink_mem_removal {id entry : String} :
    .unlink entry ∈ Plan.unlinkSteps (w.runtimeOf kernel) g ++ Plan.renameSlotToEmpty g id ↔
      (∃ b, g.boot = some b ∧ b.id = entry) ∨
        (g.isLegacy = true ∧
          ∃ b ∈ (w.runtimeOf kernel).bootEntries, b.isLegacy = true ∧ b.id = entry) := by
  have hrename : .unlink entry ∉ Plan.renameSlotToEmpty g id := by
    obtain ⟨root, verity, boot⟩ := g
    cases root <;> cases verity <;> simp [Plan.renameSlotToEmpty, Plan.renameToEmpty]
  rw [List.mem_append, or_iff_left hrename, unlinkSteps_eq, unlinkIds]
  cases hl : g.isLegacy <;> simp [and_assoc]

/-- Every group with a version loses something when it is removed. -/
theorem removal_touches (id : String) {x : Version} (hx : g.version = some x) :
    (∃ r ∈ g.root.toList ++ g.verity.toList, ∃ target,
        .lvrename r.volume.vgName r.volume.lvName target ∈ Plan.renameSlotToEmpty g id) ∨
      ∃ b, g.boot = some b := by
  obtain ⟨root, verity, boot⟩ := g
  cases root with
  | some r => exact Or.inl ⟨r, by simp, _, List.mem_append_left _ (List.mem_singleton_self _)⟩
  | none =>
      cases verity with
      | some t =>
          exact Or.inl ⟨t, by simp, _, List.mem_append_right _ (List.mem_singleton_self _)⟩
      | none =>
          cases boot with
          | some b => exact Or.inr ⟨b, rfl⟩
          | none => cases hx

end Steps

section Booted

variable {w : World} {kernel : KernelParams} {g g' : SlotGroup} {x : Version} {id : String}

theorem not_bootSafe_of_hash {hash : String} (hg : g ∈ (w.runtimeOf kernel).slotgroups)
    (hx : g.version = some x) (hhash : kernel.verityHashFragment = some hash)
    (hxh : x.hash = some hash) :
    ¬ (w.runtimeOf kernel).BootSafe
      ⟨Plan.unlinkSteps (w.runtimeOf kernel) g ++ Plan.renameSlotToEmpty g id⟩ := by
  intro hsafe
  have hbooted : (w.runtimeOf kernel).IsBooted g := by
    refine ⟨hg, x, hx, ?_⟩
    have hfrag : (w.runtimeOf kernel).kernel.verityHashFragment = some hash := hhash
    rw [hfrag]
    exact hxh
  obtain ⟨hrename, hunlink, _⟩ := hsafe g hbooted
  rcases removal_touches id hx with ⟨r, hr, target, hmem⟩ | ⟨b, hb⟩
  · exact hrename r hr target (List.mem_append_right _ hmem)
  · exact hunlink b hb (unlink_mem_removal.mpr (Or.inl ⟨b, hb, rfl⟩))

theorem isBooted_of_revision {revision : String} (hg : g ∈ (w.runtimeOf kernel).slotgroups)
    (hx : g.version = some ⟨revision, none⟩) (hnone : kernel.verityHashFragment = none)
    (hrev : kernel.revision = some revision) : (w.runtimeOf kernel).IsBooted g := by
  refine ⟨hg, _, hx, ?_⟩
  have hfrag : (w.runtimeOf kernel).kernel.verityHashFragment = none := hnone
  rw [hfrag]
  exact ⟨(isLegacy_iff_of_version hg hx).mpr rfl,
    fun rev hr => Option.some.inj (hrev.symm.trans hr)⟩

theorem ne_of_isBooted (hbooted : (w.runtimeOf kernel).IsBooted g') (hx : g.version = some x)
    (hinactive : g.isActive kernel = false)
    (hstore : ∀ hash ∈ kernel.verityHashFragment, x.hash ≠ some hash) : g' ≠ g := by
  rintro rfl
  obtain ⟨hg, x₀, hx₀, hbooted⟩ := hbooted
  obtain rfl : x = x₀ := Option.some.inj (hx.symm.trans hx₀)
  cases hfrag : (w.runtimeOf kernel).kernel.verityHashFragment with
  | some hash =>
      rw [hfrag] at hbooted
      exact hstore hash hfrag hbooted
  | none =>
      rw [hfrag] at hbooted
      have hhash := (isLegacy_iff_of_version hg hx).mp hbooted.1
      have hactive := isActive_of_legacy hx hbooted.1 hhash hfrag hbooted.2
      exact Bool.false_ne_true (hinactive.symm.trans hactive)

/-- A booted legacy group is identified by the revision alone. -/
theorem version_of_isBooted (hbooted : (w.runtimeOf kernel).IsBooted g)
    (hl : g.isLegacy = true) :
    kernel.verityHashFragment = none ∧
      ∀ revision ∈ kernel.revision, g.version = some ⟨revision, none⟩ := by
  obtain ⟨hg, ⟨revision, hash⟩, hx, hbooted⟩ := hbooted
  obtain rfl : hash = none := (isLegacy_iff_of_version hg hx).mp hl
  cases hfrag : (w.runtimeOf kernel).kernel.verityHashFragment with
  | some hash =>
      rw [hfrag] at hbooted
      cases hbooted
  | none =>
      rw [hfrag] at hbooted
      exact ⟨hfrag, fun rev hr => hbooted.2 rev hr ▸ hx⟩

/-- Without a store hash a legacy group is only inactive when the kernel has a revision. -/
theorem revision_of_inactive (hx : g.version = some x) (hl : g.isLegacy = true)
    (hhash : x.hash = none) (hfrag : kernel.verityHashFragment = none)
    (hinactive : g.isActive kernel = false) : ∃ revision, kernel.revision = some revision := by
  cases hrev : kernel.revision with
  | some revision => exact ⟨revision, rfl⟩
  | none =>
      have hactive := isActive_of_legacy hx hl hhash hfrag fun r hr =>
        absurd (hrev.symm.trans hr) (by simp)
      exact absurd (hinactive.symm.trans hactive) Bool.false_ne_true

theorem bootSafe_of_sparesBooted (hg : g ∈ (w.runtimeOf kernel).slotgroups)
    (hx : g.version = some x) (hinactive : g.isActive kernel = false)
    (h : (w.runtimeOf kernel).SparesBooted x) :
    (w.runtimeOf kernel).BootSafe
      ⟨Plan.unlinkSteps (w.runtimeOf kernel) g ++ Plan.renameSlotToEmpty g id⟩ := by
  obtain ⟨hstore, hentries⟩ := h
  intro g₀ hbooted
  have hg₀ := hbooted.1
  have hne := ne_of_isBooted hbooted hx hinactive hstore
  refine ⟨fun r hr target hmem => ?_, fun b hb hmem => ?_, fun hl b hbmem hbl hmem => ?_⟩
  · obtain ⟨r', hr', hid⟩ := lvrename_mem_removal hmem
    exact hne (SlotGroup.eq_of_volume_id hg₀ hg hr hr' hid.symm)
  · rcases unlink_mem_removal.mp hmem with ⟨c, hc, hid⟩ | ⟨_, c, hc, hcl, hid⟩
    · have hbc := Names.eq_of_ukis_id (boot_mem_ukis hg hc) (boot_mem_ukis hg₀ hb) hid
      exact hne (eq_of_boot hg₀ hg hb (hbc ▸ hc))
    · exact Names.legacy_id_ne (boot_mem_ukis hg₀ hb) (List.mem_filter.mp hc).1 hcl hid.symm
  · rcases unlink_mem_removal.mp hmem with ⟨c, hc, hid⟩ | ⟨hgl, _⟩
    · exact Names.legacy_id_ne (boot_mem_ukis hg hc) (List.mem_filter.mp hbmem).1 hbl hid
    · have hhash := (isLegacy_iff_of_version hg hx).mp hgl
      obtain ⟨hfrag, hversion⟩ := version_of_isBooted hbooted hl
      obtain ⟨revision, hrev⟩ := revision_of_inactive hx hgl hhash hfrag hinactive
      exact hentries hfrag hhash ⟨b, hbmem, hbl⟩ revision hrev g₀ hg₀ (hversion revision hrev)

end Booted

/-- The exact condition under which a removal leaves the running system bootable. -/
theorem remove_bootSafe_iff {w : World} {cmdline : String} {rt : Runtime} {v x : Version}
    {g : SlotGroup} {plan : Plan} (hrt : w.runtime cmdline = .ok rt)
    (hfind : rt.findSlotGroup v = .ok g) (hx : g.version = some x)
    (hplan : Plan.remove rt v = .ok plan) : rt.BootSafe plan ↔ rt.SparesBooted x := by
  obtain ⟨_, _, kernel, _, rfl⟩ := World.runtime_eq_ok_iff.mp hrt
  obtain ⟨g₁, id, hfind₁, hinactive, _, hsteps⟩ := remove_eq_ok.mp hplan
  obtain rfl : g = g₁ := Outcome.ok.inj (hfind.symm.trans hfind₁)
  obtain ⟨steps⟩ := plan
  obtain rfl : steps = _ := hsteps
  have hg := (findSlotGroup_spec hfind).1
  constructor
  · intro hsafe
    refine ⟨fun hash hhash hxh => not_bootSafe_of_hash hg hx hhash hxh hsafe,
      fun hnone hxn hb revision hrev g' hg' hx' => ?_⟩
    obtain ⟨b, hbmem, hbl⟩ := hb
    have hl := (isLegacy_iff_of_version hg hx).mpr hxn
    have hl' := (isLegacy_iff_of_version hg' hx').mpr rfl
    exact (hsafe g' (isBooted_of_revision hg' hx' hnone hrev)).2.2 hl' b hbmem hbl
      (unlink_mem_removal.mpr (Or.inr ⟨hl, b, hbmem, hbl, rfl⟩))
  · exact bootSafe_of_sparesBooted hg hx hinactive

/-- A device whose kernel command line has the store hash of its second slot. -/
def hashedWorld : World where
  lvs := ["root_0", "root_25.12.1_44cc41b403a2d323", "verity_0",
    "verity_25.12.1_44cc41b403a2d323"].map sampleLv
  esp := updatedEsp

def hashedCmdline : String :=
  "ghaf.storehash=44cc41b403a2d323a68f42941131169899545eaceebe332e24426e9ff7d7f3bc"

def hashedKernel : KernelParams :=
  ⟨some "44cc41b403a2d323a68f42941131169899545eaceebe332e24426e9ff7d7f3bc", none, by decide +kernel⟩

def hashedRemovePlan : Plan :=
  ⟨[.unlink "ghaf-25.12.1-44cc41b403a2d323.efi",
    .lvrename "pool" "root_25.12.1_44cc41b403a2d323" "root_empty_0",
    .lvrename "pool" "verity_25.12.1_44cc41b403a2d323" "verity_empty_0"]⟩

theorem hashedWorld_samples :
    hashedWorld.runtime hashedCmdline = .ok (hashedWorld.runtimeOf hashedKernel) ∧
      Plan.remove (hashedWorld.runtimeOf hashedKernel) sampleVersion = .ok hashedRemovePlan ∧
      (hashedWorld.runtimeOf hashedKernel).findSlotGroup sampleVersion =
        .ok (hashedWorld.group (.used sampleVersion)) ∧
      (hashedWorld.runtimeOf hashedKernel).kernel.verityHashFragment = some "44cc41b403a2d323" ∧
      hashedWorld.group (.used sampleVersion) ∈
        (hashedWorld.runtimeOf hashedKernel).slotgroups ∧
      (hashedWorld.group (.used sampleVersion)).version = some sampleVersion ∧
      (hashedWorld.group (.used sampleVersion)).boot =
        some ⟨"ghaf-25.12.1-44cc41b403a2d323.efi", .managed ⟨sampleVersion, none⟩⟩ := by
  decide +kernel

/-- Without `ghaf.revision` the running slot itself can be removed. -/
theorem remove_takes_booted_slot :
    hashedWorld.runtime hashedCmdline = .ok (hashedWorld.runtimeOf hashedKernel) ∧
      Plan.remove (hashedWorld.runtimeOf hashedKernel) sampleVersion = .ok hashedRemovePlan ∧
      ¬ (hashedWorld.runtimeOf hashedKernel).BootSafe hashedRemovePlan := by
  rcases hashedWorld_samples with ⟨hruntime, hplan, -, hfrag, hgroup, hversion, hboot⟩
  refine ⟨hruntime, hplan, fun hsafe => ?_⟩
  have hbooted : (hashedWorld.runtimeOf hashedKernel).IsBooted
      (hashedWorld.group (.used sampleVersion)) := by
    refine ⟨hgroup, sampleVersion, hversion, ?_⟩
    rw [hfrag]
    rfl
  exact (hsafe _ hbooted).2.1 _ hboot (by decide)

theorem remove_bootSafe_iff_hashedWorld :
    (hashedWorld.runtimeOf hashedKernel).BootSafe hashedRemovePlan ↔
      (hashedWorld.runtimeOf hashedKernel).SparesBooted sampleVersion := by
  rcases hashedWorld_samples with ⟨hruntime, hplan, hfind, -, -, hversion, -⟩
  exact remove_bootSafe_iff hruntime hfind hversion hplan

end GhafGivc.Image
