import GhafGivc.Image.InstallEffect
import GhafGivc.Image.RemoveCrash
import GhafGivc.Image.RemoveSafety

/-! # What a completed removal leaves behind

The names change in one place: the version of the removed group becomes an empty
identifier, and its UKI disappears. The group may lack either volume, and then there
is one rename less; a group that is only a UKI has none.
-/

namespace GhafGivc.Image

open Core SlotGroup

def SlotGroup.emptied (g : SlotGroup) (id : String) : SlotGroup :=
  ⟨g.root.map (·.emptied id), g.verity.map (·.emptied id), none⟩

/-- `w'` is `w` with the volumes of the version `x` emptied, under an identifier that `w`
does not have, and without the UKIs of `x`. -/
structure World.Retired (w w' : World) (x : Version) (id : String) : Prop
    extends World.Emptied w w' (.used x) id where
  readable : w.names.Readable
  fresh : ∀ k, (k, .empty (.known id)) ∉ w.names.keys
  ukis : ∀ c, c ∈ w'.names.ukis ↔ c ∈ w.names.ukis ∧ c.version ≠ some x
  gone : ∀ c ∈ w.names.ukis, c.version = some x → ∀ item ∈ w'.esp.items, item.id ≠ c.id

namespace World.Retired

variable {w w' : World} {x y : Version} {id : String} {u : Status} {c : BootEntry} {k : Kind}
  {kernel : KernelParams} {g : SlotGroup}

theorem key_iff (h : w.Retired w' x id) (hx : u ≠ .used x) (hid : u ≠ .empty (.known id)) :
    (k, u) ∈ w'.names.keys ↔ (k, u) ∈ w.names.keys := by
  rw [h.keys]
  constructor
  · intro hu
    rcases hu with hu | hu
    · exact absurd hu.1 hid
    · exact hu.1
  · intro hu
    exact Or.inr ⟨hu, hx⟩

theorem root_iff (h : w.Retired w' x id) (hy : y ≠ x) :
    (Kind.root, Status.used y) ∈ w'.names.keys ↔ (Kind.root, Status.used y) ∈ w.names.keys := by
  apply h.key_iff
  · intro e
    exact hy (Status.used.inj e)
  · intro e
    cases e

theorem empty_key_iff (h : w.Retired w' x id) :
    (k, .empty (.known id)) ∈ w'.names.keys ↔ (k, .used x) ∈ w.names.keys := by
  rw [h.keys]
  constructor
  · intro hk
    rcases hk with hk | hk
    · exact hk.2
    · exact absurd hk.1 (h.fresh k)
  · intro hk
    exact Or.inl ⟨rfl, hk⟩

theorem readable' (h : w.Retired w' x id) : w'.names.Readable where
  nodup := h.nodup
  single := by
    intro c hc d hd y hcy hdy hkey
    have hcw := (h.ukis c).mp hc
    have hdw := (h.ukis d).mp hd
    have hy : y ≠ x := fun e => hcw.2 (e ▸ hcy)
    exact h.readable.single c hcw.1 d hdw.1 y hcy hdy ((h.root_iff hy).mp hkey)

theorem group_eq (h : w.Retired w' x id) (hx : u ≠ .used x) (hid : u ≠ .empty (.known id)) :
    w'.group u = w.group u := by
  refine group_congr h.readable h.readable' (fun k => h.slots k u hx hid) fun c hc => ?_
  rw [h.ukis]
  constructor
  · intro hmem
    exact hmem.1
  · intro hmem
    exact ⟨hmem, fun e => hx (Status.eq_used_of_version (hc.symm.trans e))⟩

theorem group_empty (h : w.Retired w' x id) :
    w'.group (.empty (.known id)) = (w.group (.used x)).emptied id := by
  have hboot : (w'.group (.empty (.known id))).boot = none := group_boot_of_isEmpty rfl
  change (⟨w'.slot .root (.empty (.known id)), w'.slot .verity (.empty (.known id)),
    (w'.group (.empty (.known id))).boot⟩ : SlotGroup) = _
  rw [h.moved, h.moved, hboot]
  rfl

theorem isOrphan_eq (h : w.Retired w' x id) (hc : c ∈ w'.names.ukis) :
    isOrphan w'.slots c = isOrphan w.slots c := by
  rcases (h.ukis c).mp hc with ⟨hcw, hcx⟩
  rcases Names.version_of_mem_ukis hcw with ⟨y, _, hcy⟩
  have hy : y.version ≠ x := fun e => hcx (hcy.trans (congrArg some e))
  exact isOrphan_congr hcy (h.root_iff hy)

/-- The groups of `w'`: the emptied one, if the version had a volume, and those of `w`
that do not report the version. -/
theorem mem_slotgroups_iff (h : w.Retired w' x id) :
    g ∈ (w'.runtimeOf kernel).slotgroups ↔
      ((∃ k, (k, .used x) ∈ w.names.keys) ∧ g = (w.group (.used x)).emptied id) ∨
        (g ∈ (w.runtimeOf kernel).slotgroups ∧ g.version ≠ some x) := by
  rw [mem_slotgroups, mem_slotgroups]
  constructor
  · intro hg
    rcases hg with ⟨k, u, hu, hg⟩ | ⟨c, hc, ho, hg⟩
    · rcases (h.keys k u).mp hu with ⟨hid, hold⟩ | ⟨hold, hx⟩
      · exact Or.inl ⟨⟨k, hold⟩, by rw [← hg, hid, h.group_empty]⟩
      · have hid : u ≠ .empty (.known id) := fun e => h.fresh k (e ▸ hold)
        rw [h.group_eq hx hid] at hg
        refine Or.inr ⟨Or.inl ⟨k, u, hold, hg⟩, fun hv => hx ?_⟩
        rw [← hg, group_version hold] at hv
        exact Status.eq_used_of_version hv
    · refine Or.inr ⟨Or.inr ⟨c, ((h.ukis c).mp hc).1, by rw [← h.isOrphan_eq hc, ho], hg⟩, ?_⟩
      rw [← hg]
      exact ((h.ukis c).mp hc).2
  · intro hg
    rcases hg with ⟨⟨k, hk⟩, hg⟩ | ⟨⟨k, u, hu, hg⟩ | ⟨c, hc, ho, hg⟩, hv⟩
    · exact Or.inl ⟨k, _, h.empty_key_iff.mpr hk, by rw [h.group_empty, hg]⟩
    · have hx : u ≠ .used x := by
        intro e
        rw [← hg, group_version hu, e] at hv
        exact hv rfl
      have hid : u ≠ .empty (.known id) := fun e => h.fresh k (e ▸ hu)
      exact Or.inl ⟨k, u, (h.key_iff hx hid).mpr hu, by rw [h.group_eq hx hid, hg]⟩
    · rw [← hg] at hv
      have hc' := (h.ukis c).mpr ⟨hc, hv⟩
      exact Or.inr ⟨c, hc', by rw [h.isOrphan_eq hc', ho], hg⟩

end World.Retired

/-! ## The group that a removal selects -/

/-- The group is the only one that reports the version. -/
structure Runtime.Reports (rt : Runtime) (g : SlotGroup) (x : Version) : Prop where
  mem : g ∈ rt.slotgroups
  version : g.version = some x
  unique : ∀ g' ∈ rt.slotgroups, g'.version = some x → g' = g

theorem reports_of_findSlotGroup {rt : Runtime} {v : Version} {g : SlotGroup}
    (h : rt.findSlotGroup v = .ok g) : ∃ x, rt.Reports g x := by
  have only : ∀ (p : SlotGroup → Bool), rt.slotgroups.filter p = [g] →
      ∀ g' ∈ rt.slotgroups, p g' = true → g' = g := by
    intro p hp g' hg' hpg
    have hmem := List.mem_filter.mpr ⟨hg', hpg⟩
    rw [hp] at hmem
    exact List.mem_singleton.mp hmem
  rcases findSlotGroup_spec h with ⟨hmem, x, hx, _⟩
  refine ⟨x, hmem, hx, ?_⟩
  intro g' hg' hx'
  rcases findSlotGroup_eq_ok.mp h with hexact | ⟨_, _, hhashed⟩
  · have hg := (List.mem_filter.mp (hexact ▸ List.mem_singleton_self g)).2
    exact only _ hexact g' hg' (by rw [hx', ← hx]; exact hg)
  · have hg := (List.mem_filter.mp (hhashed ▸ List.mem_singleton_self g)).2
    refine only _ hhashed g' hg' ?_
    rw [Runtime.hasHashedRevision, hx', ← hx]
    exact hg

namespace Runtime.Reports

variable {w w' : World} {kernel : KernelParams} {g : SlotGroup} {x : Version} {c : BootEntry}
  {id : String}

theorem group_eq {k : Kind} (h : (w.runtimeOf kernel).Reports g x)
    (hk : (k, .used x) ∈ w.names.keys) : w.group (.used x) = g :=
  h.unique _ (World.group_mem hk) (World.group_version hk)

theorem slots_eq (h : (w.runtimeOf kernel).Reports g x) :
    g.root = w.slot .root (.used x) ∧ g.verity = w.slot .verity (.used x) := by
  by_cases hk : ∃ k, (k, Status.used x) ∈ w.names.keys
  · rcases hk with ⟨k, hk⟩
    rw [← h.group_eq hk]
    exact ⟨rfl, rfl⟩
  · rw [not_exists] at hk
    have hx := h.version
    rcases World.mem_slotgroups.mp h.mem with ⟨k, u, hu, hg⟩ | ⟨b, _, _, hg⟩
    · rw [← hg, World.group_version hu] at hx
      exact absurd (Status.eq_used_of_version hx ▸ hu) (hk k)
    · rw [World.slot_eq_none (hk .root), World.slot_eq_none (hk .verity), ← hg]
      exact ⟨rfl, rfl⟩

theorem mem_slots {t : Slot} (h : (w.runtimeOf kernel).Reports g x) :
    t ∈ g.slots ↔ ∃ k, w.slot k (.used x) = some t := by
  rcases h.slots_eq with ⟨hroot, hverity⟩
  rw [SlotGroup.slots, hroot, hverity, List.mem_append, Option.mem_toList, Option.mem_toList]
  constructor
  · intro ht
    rcases ht with ht | ht
    · exact ⟨.root, ht⟩
    · exact ⟨.verity, ht⟩
  · intro ht
    rcases ht with ⟨k, ht⟩
    cases k with
    | root => exact Or.inl ht
    | verity => exact Or.inr ht

theorem slots_ne_nil (h : (w.runtimeOf kernel).Reports g x) :
    g.slots ≠ [] ↔ ∃ k, (k, .used x) ∈ w.names.keys := by
  constructor
  · intro hne
    rcases List.exists_mem_of_ne_nil _ hne with ⟨t, ht⟩
    rcases h.mem_slots.mp ht with ⟨k, hk⟩
    exact ⟨k, World.slot_isSome.mp (Option.isSome_of_mem hk)⟩
  · intro hk
    rcases hk with ⟨k, hk⟩
    rcases Option.isSome_iff_exists.mp (World.slot_isSome.mpr hk) with ⟨t, ht⟩
    exact List.ne_nil_of_mem (h.mem_slots.mpr ⟨k, ht⟩)

theorem boot_iff (h : (w.runtimeOf kernel).Reports g x) (readable : w.names.Readable)
    (hc : c ∈ w.names.ukis) : g.boot = some c ↔ c.version = some x := by
  constructor
  · intro hb
    have hx := h.version
    rcases World.mem_slotgroups.mp h.mem with ⟨k, u, hu, hg⟩ | ⟨b, _, _, hg⟩
    · rw [← hg, World.group_version hu] at hx
      rw [← hg] at hb
      exact (group_boot hb).2.trans hx
    · rw [← hg] at hb hx
      cases hb
      exact hx
  · intro hv
    cases ho : isOrphan w.slots c with
    | true =>
        have hmem : orphan c ∈ (w.runtimeOf kernel).slotgroups :=
          World.mem_slotgroups.mpr (Or.inr ⟨c, hc, ho, rfl⟩)
        rw [← h.unique _ hmem hv]
        rfl
    | false =>
        have hk := (World.isOrphan_eq_false_iff_key hv).mp ho
        rw [← h.group_eq hk]
        exact (World.group_boot_iff readable).mpr ⟨hc, hv, hk⟩

theorem mem_unlinkIds (h : (w.runtimeOf kernel).Reports g x) (readable : w.names.Readable)
    (hc : c ∈ w.names.ukis) :
    c.id ∈ unlinkIds (w.runtimeOf kernel) g ↔ c.version = some x := by
  constructor
  · intro hid
    by_contra hv
    refine unlinkIds_ne hc ?_ hid
    intro b hb
    have hbmem := boot_mem_ukis h.mem hb
    have hbv := (h.boot_iff readable hbmem).mp hb
    exact ⟨hbmem, fun e => hv (e.symm.trans hbv)⟩
  · intro hv
    have hb := (h.boot_iff readable hc).mpr hv
    refine List.mem_map_of_mem (List.mem_append_left _ ?_)
    rw [hb]
    exact List.mem_singleton_self c

theorem retired (h : (w.runtimeOf kernel).Reports g x) (readable : w.names.Readable)
    (halloc : (w.runtimeOf kernel).allocateEmptyIdentifier = .ok id)
    (hrun : w.execAll ((unlinkIds (w.runtimeOf kernel) g).map Step.unlink ++
      Plan.renameSlotToEmpty g id) = some w') : w.Retired w' x id := by
  rcases World.allocateEmptyIdentifier_fresh halloc with ⟨plain, fresh⟩
  have hsteps : Plan.renameSlotToEmpty g id = Plan.renameSlotToEmpty (w.group (.used x)) id := by
    rw [Plan.renameSlotToEmpty, h.slots_eq.1, h.slots_eq.2]
    rfl
  rw [hsteps] at hrun
  rcases World.Emptied.of_removal readable.nodup plain fresh hrun with ⟨hemptied, hitems⟩
  refine { hemptied with readable, fresh, ukis := ?_, gone := ?_ }
  · intro c
    have hukis : c ∈ w'.names.ukis ↔
        c ∈ w.names.ukis ∧ c.id ∉ unlinkIds (w.runtimeOf kernel) g :=
      Names.mem_ukis_of_items (p := (· ∉ unlinkIds (w.runtimeOf kernel) g)) hitems
    rw [hukis]
    exact and_congr_right fun hc => not_congr (h.mem_unlinkIds readable hc)
  · intro c hc hv item hitem e
    exact ((hitems item).mp hitem).2 (e ▸ (h.mem_unlinkIds readable hc).mpr hv)

theorem ne_iff {rt : Runtime} {g' : SlotGroup} (h : rt.Reports g x) (hg' : g' ∈ rt.slotgroups) :
    g'.version ≠ some x ↔ g' ≠ g := by
  apply not_congr
  constructor
  · exact h.unique g' hg'
  · intro e
    rw [e, h.version]

end Runtime.Reports

section Groups

variable {g : SlotGroup} {id : String}

theorem SlotGroup.emptied_version : (g.emptied id).version = none := by
  rcases g with ⟨_ | r, _ | t, b⟩ <;> rfl

theorem SlotGroup.emptied_spec (h : g.slots ≠ []) :
    (g.emptied id).isEmpty = true ∧ (g.emptied id).emptyId = some id := by
  rcases g with ⟨_ | r, _ | t, b⟩
  · exact absurd rfl h
  all_goals exact ⟨rfl, rfl⟩

end Groups

/-- A removal that ran to its end: the version of the selected group is not reported any
more, its volumes are one empty group of a new identifier, its UKI is gone, and the other
groups and volumes are what they were. -/
theorem remove_effect {w w' : World} {cmdline : String} {rt : Runtime} {v : Version} {plan : Plan}
    (hrt : w.runtime cmdline = .ok rt) (hplan : Plan.remove rt v = .ok plan)
    (hrun : w.execAll plan.steps = some w') :
    ∃ rt' g x id, w'.runtime cmdline = .ok rt' ∧ rt.findSlotGroup v = .ok g ∧
      g.version = some x ∧ (∀ g' ∈ rt'.slotgroups, g'.version ≠ some x) ∧
      (∀ g', g' ∈ rt'.slotgroups ↔
        (g.slots ≠ [] ∧ g' = g.emptied id) ∨ (g' ∈ rt.slotgroups ∧ g' ≠ g)) ∧
      (g.slots ≠ [] → (g.emptied id).isEmpty = true ∧ (g.emptied id).emptyId = some id) ∧
      (∀ g' ∈ rt'.slotgroups, g'.emptyId = some id → g' = g.emptied id) ∧
      (∀ b ∈ g.boot, ∀ item ∈ w'.esp.items, item.id ≠ b.id) ∧
      ∀ lv ∈ w.lvs, (∀ t ∈ g.slots, t.volume.id ≠ lv.volume.id) → lv ∈ w'.lvs := by
  rcases World.runtime_iff_readable.mp hrt with ⟨readable, kernel, hk, hrt'⟩
  subst hrt'
  rcases remove_eq_ok.mp hplan with ⟨g, id, hfind, _, halloc, hsteps⟩
  rcases reports_of_findSlotGroup hfind with ⟨x, h⟩
  rw [hsteps, unlinkSteps_eq] at hrun
  have retired := h.retired readable halloc hrun
  have hgroups : ∀ g', g' ∈ (w'.runtimeOf kernel).slotgroups ↔
      (g.slots ≠ [] ∧ g' = g.emptied id) ∨
        (g' ∈ (w.runtimeOf kernel).slotgroups ∧ g' ≠ g) := by
    intro g'
    have hemptied : (w.group (.used x)).emptied id = g.emptied id := by
      rw [SlotGroup.emptied, SlotGroup.emptied, h.slots_eq.1, h.slots_eq.2]
      rfl
    rw [retired.mem_slotgroups_iff, h.slots_ne_nil, hemptied]
    exact or_congr_right (and_congr_right h.ne_iff)
  refine ⟨w'.runtimeOf kernel, g, x, id, World.runtime_of_readable hk retired.readable', hfind,
    h.version, ?_, hgroups, SlotGroup.emptied_spec, ?_, ?_, ?_⟩
  · intro g' hg' hv
    rcases (hgroups g').mp hg' with hg' | hg'
    · rw [hg'.2, SlotGroup.emptied_version] at hv
      cases hv
    · exact (h.ne_iff hg'.1).mpr hg'.2 hv
  · intro g' hg' hid
    rcases (hgroups g').mp hg' with hg' | hg'
    · exact hg'.2
    · rcases World.mem_emptyIds.mp (List.mem_filterMap.mpr ⟨g', hg'.1, hid⟩) with ⟨k, hkey⟩
      exact absurd hkey (retired.fresh k)
  · intro b hb
    have hbmem := boot_mem_ukis h.mem hb
    exact retired.gone b hbmem ((h.boot_iff readable hbmem).mp hb)
  · intro lv hlv hne
    refine retired.kept lv hlv fun k hkey => ?_
    have hslot := World.slot_of_lv readable.nodup hlv hkey
    exact hne _ (h.mem_slots.mpr ⟨k, hslot⟩) rfl

def removedWorld : World where
  lvs := ["persist", "root_0", "root_empty_0", "swap", "verity_0", "verity_empty_0"].map sampleLv
  esp := legacyWorld.esp

theorem removedWorld_samples :
    updatedWorld.execAll updatedRemovePlan.steps = some removedWorld ∧
      (updatedWorld.group (.used sampleVersion)).slots ≠ [] ∧
      removedWorld.runtime "root=fstab" = .ok (removedWorld.runtimeOf legacyKernel) := by
  decide +kernel

theorem remove_effect_updatedWorld :
    ∃ id, (updatedWorld.group (.used sampleVersion)).emptied id ∈
      (removedWorld.runtimeOf legacyKernel).slotgroups := by
  rcases updatedWorld_samples with ⟨hruntime, _, hfind, hplan, -⟩
  rcases removedWorld_samples with ⟨hrun, hslots, hremoved⟩
  rcases remove_effect hruntime hplan hrun with ⟨rt', g, x, id, hrt', hg, _, _, hgroups, -⟩
  rw [hremoved] at hrt'
  cases hrt'
  rw [hfind] at hg
  cases hg
  exact ⟨id, (hgroups _).mpr (Or.inl ⟨hslots, rfl⟩)⟩

end GhafGivc.Image
