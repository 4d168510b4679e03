import GhafGivc.Image.Readback

/-! # What a plan lays hands on

A plan names the volumes it works on: by volume group and name for LVM, by a device
path for `dd` and `blockdev`. Whatever the listing looks like, an install works on an
empty pair of volumes or on a pair that it has created before, under names that nothing
else has. The device path does not tell all pairs of names apart.
-/

namespace GhafGivc.Image

open Core SlotGroup

namespace Step

def created : Step → List (String × String)
  | lvcreate vg lv _ => [(vg, lv)]
  | _ => []

def touched : Step → List (String × String)
  | lvresize volume _ | installVolume volume _ _ | finalizeFlush volume => [volume.id]
  | lvrename vg lv _ => [(vg, lv)]
  | _ => []

theorem mem_lvOperands_of_created {step : Step} {id : String × String} (h : id ∈ step.created) :
    id ∈ step.lvOperands := by
  cases step with
  | lvcreate vg lv size => exact h
  | _ => cases h

theorem mem_lvOperands_of_touched {step : Step} {id : String × String} (h : id ∈ step.touched) :
    id ∈ step.lvOperands := by
  cases step with
  | lvresize volume needed | installVolume volume file source | finalizeFlush volume => exact h
  | lvrename vg lv target => exact List.mem_cons.mpr (Or.inl (List.mem_singleton.mp h))
  | _ => cases h

/-- The volume whose device path is in the command line. -/
def device : Step → Option Volume
  | installVolume volume _ _ | finalizeFlush volume => some volume
  | _ => none

end Step

namespace Runtime

/-- A volume of a used slot, of the active group, or of nobody the updater knows. -/
def InUse (rt : Runtime) (id : String × String) : Prop :=
  (∃ g ∈ rt.slotgroups, ∃ t ∈ g.slots, t.volume.id = id ∧
      (t.isUsed = true ∨ g.isActive rt.kernel = true)) ∨
    ∃ v ∈ rt.volumes, v.id = id

/-- The two volumes of an install with the steps that prepare them: a spare group, or
two volumes under a fresh identifier. -/
inductive Picks (rt : Runtime) (m : Manifest) : Slot → Slot → List Step → Prop
  | spare {r t : Slot} (h : rt.spareSlot = some ⟨some r, some t, none⟩) :
      Picks rt m r t (resizeStep r m.store.unpackedSize ++ resizeStep t m.verity.unpackedSize)
  | create {vg id : String} {rs vs : Nat} (h : rt.allocateEmptyIdentifier = .ok id) :
      Picks rt m (createdSlot .root vg id rs) (createdSlot .verity vg id vs)
        [createStep .root vg id rs, createStep .verity vg id vs]

end Runtime

section Names

variable {volumes : List Volume} {items : List BootctlItem} {kernel : KernelParams} {id : String}

theorem exists_emptyName_iff {k : Kind} (hplain : (Status.empty (.known id)).Plain) :
    (∃ v ∈ volumes, v.lvName = k.display ++ "_empty_" ++ id) ↔
      ∃ t ∈ (Slot.fromVolumes volumes).1, t.key = (k, .empty (.known id)) := by
  rw [emptyName_eq]
  constructor
  · intro h
    rcases h with ⟨v, hv, hname⟩
    exact ⟨⟨k, _, v⟩, Slot.mem_fromVolumes.mpr ⟨hv, Slot.decodeStatus_eq_ok.mpr ⟨hname, hplain⟩⟩,
      rfl⟩
  · intro h
    rcases h with ⟨t, ht, hkey⟩
    have hname := (Slot.lvName_of_mem_fromVolumes ht).1
    rw [show t.kind = k from congrArg Prod.fst hkey,
      show t.status = _ from congrArg Prod.snd hkey] at hname
    exact ⟨t.volume, (Slot.mem_fromVolumes.mp ht).1, hname⟩

theorem exists_emptyId_iff (hplain : (Status.empty (.known id)).Plain) :
    (∃ g ∈ (Runtime.listed volumes items kernel).slotgroups, g.emptyId = some id) ↔
      ∃ v ∈ volumes, ∃ k : Kind, v.lvName = k.display ++ "_empty_" ++ id := by
  refine exists_emptyId_view.trans ?_
  constructor
  · intro h
    rcases h with ⟨t, ht, hstatus⟩
    rcases (exists_emptyName_iff (k := t.kind) hplain).mpr ⟨t, ht, by rw [Slot.key, hstatus]⟩
      with ⟨v, hv, hname⟩
    exact ⟨v, hv, t.kind, hname⟩
  · intro h
    rcases h with ⟨v, hv, k, hname⟩
    rcases (exists_emptyName_iff hplain).mp ⟨v, hv, hname⟩ with ⟨t, ht, hkey⟩
    exact ⟨t, ht, congrArg Prod.snd hkey⟩

theorem lvName_ne_of_allocate
    (h : (Runtime.listed volumes items kernel).allocateEmptyIdentifier = .ok id) {v : Volume}
    (hv : v ∈ volumes) (k : Kind) : v.lvName ≠ Slot.displayName k (.empty (.known id)) := by
  rcases Runtime.allocateEmptyIdentifier_spec h with ⟨hplain, hfresh⟩
  intro hname
  rw [← emptyName_eq] at hname
  rcases (exists_emptyId_iff hplain).mpr ⟨v, hv, k, hname⟩ with ⟨g, hg, hid⟩
  exact hfresh g hg hid

end Names

section Pair

variable {volumes : List Volume} {items : List BootctlItem} {kernel : KernelParams}
  {m : Manifest} {source : String} {plan : Plan}

theorem spare_of_listed {g : SlotGroup}
    (h : (Runtime.listed volumes items kernel).spareSlot = some g) :
    ∃ r t, g = ⟨some r, some t, none⟩ ∧ r.kind = .root ∧ t.kind = .verity ∧ r.isEmpty = true ∧
      t.isEmpty = true ∧ g ∈ (Runtime.listed volumes items kernel).slotgroups ∧
      g.isActive kernel = false := by
  have hspare := List.find?_some h
  have hg := List.mem_of_find?_eq_some h
  rw [Bool.and_eq_true, Bool.and_eq_true, Bool.not_eq_true'] at hspare
  rcases hspare with ⟨⟨hempty, hactive⟩, hcomplete⟩
  rcases mem_view.mp hg with ⟨s, hs, rfl⟩ | ⟨b, _, _, rfl⟩
  · rw [isEmpty_row hs] at hempty
    rcases isComplete_row.mp hcomplete with ⟨hroot, hverity⟩
    rcases Option.isSome_iff_exists.mp (slotFor_isSome_iff.mpr hroot) with ⟨r, hr⟩
    rcases Option.isSome_iff_exists.mp (slotFor_isSome_iff.mpr hverity) with ⟨t, ht⟩
    rcases slotFor_spec hr with ⟨_, hrk, hrs⟩
    rcases slotFor_spec ht with ⟨_, htk, hts⟩
    refine ⟨r, t, ?_, hrk, htk, by rw [Slot.isEmpty, hrs, hempty],
      by rw [Slot.isEmpty, hts, hempty], hg, hactive⟩
    rw [row, hr, ht, bootFor_eq_none_of_isEmpty (BootEntry.isManaged_of_mem_ukis items) hempty]
  · cases hcomplete

theorem picks_of_selectUpdateSlot {v : Version} {slot : SlotGroup} {pre : List Step}
    (hv : m.toVersion = .ok v)
    (h : (Runtime.listed volumes items kernel).selectUpdateSlot m = .ok (.selected slot pre)) :
    ∃ r t, (Runtime.listed volumes items kernel).Picks m r t pre ∧ r.kind = .root ∧
      t.kind = .verity ∧ r.isEmpty = true ∧ t.isEmpty = true ∧
      slot = ⟨some r, some t, some (BootEntry.ofUki ⟨v, none⟩)⟩ := by
  rw [Runtime.selectUpdateSlot, hv, Outcome.ok_bind] at h
  split at h
  · cases h
  · split at h
    · rename_i g hspare
      rcases spare_of_listed hspare with ⟨r, t, rfl, hrk, htk, hre, hte, _⟩
      rw [attachUki_of_none, Outcome.ok_bind] at h
      rcases SlotSelection.selected.inj (Outcome.ok.inj h) with ⟨rfl, rfl⟩
      exact ⟨r, t, .spare hspare, hrk, htk, hre, hte, rfl⟩
    · rcases Outcome.bind_eq_ok.mp h with ⟨⟨g, steps⟩, hcreate, h⟩
      rcases createEmptySlot_eq_ok.mp hcreate with
        ⟨_, ar, _, id, rs, vs, _, _, _, halloc, _, _, rfl, rfl⟩
      dsimp only at h
      rw [attachUki_of_none, Outcome.ok_bind] at h
      rcases SlotSelection.selected.inj (Outcome.ok.inj h) with ⟨rfl, rfl⟩
      exact ⟨_, _, .create halloc, rfl, rfl, rfl, rfl, rfl⟩

theorem install_steps
    (h : Plan.install (Runtime.listed volumes items kernel) m source = .ok plan) :
    plan.steps = [] ∨ ∃ v r t pre active,
      (Runtime.listed volumes items kernel).Picks m r t pre ∧
        plan.steps = pre ++ (writeSteps m source r t ++ (commitSteps m source v r t ++
          migrationSteps active)) := by
  rcases Outcome.bind_eq_ok.mp h with ⟨selection, hselect, h⟩
  cases selection with
  | alreadyInstalled =>
      left
      cases h
      rfl
  | selected slot pre =>
      right
      rcases Outcome.bind_eq_ok.mp hselect with ⟨v, hv, _⟩
      rcases picks_of_selectUpdateSlot hv hselect with ⟨r, t, hpicks, hrk, htk, hre, hte, rfl⟩
      rcases Outcome.bind_eq_ok.mp h with ⟨into, hinto, h⟩
      rcases (installIntoSlot_eq_ok rfl hv hre hte hrk htk).mp hinto with ⟨active, _, hsteps⟩
      rw [hsteps] at h
      cases h
      exact ⟨v, r, t, pre, active, hpicks, rfl⟩

variable {v : Version} {r t : Slot} {active : SlotGroup} {pre : List Step} {step : Step}
  {id : String × String}

variable {needed : Option Nat}

theorem touched_resizeStep (hstep : step ∈ Runtime.resizeStep r needed) (hid : id ∈ step.touched) :
    id = r.volume.id := by
  rcases operands_resizeStep hstep with ⟨x, hx, hlv, _⟩
  cases hx
  exact List.mem_singleton.mp (hlv ▸ Step.mem_lvOperands_of_touched hid)

theorem created_resizeStep {slot : Option Slot} (hstep : step ∈ Runtime.resizeStep slot needed) :
    step.created = [] := by
  unfold Runtime.resizeStep at hstep
  split at hstep
  · split at hstep
    · rw [List.mem_singleton.mp hstep]
      rfl
    · cases hstep
  · cases hstep

theorem operands_installSteps (hstep : step ∈ writeSteps m source r t ++
    (commitSteps m source v r t ++ migrationSteps active)) :
    step.created = [] ∧ ∀ id ∈ step.touched, id = r.volume.id ∨ id = t.volume.id := by
  rcases List.mem_append.mp hstep with hstep | hstep
  · simp only [writeSteps, List.mem_cons, List.not_mem_nil, or_false] at hstep
    rcases hstep with rfl | rfl | rfl | rfl <;>
      exact ⟨rfl, fun id hid => by simp [List.mem_singleton.mp hid]⟩
  · rcases List.mem_append.mp hstep with hstep | hstep
    · simp only [commitSteps, List.mem_cons, List.not_mem_nil, or_false] at hstep
      rcases hstep with rfl | rfl | rfl
      · exact ⟨rfl, fun id hid => Or.inl (List.mem_singleton.mp hid)⟩
      · exact ⟨rfl, fun id hid => Or.inr (List.mem_singleton.mp hid)⟩
      · exact ⟨rfl, fun id hid => by cases hid⟩
    · have hnone := (operands_migrationSteps hstep).2
      constructor
      · apply List.eq_nil_iff_forall_not_mem.mpr
        intro id hid
        have hop := Step.mem_lvOperands_of_created hid
        rw [hnone] at hop
        cases hop
      · intro id hid
        have hop := Step.mem_lvOperands_of_touched hid
        rw [hnone] at hop
        cases hop

theorem created_install
    (h : Plan.install (Runtime.listed volumes items kernel) m source = .ok plan) :
    plan.steps.flatMap Step.created = [] ∨ ∃ vg id,
      (Runtime.listed volumes items kernel).allocateEmptyIdentifier = .ok id ∧
        plan.steps.flatMap Step.created =
          [(vg, Slot.displayName .root (.empty (.known id))),
            (vg, Slot.displayName .verity (.empty (.known id)))] := by
  rcases install_steps h with hnil | ⟨v, r, t, pre, active, hpicks, hsteps⟩
  · rw [hnil]
    exact Or.inl rfl
  · have hrest : (writeSteps m source r t ++ (commitSteps m source v r t ++
        migrationSteps active)).flatMap Step.created = [] := by
      apply List.flatMap_eq_nil_iff.mpr
      intro step hstep
      exact (operands_installSteps hstep).1
    rw [hsteps, List.flatMap_append, hrest, List.append_nil]
    cases hpicks with
    | spare =>
        left
        apply List.flatMap_eq_nil_iff.mpr
        intro step hstep
        rcases List.mem_append.mp hstep with hstep | hstep
        · exact created_resizeStep hstep
        · exact created_resizeStep hstep
    | create halloc => exact Or.inr ⟨_, _, halloc, rfl⟩

end Pair

theorem renameTargets_remove {rt : Runtime} {version : Version} {plan : Plan}
    (h : Plan.remove rt version = .ok plan) :
    ∃ id, rt.allocateEmptyIdentifier = .ok id ∧
      (plan.steps.filterMap Step.renameTarget).Sublist
        [Slot.displayName .root (.empty (.known id)),
          Slot.displayName .verity (.empty (.known id))] := by
  rcases remove_eq_ok.mp h with ⟨⟨root, verity, boot⟩, id, _, _, halloc, hsteps⟩
  refine ⟨id, halloc, ?_⟩
  have hunlink : ∀ ids : List String, (ids.map Step.unlink).filterMap Step.renameTarget = [] := by
    intro ids
    rw [List.filterMap_map]
    exact List.filterMap_eq_nil_iff.mpr fun _ _ => rfl
  rw [hsteps, unlinkSteps_eq, List.filterMap_append, hunlink, List.nil_append,
    Plan.renameSlotToEmpty, List.filterMap_append, ← List.singleton_append]
  apply List.Sublist.append
  · cases root with
    | none => exact List.nil_sublist _
    | some r =>
        rw [show Plan.renameToEmpty "root" id (some r) = _ from renameToEmpty_some .root r id]
        exact List.Sublist.refl _
  · cases verity with
    | none => exact List.nil_sublist _
    | some t =>
        rw [show Plan.renameToEmpty "verity" id (some t) = _ from renameToEmpty_some .verity t id]
        exact List.Sublist.refl _

theorem emptyNames_of_allocate {volumes : List Volume} {items : List BootctlItem}
    {kernel : KernelParams} {id : String}
    (halloc : (Runtime.listed volumes items kernel).allocateEmptyIdentifier = .ok id) :
    [Slot.displayName .root (.empty (.known id)),
        Slot.displayName .verity (.empty (.known id))].Nodup ∧
      ∀ name ∈ [Slot.displayName .root (.empty (.known id)),
        Slot.displayName .verity (.empty (.known id))], ∀ v ∈ volumes, v.lvName ≠ name := by
  have hplain := (Runtime.allocateEmptyIdentifier_spec halloc).1
  have hne : Slot.displayName .root (.empty (.known id)) ≠
      Slot.displayName .verity (.empty (.known id)) := by
    intro h
    cases (Slot.displayName_inj hplain hplain h).1
  refine ⟨by simpa using hne, ?_⟩
  intro name hname v hv
  simp only [List.mem_cons, List.not_mem_nil, or_false] at hname
  rcases hname with rfl | rfl
  · exact lvName_ne_of_allocate halloc hv .root
  · exact lvName_ne_of_allocate halloc hv .verity

/-- Identifiers run out when all hundred are taken; an identifier that is handed out, and
every name that a plan gives, is new and given once. -/
theorem emptyNames_fresh {volumes : List Volume} {cmdline : String} {items : List BootctlItem}
    {rt : Runtime} (h : Runtime.new volumes cmdline items = .ok rt) :
    ((∃ e, rt.allocateEmptyIdentifier = .err e) ↔
        ∀ i < 100, ∃ v ∈ volumes, ∃ k : Kind, v.lvName = k.display ++ "_empty_" ++ toString i) ∧
      rt.allocateEmptyIdentifier ≠ .panicked ∧
      (∀ id, rt.allocateEmptyIdentifier = .ok id →
        ∀ v ∈ volumes, ∀ k : Kind, v.lvName ≠ k.display ++ "_empty_" ++ id) ∧
      (∀ m source plan, Plan.install rt m source = .ok plan →
        ((plan.steps.flatMap Step.created).map Prod.snd).Nodup ∧
          ∀ name ∈ (plan.steps.flatMap Step.created).map Prod.snd,
            ∀ v ∈ volumes, v.lvName ≠ name) ∧
      ∀ version plan, Plan.remove rt version = .ok plan →
        (plan.steps.filterMap Step.renameTarget).Nodup ∧
          ∀ name ∈ plan.steps.filterMap Step.renameTarget, ∀ v ∈ volumes, v.lvName ≠ name := by
  rcases Runtime.new_eq_ok_iff.mp h with ⟨_, kernel, _, rfl⟩
  refine ⟨?_, Runtime.allocateEmptyIdentifier_returns _, ?_, ?_, ?_⟩
  · rw [Runtime.allocateEmptyIdentifier_eq_err_iff]
    apply forall_congr'
    intro i
    apply imp_congr_right
    intro _
    exact exists_emptyId_iff (Text.notMem_toString (by decide) i)
  · intro id halloc v hv k
    rw [emptyName_eq]
    exact lvName_ne_of_allocate halloc hv k
  · intro m source plan hplan
    rcases created_install hplan with hnil | ⟨vg, id, halloc, hcreated⟩
    · rw [hnil]
      exact ⟨List.nodup_nil, fun name hname => by cases hname⟩
    · rw [hcreated]
      exact emptyNames_of_allocate halloc
  · intro version plan hplan
    rcases renameTargets_remove hplan with ⟨id, halloc, hsub⟩
    rcases emptyNames_of_allocate halloc with ⟨hnodup, hfresh⟩
    exact ⟨hnodup.sublist hsub, fun name hname => hfresh name (hsub.subset hname)⟩

theorem emptyNames_fresh_legacyWorld :
    (legacyWorld.runtimeOf legacyKernel).allocateEmptyIdentifier = .ok "0" ∧
      ∀ v ∈ legacyWorld.volumes, ∀ k : Kind, v.lvName ≠ k.display ++ "_empty_" ++ "0" := by
  have halloc : (legacyWorld.runtimeOf legacyKernel).allocateEmptyIdentifier = .ok "0" := by
    decide +kernel
  exact ⟨halloc, (emptyNames_fresh legacyWorld_runtime).2.2.1 "0" halloc⟩

section Use

variable {volumes : List Volume} {items : List BootctlItem} {kernel : KernelParams}
  {m : Manifest} {source : String}

theorem not_inUse_of_spare
    (hclash : ¬ Clashing (Slot.fromVolumes volumes).1 (BootEntry.ukis items)) {g : SlotGroup}
    {t : Slot} (hg : g ∈ (Runtime.listed volumes items kernel).slotgroups)
    (hactive : g.isActive kernel = false) (ht : t ∈ g.slots) (hempty : t.isEmpty = true) :
    ¬ (Runtime.listed volumes items kernel).InUse t.volume.id := by
  rcases eq_row_of_mem_slots hg ht with ⟨hmem, hrow⟩
  intro h
  rcases h with ⟨g', hg', u, hu, hid, huse⟩ | ⟨v, hv, hid⟩
  · rcases eq_row_of_mem_slots hg' hu with ⟨humem, hrow'⟩
    have hut := List.inj_on_of_nodup_map (not_clashing_iff.mp hclash).1 humem hmem
      (key_eq_of_volume_id humem hmem hid)
    subst hut
    rcases huse with hused | hact
    · rw [Slot.isUsed, show u.status.isEmpty = true from hempty] at hused
      cases hused
    · rw [hrow', ← hrow] at hact
      exact Bool.false_ne_true (hactive.symm.trans hact)
  · have hname : v.lvName = t.volume.lvName := congrArg Prod.snd hid
    apply Slot.decodeStatus_ne_ok_of_unparsed hv (t.kind, t.status)
    rw [hname]
    exact (Slot.mem_fromVolumes.mp hmem).2

theorem not_inUse_of_allocate {id : String}
    (h : (Runtime.listed volumes items kernel).allocateEmptyIdentifier = .ok id) (vg : String)
    (k : Kind) :
    ¬ (Runtime.listed volumes items kernel).InUse
      (vg, Slot.displayName k (.empty (.known id))) := by
  intro huse
  rcases huse with ⟨g, hg, t, ht, hid, _⟩ | ⟨v, hv, hid⟩
  · have hmem := (Slot.mem_fromVolumes.mp (eq_row_of_mem_slots hg ht).1).1
    exact lvName_ne_of_allocate h hmem k (congrArg Prod.snd hid)
  · have hmem : v ∈ volumes := by
      rw [show (Runtime.listed volumes items kernel).volumes = _ from
        Slot.fromVolumes_snd volumes] at hv
      exact (List.mem_filter.mp hv).1
    exact lvName_ne_of_allocate h hmem k (congrArg Prod.snd hid)

/-- Neither volume of the pair is in use. -/
theorem Runtime.Picks.not_inUse
    (hclash : ¬ Clashing (Slot.fromVolumes volumes).1 (BootEntry.ukis items)) {r t : Slot}
    {pre : List Step} (h : (Runtime.listed volumes items kernel).Picks m r t pre) :
    ¬ (Runtime.listed volumes items kernel).InUse r.volume.id ∧
      ¬ (Runtime.listed volumes items kernel).InUse t.volume.id := by
  cases h with
  | spare hspare =>
      rcases spare_of_listed hspare with ⟨_, _, hg, _, _, hre, hte, hmem, hactive⟩
      cases hg
      exact ⟨not_inUse_of_spare hclash hmem hactive (by simp [SlotGroup.slots]) hre,
        not_inUse_of_spare hclash hmem hactive (by simp [SlotGroup.slots]) hte⟩
  | create halloc =>
      exact ⟨not_inUse_of_allocate halloc _ .root, not_inUse_of_allocate halloc _ .verity⟩

/-- A volume of an empty group that is not active. -/
def Runtime.IsSpare (rt : Runtime) (id : String × String) : Prop :=
  ∃ g ∈ rt.slotgroups, (∀ t ∈ g.slots, t.isEmpty = true) ∧ g.isActive rt.kernel = false ∧
    ∃ t ∈ g.slots, t.volume.id = id

/-- What a step works on is spare or was created before it. -/
theorem Runtime.Picks.spare_or_created {r t : Slot} {pre rest : List Step} {i : Nat} {step : Step}
    {id : String × String} (h : (Runtime.listed volumes items kernel).Picks m r t pre)
    (hrest : ∀ step ∈ rest, ∀ id ∈ step.touched, id = r.volume.id ∨ id = t.volume.id)
    (hstep : (pre ++ rest)[i]? = some step) (hid : id ∈ step.touched) :
    (id = r.volume.id ∨ id = t.volume.id) ∧
      ((Runtime.listed volumes items kernel).IsSpare id ∨
        ∃ j < i, ∃ size, (pre ++ rest)[j]? = some (.lvcreate id.1 id.2 size)) := by
  cases h with
  | spare hspare =>
      rcases spare_of_listed hspare with ⟨_, _, hg, _, _, hre, hte, hmem, hactive⟩
      cases hg
      have hpair : id = r.volume.id ∨ id = t.volume.id := by
        rcases List.mem_append.mp (List.mem_of_getElem? hstep) with hstep | hstep
        · rcases List.mem_append.mp hstep with hstep | hstep
          · exact Or.inl (touched_resizeStep hstep hid)
          · exact Or.inr (touched_resizeStep hstep hid)
        · exact hrest step hstep id hid
      refine ⟨hpair, Or.inl ⟨_, hmem, ?_, hactive, ?_⟩⟩
      · simp [SlotGroup.slots, hre, hte]
      · rcases hpair with rfl | rfl
        · exact ⟨r, by simp [SlotGroup.slots], rfl⟩
        · exact ⟨t, by simp [SlotGroup.slots], rfl⟩
  | create halloc =>
      cases i with
      | zero =>
          cases hstep
          cases hid
      | succ i =>
          cases i with
          | zero =>
              cases hstep
              cases hid
          | succ i =>
              have hmem : rest[i]? = some step := hstep
              have hpair := hrest step (List.mem_of_getElem? hmem) id hid
              refine ⟨hpair, Or.inr ?_⟩
              rcases hpair with rfl | rfl
              · exact ⟨0, by omega, _, rfl⟩
              · exact ⟨1, by omega, _, rfl⟩

end Use

section StateError

variable {volumes : List Volume} {items : List BootctlItem} {kernel : KernelParams}
  {m : Manifest} {source : String}

def stateError : String := "Already have UKI (state error)"

theorem activeSlot_ne_stateError (rt : Runtime) : rt.activeSlot ≠ .err stateError := by
  refine Outcome.bind_ne_err ?_ fun _ _ => Outcome.context_ne_err (by decide)
  unfold Runtime.findExactOneGroup
  split
  · intro h
    cases h
  · intro h
    cases h
  · intro h
    exact absurd (Outcome.err.inj h) (by decide)

theorem createVolume_ne_stateError (vg id : String) (k : Kind) (needed size : Option Nat) :
    Runtime.createVolume vg id k.display needed size ≠ .err stateError := by
  refine Outcome.bind_ne_err (Outcome.context_ne_err ?_) fun _ _ => ?_
  · cases k <;> decide
  · refine Outcome.bind_ne_err (Outcome.context_ne_err ?_) fun _ _ h => by cases h
    cases k <;> decide

theorem createEmptySlot_ne_stateError (rt : Runtime) : rt.createEmptySlot m ≠ .err stateError := by
  apply Outcome.bind_ne_err (activeSlot_ne_stateError rt)
  intro active _
  apply Outcome.bind_ne_err (Outcome.context_ne_err (by decide))
  intro activeRoot _
  apply Outcome.bind_ne_err (Outcome.context_ne_err (by decide))
  intro activeVerity _
  apply Outcome.bind_ne_err (Outcome.context_ne_err (by decide))
  intro id _
  apply Outcome.bind_ne_err (createVolume_ne_stateError _ id .root _ _)
  intro root _
  apply Outcome.bind_ne_err (createVolume_ne_stateError _ id .verity _ _)
  intro verity _ h
  cases h

theorem selectUpdateSlot_ne_stateError :
    (Runtime.listed volumes items kernel).selectUpdateSlot m ≠ .err stateError := by
  apply Outcome.bind_ne_err Manifest.toVersion_ne_err
  intro target _
  split
  · intro h
    cases h
  · split
    · rename_i g hspare
      rcases spare_of_listed hspare with ⟨r, t, rfl, _⟩
      intro h
      cases h
    · apply Outcome.bind_ne_err (createEmptySlot_ne_stateError _)
      intro created hcreated
      rcases created with ⟨g, pre⟩
      rcases createEmptySlot_eq_ok.mp hcreated with ⟨_, _, _, _, _, _, _, _, _, _, _, _, rfl, _⟩
      intro h
      cases h

theorem installIntoSlot_ne_stateError (rt : Runtime) (slot : SlotGroup) :
    Plan.installIntoSlot rt m slot source ≠ .err stateError := by
  apply Outcome.bind_ne_err (Outcome.context_ne_err (by decide))
  intro root _
  apply Outcome.bind_ne_err (Outcome.context_ne_err (by decide))
  intro verity _
  apply Outcome.bind_ne_err Manifest.toVersion_ne_err
  intro version _
  have hinto : ∀ x : Slot, x.intoVersion version ≠ .err stateError := fun x =>
    Outcome.bind_ne_err (Outcome.ensure_ne_err (by decide)) fun _ _ h => by cases h
  apply Outcome.bind_ne_err (hinto root)
  intro usedRoot _
  apply Outcome.bind_ne_err (hinto verity)
  intro usedVerity _
  apply Outcome.bind_ne_err
  · exact Outcome.bind_ne_err (Outcome.context_ne_err (by decide)) fun _ _ h => by cases h
  · intro uki _
    apply Outcome.bind_ne_err (activeSlot_ne_stateError rt)
    intro active _ h
    cases h

theorem install_ne_stateError :
    Plan.install (Runtime.listed volumes items kernel) m source ≠ .err stateError := by
  apply Outcome.bind_ne_err selectUpdateSlot_ne_stateError
  intro selection _
  cases selection with
  | alreadyInstalled =>
      intro h
      cases h
  | selected slot pre =>
      apply Outcome.bind_ne_err (installIntoSlot_ne_stateError _ slot)
      intro plan _ h
      cases h

end StateError

/-- An install works on spare volumes and on volumes that it created, never on one that
is in use, and the group it chooses has no UKI yet. -/
theorem install_spares_used {volumes : List Volume} {cmdline : String} {items : List BootctlItem}
    {rt : Runtime} (h : Runtime.new volumes cmdline items = .ok rt) (m : Manifest)
    (source : String) :
    (∀ plan, Plan.install rt m source = .ok plan →
      (∀ (i : Nat) (step : Step), plan.steps[i]? = some step → ∀ id ∈ step.touched,
        rt.IsSpare id ∨ ∃ j < i, ∃ size, plan.steps[j]? = some (.lvcreate id.1 id.2 size)) ∧
        ∀ step ∈ plan.steps, ∀ id ∈ step.created ++ step.touched, ¬ rt.InUse id) ∧
      Plan.install rt m source ≠ .err "Already have UKI (state error)" := by
  rcases Runtime.new_eq_ok_iff.mp h with ⟨hclash, kernel, _, rfl⟩
  refine ⟨fun plan hplan => ?_, install_ne_stateError⟩
  rcases install_steps hplan with hnil | ⟨v, r, t, pre, active, hpicks, hsteps⟩
  · rw [hnil]
    constructor
    · intro i step hstep
      cases hstep
    · intro step hstep
      cases hstep
  · rcases hpicks.not_inUse hclash with ⟨hr, ht⟩
    have hrest : ∀ step ∈ writeSteps m source r t ++ (commitSteps m source v r t ++
        migrationSteps active), ∀ id ∈ step.touched, id = r.volume.id ∨ id = t.volume.id :=
      fun step hstep => (operands_installSteps hstep).2
    constructor
    · intro i step hstep id hid
      rw [hsteps] at hstep ⊢
      exact (hpicks.spare_or_created hrest hstep hid).2
    · intro step hstep id hid
      rcases List.mem_append.mp hid with hid | hid
      · have hmem := List.mem_flatMap.mpr ⟨step, hstep, hid⟩
        rcases created_install hplan with hnil | ⟨vg, id', halloc, hcreated⟩
        · rw [hnil] at hmem
          cases hmem
        · rw [hcreated] at hmem
          simp only [List.mem_cons, List.not_mem_nil, or_false] at hmem
          rcases hmem with rfl | rfl
          · exact not_inUse_of_allocate halloc vg .root
          · exact not_inUse_of_allocate halloc vg .verity
      · rcases List.mem_iff_getElem?.mp hstep with ⟨i, hi⟩
        rw [hsteps] at hi
        rcases (hpicks.spare_or_created hrest hi hid).1 with rfl | rfl
        · exact hr
        · exact ht

theorem install_spares_used_legacyWorld :
    (∀ step ∈ legacyInstallPlan.steps, ∀ id ∈ step.created ++ step.touched,
        ¬ (legacyWorld.runtimeOf legacyKernel).InUse id) ∧
      Plan.install (legacyWorld.runtimeOf legacyKernel) sampleManifest "/sysupdate" ≠
        .err "Already have UKI (state error)" := by
  have hspares := install_spares_used legacyWorld_runtime sampleManifest "/sysupdate"
  exact ⟨(hspares.1 _ install_legacyWorld).2, hspares.2⟩

/-! ## Device paths -/

namespace Volume

def isNameChar (c : Char) : Bool := c.isAlphanum || ['+', '_', '.', '-'].contains c

def Valid (v : Volume) : Prop :=
  v.vgName.toList.all isNameChar = true ∧ v.lvName.toList.all isNameChar = true

instance (v : Volume) : Decidable v.Valid := inferInstanceAs (Decidable (_ ∧ _))

/-- The names of `v` and `u` are cut from one text, that of `v` at a later hyphen. -/
def Overlaps (v u : Volume) : Prop :=
  ∃ mid, v.vgName = u.vgName ++ "-" ++ mid ∧ u.lvName = mid ++ "-" ++ v.lvName

variable {v u : Volume}

theorem overlaps_iff :
    v.Overlaps u ↔ ∃ mid, v.vgName.toList = u.vgName.toList ++ '-' :: mid ∧
      u.lvName.toList = mid ++ '-' :: v.lvName.toList := by
  constructor
  · intro h
    rcases h with ⟨mid, hvg, hlv⟩
    exact ⟨mid.toList, by simp [hvg], by simp [hlv]⟩
  · intro h
    rcases h with ⟨mid, hvg, hlv⟩
    refine ⟨String.ofList mid, String.toList_inj.mp ?_, String.toList_inj.mp ?_⟩
    · simp [hvg]
    · simp [hlv]

theorem deviceFile_eq_iff :
    v.deviceFile = u.deviceFile ↔ v.id = u.id ∨ v.Overlaps u ∨ u.Overlaps v := by
  have hpath : v.deviceFile = u.deviceFile ↔
      v.vgName.toList ++ '-' :: v.lvName.toList = u.vgName.toList ++ '-' :: u.lvName.toList := by
    rw [← String.toList_inj]
    simp only [deviceFile, String.toList_append, List.append_assoc, List.append_cancel_left_eq]
    rfl
  have hid : v.id = u.id ↔
      v.vgName.toList = u.vgName.toList ∧ v.lvName.toList = u.lvName.toList := by
    rw [String.toList_inj, String.toList_inj, id, id, Prod.mk.injEq]
  rw [hpath, hid, overlaps_iff, overlaps_iff, Delimited.append_cons_eq_append_cons_iff]

theorem vgName_ne_of_overlaps (h : v.Overlaps u) : v.vgName ≠ u.vgName := by
  intro heq
  rcases overlaps_iff.mp h with ⟨mid, hvg, _⟩
  rw [heq] at hvg
  have hlength := congrArg List.length hvg
  rw [List.length_append, List.length_cons] at hlength
  omega

theorem id_ne_of_overlaps (h : v.Overlaps u) : v.id ≠ u.id :=
  fun hid => vgName_ne_of_overlaps h (congrArg Prod.fst hid)

theorem deviceFile_inj_iff :
    (v.deviceFile = u.deviceFile → v.id = u.id) ↔ ¬ v.Overlaps u ∧ ¬ u.Overlaps v := by
  rw [deviceFile_eq_iff]
  constructor
  · intro h
    constructor
    · intro hover
      exact id_ne_of_overlaps hover (h (Or.inr (Or.inl hover)))
    · intro hover
      exact id_ne_of_overlaps hover (h (Or.inr (Or.inr hover))).symm
  · intro h hpath
    rcases hpath with hid | hover | hover
    · exact hid
    · exact absurd hover h.1
    · exact absurd hover h.2

end Volume

theorem device_resizeStep (slot : Option Slot) (needed : Option Nat) :
    (Runtime.resizeStep slot needed).filterMap Step.device = [] := by
  unfold Runtime.resizeStep
  split
  · split <;> rfl
  · rfl

/-- An install writes and flushes the two volumes of its pair, by their device paths. -/
theorem devices_install {rt : Runtime} {m : Manifest} {source : String} {v : Version} {r t : Slot}
    {pre : List Step} (active : SlotGroup) (h : rt.Picks m r t pre) :
    (pre ++ (writeSteps m source r t ++ (commitSteps m source v r t ++
        migrationSteps active))).filterMap Step.device =
      [r.volume, t.volume, r.volume, t.volume] := by
  have hpre : pre.filterMap Step.device = [] := by
    cases h with
    | spare =>
        rw [List.filterMap_append, device_resizeStep, device_resizeStep]
        rfl
    | create => rfl
  have hmigration : (migrationSteps active).filterMap Step.device = [] := by
    unfold migrationSteps
    split <;> rfl
  rw [List.filterMap_append, List.filterMap_append, List.filterMap_append, hpre, hmigration]
  rfl

/-- The exact condition under which a device path stands for one volume: of two pairs of
names, and of the pair that an install writes among the volumes listed. -/
theorem devicePaths_identify_iff (v u : Volume) :
    ((v.deviceFile = u.deviceFile → v.id = u.id) ↔ ¬ v.Overlaps u ∧ ¬ u.Overlaps v) ∧
      ∀ volumes cmdline items rt m source plan,
        Runtime.new volumes cmdline items = .ok rt → Plan.install rt m source = .ok plan →
          plan.steps = [] ∨ ∃ r t pre, rt.Picks m r t pre ∧
            plan.steps.filterMap Step.device = [r.volume, t.volume, r.volume, t.volume] ∧
            ((∀ v ∈ [r.volume, t.volume], ∀ u ∈ volumes,
                v.deviceFile = u.deviceFile → v.id = u.id) ↔
              ∀ v ∈ [r.volume, t.volume], ∀ u ∈ volumes,
                ¬ v.Overlaps u ∧ ¬ u.Overlaps v) := by
  constructor
  · exact Volume.deviceFile_inj_iff
  · intro volumes cmdline items rt m source plan hrt hplan
    rcases Runtime.new_eq_ok_iff.mp hrt with ⟨_, kernel, _, rfl⟩
    rcases install_steps hplan with hnil | ⟨v, r, t, pre, active, hpicks, hsteps⟩
    · exact Or.inl hnil
    · refine Or.inr ⟨r, t, pre, hpicks, ?_, ?_⟩
      · rw [hsteps]
        exact devices_install active hpicks
      · simp only [Volume.deviceFile_inj_iff]

def hyphenVolumes : List Volume :=
  ⟨"a-root_empty", "pool", some 5⟩ ::
    ["root_0", "root_empty", "verity_0", "verity_empty"].map fun name => ⟨name, "pool-a", some 5⟩

def hyphenRuntime : Runtime := Runtime.listed hyphenVolumes [] legacyKernel

def hyphenSlot (k : Kind) : Slot :=
  ⟨k, .empty .legacy, ⟨Slot.displayName k (.empty .legacy), "pool-a", some 5⟩⟩

def hyphenPlan : Plan :=
  ⟨writeSteps sampleManifest "/sysupdate" (hyphenSlot .root) (hyphenSlot .verity) ++
    (commitSteps sampleManifest "/sysupdate" sampleVersion (hyphenSlot .root)
      (hyphenSlot .verity) ++ [.loaderDefault "/boot", .removeSelection "/boot", .setDefault])⟩

/-- The root image is written to a path that is also that of a foreign volume. -/
theorem hyphenPlan_writes_foreign_path :
    (∀ v ∈ hyphenVolumes, v.Valid) ∧
      Runtime.new hyphenVolumes "root=fstab" [] = .ok hyphenRuntime ∧
      Plan.install hyphenRuntime sampleManifest "/sysupdate" = .ok hyphenPlan ∧
      hyphenRuntime.volumes = [⟨"a-root_empty", "pool", some 5⟩] ∧
      (hyphenPlan.steps.map Step.pipeline).head?.map Pipeline.stages =
        some [⟨"zstdcat", ["/sysupdate/ghaf_root_25.12.1_44cc41b403a2d323.raw.zst"]⟩,
          ⟨"dd", ["of=/dev/mapper/pool-a-root_empty", "bs=4M", "status=progress"]⟩] ∧
      (⟨"a-root_empty", "pool", some 5⟩ : Volume).deviceFile =
        "/dev/mapper/pool-a-root_empty" := by
  decide +kernel

end GhafGivc.Image
