import GhafGivc.Image.Inventory

/-! # The shape of install and remove plans

An install prepares an empty pair of volumes, writes the two images, and then
commits: both volumes are renamed and the UKI is written. A removal unlinks boot
entries and renames the volumes to an empty identifier.
-/

namespace GhafGivc.Image

open Core SlotGroup

theorem emptyName_eq (k : Kind) (id : String) :
    k.display ++ "_empty_" ++ id = Slot.displayName k (.empty (.known id)) :=
  String.append_assoc

def createdSlot (k : Kind) (vg id : String) (size : Nat) : Slot :=
  ⟨k, .empty (.known id), ⟨Slot.displayName k (.empty (.known id)), vg, some size⟩⟩

def createStep (k : Kind) (vg id : String) (size : Nat) : Step :=
  .lvcreate vg (Slot.displayName k (.empty (.known id))) size

theorem createVolume_eq_ok {vg id : String} {k : Kind} {manifestSize activeSize : Option Nat}
    {slot : Slot} {step : Step} (hid : (Status.empty (.known id)).Plain) :
    Runtime.createVolume vg id k.display manifestSize activeSize = .ok (slot, step) ↔
      ∃ size, manifestSize.or activeSize = some size ∧ slot = createdSlot k vg id size ∧
        step = createStep k vg id size := by
  have hslot : ∀ size, (Slot.fromVolumes [⟨k.display ++ "_empty_" ++ id, vg, some size⟩]).1.head? =
      some (createdSlot k vg id size) := by
    intro size
    rw [Slot.fromVolumes_fst, emptyName_eq]
    simp [Slot.ofVolume, Slot.decodeStatus_displayName hid, createdSlot]
  unfold Runtime.createVolume
  simp only [hslot, Outcome.bind_eq_ok, Outcome.context_eq_ok]
  constructor
  · rintro ⟨size, hsize, _, hs, h⟩
    obtain rfl := Option.some.inj hs
    obtain ⟨rfl, rfl⟩ := Prod.mk.inj (Outcome.ok.inj h)
    exact ⟨size, hsize, rfl, by rw [createStep, emptyName_eq]⟩
  · rintro ⟨size, hsize, rfl, rfl⟩
    exact ⟨size, hsize, _, rfl, by rw [createStep, ← emptyName_eq]; rfl⟩

/-- The two volumes an install works on, their common status, and the steps that
prepare them. -/
inductive Chosen (w : World) (kernel : KernelParams) (m : Manifest) :
    Status → Slot → Slot → List Step → Prop
  | reuse {s : Status} {r t : Slot} (empty : s.isEmpty = true)
      (spare : (w.runtimeOf kernel).spareSlot = some (w.group s))
      (root : w.slot .root s = some r) (verity : w.slot .verity s = some t) :
      Chosen w kernel m s r t (Runtime.resizeStepsForSlot (w.group s) m)
  | create {active : SlotGroup} {ar av : Slot} {id : String} {rs vs : Nat}
      (spare : (w.runtimeOf kernel).spareSlot = none)
      (hactive : (w.runtimeOf kernel).activeSlot = .ok active)
      (root : active.root = some ar) (verity : active.verity = some av)
      (alloc : (w.runtimeOf kernel).allocateEmptyIdentifier = .ok id)
      (rootSize : m.store.unpackedSize.or ar.volume.lvSizeBytes = some rs)
      (veritySize : m.verity.unpackedSize.or av.volume.lvSizeBytes = some vs) :
      Chosen w kernel m (.empty (.known id)) (createdSlot .root ar.volume.vgName id rs)
        (createdSlot .verity ar.volume.vgName id vs)
        [createStep .root ar.volume.vgName id rs, createStep .verity ar.volume.vgName id vs]

section Select

variable {w : World} {kernel : KernelParams} {m : Manifest} {g : SlotGroup} {pre : List Step}

theorem createEmptySlot_eq_ok {rt : Runtime} :
    rt.createEmptySlot m = .ok (g, pre) ↔
      ∃ active ar av id rs vs, rt.activeSlot = .ok active ∧
        active.root = some ar ∧ active.verity = some av ∧
        rt.allocateEmptyIdentifier = .ok id ∧
        m.store.unpackedSize.or ar.volume.lvSizeBytes = some rs ∧
        m.verity.unpackedSize.or av.volume.lvSizeBytes = some vs ∧
        g = ⟨some (createdSlot .root ar.volume.vgName id rs),
          some (createdSlot .verity ar.volume.vgName id vs), none⟩ ∧
        pre = [createStep .root ar.volume.vgName id rs,
          createStep .verity ar.volume.vgName id vs] := by
  unfold Runtime.createEmptySlot
  simp only [Outcome.bind_eq_ok, Outcome.context_eq_ok]
  constructor
  · rintro ⟨active, hactive, ar, har, av, hav, id, hid, ⟨root, rstep⟩, hroot, ⟨verity, vstep⟩,
      hverity, h⟩
    have hplain := (Runtime.allocateEmptyIdentifier_spec hid).1
    obtain ⟨rs, hrs, rfl, rfl⟩ := (createVolume_eq_ok (k := .root) hplain).mp hroot
    obtain ⟨vs, hvs, rfl, rfl⟩ := (createVolume_eq_ok (k := .verity) hplain).mp hverity
    obtain ⟨rfl, rfl⟩ := Prod.mk.inj (Outcome.ok.inj h)
    exact ⟨active, ar, av, id, rs, vs, hactive, har, hav, hid, hrs, hvs, rfl, rfl⟩
  · rintro ⟨active, ar, av, id, rs, vs, hactive, har, hav, hid, hrs, hvs, rfl, rfl⟩
    have hplain := (Runtime.allocateEmptyIdentifier_spec hid).1
    refine ⟨active, hactive, ar, har, av, hav, id, hid, _,
      (createVolume_eq_ok (k := .root) hplain).mpr ⟨rs, hrs, rfl, rfl⟩, _,
      (createVolume_eq_ok (k := .verity) hplain).mpr ⟨vs, hvs, rfl, rfl⟩, rfl⟩

theorem attachUki_of_none (r t : Option Slot) (u : UkiEntry) :
    attachUki ⟨r, t, none⟩ u = .ok ⟨r, t, some (BootEntry.ofUki u)⟩ := rfl

theorem group_of_spare (h : (w.runtimeOf kernel).spareSlot = some g) :
    ∃ s r t, s.isEmpty = true ∧ w.slot .root s = some r ∧ w.slot .verity s = some t ∧
      g = w.group s ∧ g = ⟨some r, some t, none⟩ := by
  obtain ⟨s, hs, hr, hv, rfl⟩ := World.spareSlot_eq_some h
  obtain ⟨r, hr⟩ := Option.isSome_iff_exists.mp (World.slot_isSome.mpr hr)
  obtain ⟨t, ht⟩ := Option.isSome_iff_exists.mp (World.slot_isSome.mpr hv)
  refine ⟨s, r, t, hs, hr, ht, rfl, ?_⟩
  have hboot : bootFor w.slots w.names.ukis s = none :=
    bootFor_eq_none_of_isEmpty Names.ukis_managed hs
  simp only [World.slot] at hr ht
  simp [World.group, row, hr, ht, hboot]

/-- Slot selection: nothing to do when the version is present, else a chosen pair. -/
theorem selectUpdateSlot_eq_ok {selection : SlotSelection} :
    (w.runtimeOf kernel).selectUpdateSlot m = .ok selection ↔
      ∃ v, m.toVersion = .ok v ∧
        ((w.names.Installed v ∧ selection = .alreadyInstalled) ∨
          (¬ w.names.Installed v ∧ ∃ s r t pre, Chosen w kernel m s r t pre ∧
            selection = .selected ⟨some r, some t, some (BootEntry.ofUki ⟨v, none⟩)⟩ pre)) := by
  unfold Runtime.selectUpdateSlot
  rw [Outcome.bind_eq_ok]
  refine exists_congr fun v => and_congr_right fun _ => ?_
  simp only [World.installed_iff]
  by_cases hinst : w.names.Installed v
  · simp [hinst, eq_comm]
  · simp only [hinst, if_false, false_and, false_or, not_false_eq_true, true_and]
    cases hspare : (w.runtimeOf kernel).spareSlot with
    | some g =>
        obtain ⟨s, r, t, hs, hr, ht, hg, hg'⟩ := group_of_spare hspare
        subst hg
        simp only [hg', attachUki_of_none, Outcome.ok_bind, Outcome.pure_eq, Outcome.ok.injEq]
        constructor
        · rintro rfl
          rw [← hg']
          exact ⟨s, r, t, _, .reuse hs hspare hr ht, rfl⟩
        · rintro ⟨s', r', t', pre, hc, rfl⟩
          rw [← hg']
          cases hc with
          | reuse hs' hspare' hr' ht' =>
              have hs := World.slot_isSome.mp (Option.isSome_of_mem hr)
              obtain rfl := World.group_inj hs (Option.some.inj (hspare.symm.trans hspare'))
              rw [Option.some.inj (hr'.symm.trans hr), Option.some.inj (ht'.symm.trans ht)]
          | create hspare' => simp [hspare] at hspare'
    | none =>
        simp only [Outcome.bind_eq_ok]
        constructor
        · rintro ⟨⟨g, pre⟩, hcreate, slot, hslot, h⟩
          obtain ⟨active, ar, av, id, rs, vs, hactive, har, hav, hid, hrs, hvs, rfl, rfl⟩ :=
            createEmptySlot_eq_ok.mp hcreate
          obtain rfl := Outcome.ok.inj ((attachUki_of_none _ _ _).symm.trans hslot)
          exact ⟨_, _, _, _, .create hspare hactive har hav hid hrs hvs, (Outcome.ok.inj h).symm⟩
        · rintro ⟨s, r, t, pre, hc, rfl⟩
          cases hc with
          | reuse _ hspare' => simp [hspare] at hspare'
          | create _ hactive har hav hid hrs hvs =>
              exact ⟨_, createEmptySlot_eq_ok.mpr ⟨_, _, _, _, _, _, hactive, har, hav, hid, hrs,
                hvs, rfl, rfl⟩, _, rfl, rfl⟩

theorem Chosen.slots {s : Status} {r t : Slot} (h : Chosen w kernel m s r t pre) :
    s.isEmpty = true ∧ r.kind = .root ∧ r.status = s ∧ t.kind = .verity ∧ t.status = s := by
  cases h with
  | reuse hs _ hr ht =>
      obtain ⟨hrk, hrs, _⟩ := World.slot_spec hr
      obtain ⟨htk, hts, _⟩ := World.slot_spec ht
      exact ⟨hs, hrk, hrs, htk, hts⟩
  | create => exact ⟨rfl, rfl, rfl, rfl, rfl⟩

end Select

/-! ## Install plans -/

def writeSteps (m : Manifest) (source : String) (r t : Slot) : List Step :=
  [.installVolume r.volume m.store source, .installVolume t.volume m.verity source,
    .finalizeFlush r.volume, .finalizeFlush t.volume]

def renameStep (k : Kind) (r : Slot) (s : Status) : Step :=
  .lvrename r.volume.vgName r.volume.lvName (Slot.displayName k s)

def commitSteps (m : Manifest) (source : String) (v : Version) (r t : Slot) : List Step :=
  [renameStep .root r (.used v), renameStep .verity t (.used v),
    .installUki m.kernel "/boot" source (UkiEntry.display ⟨v, none⟩)]

def migrationSteps (active : SlotGroup) : List Step :=
  if active.isLegacy then [.loaderDefault "/boot", .removeSelection "/boot", .setDefault] else []

section Install

variable {w : World} {kernel : KernelParams} {m : Manifest} {source : String} {plan : Plan}

theorem installIntoSlot_eq_ok {rt : Runtime} {v : Version} {r t : Slot} (hboot : rt.boot = "/boot")
    (hv : m.toVersion = .ok v)
    (hr : r.status.isEmpty = true) (ht : t.status.isEmpty = true) (hrk : r.kind = .root)
    (htk : t.kind = .verity) :
    Plan.installIntoSlot rt m
        ⟨some r, some t, some (BootEntry.ofUki ⟨v, none⟩)⟩ source = .ok plan ↔
      ∃ active, rt.activeSlot = .ok active ∧
        plan.steps = writeSteps m source r t ++ (commitSteps m source v r t ++
          migrationSteps active) := by
  have into : ∀ x : Slot, x.status.isEmpty = true →
      x.intoVersion v = .ok { x with status := .used v } := by
    intro x hx
    simp [Slot.intoVersion, Slot.isUsed, hx, Outcome.ensure]
  have huki : Plan.installUki ⟨some r, some t, some (BootEntry.ofUki ⟨v, none⟩)⟩ m.kernel
      rt.boot source =
        .ok (.installUki m.kernel "/boot" source (UkiEntry.display ⟨v, none⟩)) := by
    rw [hboot]
    rfl
  simp only [Plan.installIntoSlot, Outcome.context, Outcome.ok_bind, hv, into r hr, into t ht,
    huki]
  rw [Outcome.bind_eq_ok]
  refine exists_congr fun active => and_congr_right fun _ => ?_
  obtain ⟨steps⟩ := plan
  rw [Outcome.pure_eq, Outcome.ok.injEq, Plan.mk.injEq, eq_comm]
  simp only [writeSteps, commitSteps, migrationSteps, renameStep, Slot.rename, Slot.display, hrk,
    htk, Plan.legacyBootloaderMigration, hboot]
  rfl

theorem install_eq_ok :
    Plan.install (w.runtimeOf kernel) m source = .ok plan ↔
      ∃ v, m.toVersion = .ok v ∧
        ((w.names.Installed v ∧ plan.steps = []) ∨
          (¬ w.names.Installed v ∧ ∃ s r t pre active, Chosen w kernel m s r t pre ∧
            (w.runtimeOf kernel).activeSlot = .ok active ∧
            plan.steps = pre ++ (writeSteps m source r t ++ (commitSteps m source v r t ++
              migrationSteps active)))) := by
  obtain ⟨steps⟩ := plan
  simp only [Plan.install, Outcome.bind_eq_ok, selectUpdateSlot_eq_ok]
  constructor
  · rintro ⟨selection, ⟨v, hv, ⟨hinst, rfl⟩ | ⟨hinst, s, r, t, pre, hc, rfl⟩⟩, h⟩
    · exact ⟨v, hv, Or.inl ⟨hinst, (Plan.mk.inj (Outcome.ok.inj h)).symm⟩⟩
    · obtain ⟨hs, hrk, rfl, htk, hts⟩ := hc.slots
      obtain ⟨plan, hplan, h⟩ := Outcome.bind_eq_ok.mp h
      obtain ⟨active, hactive, hsteps⟩ :=
        (installIntoSlot_eq_ok rfl hv hs (by rw [hts, hs]) hrk htk).mp hplan
      rw [hsteps] at h
      exact ⟨v, hv, Or.inr ⟨hinst, _, r, t, pre, active, hc, hactive,
        (Plan.mk.inj (Outcome.ok.inj h)).symm⟩⟩
  · rintro ⟨v, hv, ⟨hinst, rfl⟩ | ⟨hinst, s, r, t, pre, active, hc, hactive, rfl⟩⟩
    · exact ⟨.alreadyInstalled, ⟨v, hv, Or.inl ⟨hinst, rfl⟩⟩, rfl⟩
    · refine ⟨_, ⟨v, hv, Or.inr ⟨hinst, s, r, t, pre, hc, rfl⟩⟩, ?_⟩
      obtain ⟨hs, hrk, rfl, htk, hts⟩ := hc.slots
      have hplan : Plan.installIntoSlot (w.runtimeOf kernel) m
          ⟨some r, some t, some (BootEntry.ofUki ⟨v, none⟩)⟩ source = .ok ⟨_⟩ :=
        (installIntoSlot_eq_ok rfl hv hs (by rw [hts, hs]) hrk htk).mpr ⟨active, hactive, rfl⟩
      exact Outcome.bind_eq_ok.mpr ⟨_, hplan, rfl⟩

end Install

section Remove

variable {rt : Runtime} {g : SlotGroup} {v : Version} {plan : Plan}

theorem findSlotGroup_eq_ok :
    rt.findSlotGroup v = .ok g ↔
      rt.slotgroups.filter (·.version = some v) = [g] ∨
        (rt.slotgroups.filter (·.version = some v) = [] ∧ v.hasHash = false ∧
          rt.slotgroups.filter (Runtime.hasHashedRevision v.revision) = [g]) := by
  unfold Runtime.findSlotGroup
  rw [Outcome.bind_eq_ok]
  constructor
  · rintro ⟨exact, he, h⟩
    cases exact with
    | some g' =>
        obtain rfl := Outcome.ok.inj h
        exact Or.inl (World.findExactOneGroup_eq_some.mp he)
    | none =>
        refine Or.inr ⟨World.findExactOneGroup_eq_none.mp he, ?_⟩
        cases hh : v.hasHash with
        | true => simp [hh, Outcome.context] at h
        | false =>
            simp only [hh, if_neg Bool.false_ne_true] at h
            obtain ⟨fallback, hf, h⟩ := Outcome.bind_eq_ok.mp h
            rw [Outcome.context_eq_ok.mp h] at hf
            exact ⟨rfl, World.findExactOneGroup_eq_some.mp hf⟩
  · rintro (h | ⟨h, hh, hf⟩)
    · exact ⟨some g, World.findExactOneGroup_eq_some.mpr h, rfl⟩
    · refine ⟨none, World.findExactOneGroup_eq_none.mpr h, ?_⟩
      simp [hh, World.findExactOneGroup_eq_some.mpr hf, Outcome.context]

theorem findSlotGroup_spec (h : rt.findSlotGroup v = .ok g) :
    g ∈ rt.slotgroups ∧ ∃ v', g.version = some v' ∧ v'.revision = v.revision := by
  rcases findSlotGroup_eq_ok.mp h with h | ⟨_, _, h⟩
  · obtain ⟨hg, hv⟩ := List.mem_filter.mp (h ▸ List.mem_singleton_self g)
    exact ⟨hg, v, by simpa using hv, rfl⟩
  · obtain ⟨hg, hv⟩ := List.mem_filter.mp (h ▸ List.mem_singleton_self g)
    cases hgv : g.version with
    | none => simp [Runtime.hasHashedRevision, hgv] at hv
    | some v' =>
        simp only [Runtime.hasHashedRevision, hgv, Option.any_some, Bool.and_eq_true,
          decide_eq_true_eq] at hv
        exact ⟨hg, v', rfl, hv.1⟩

theorem emptyId_eq_none_of_version (h : g.version = some v) : g.emptyId = none := by
  obtain ⟨root, verity, boot⟩ := g
  have hstatus : ∀ s : Status, s.version = some v → s.emptyId = none := by
    intro s hs
    rw [Status.eq_used_of_version hs]
    rfl
  cases root with
  | some r => exact hstatus r.status h
  | none =>
      cases verity with
      | some t => exact hstatus t.status h
      | none => rfl

theorem remove_eq_ok :
    Plan.remove rt v = .ok plan ↔
      ∃ g id, rt.findSlotGroup v = .ok g ∧ g.isActive rt.kernel = false ∧
        rt.allocateEmptyIdentifier = .ok id ∧
        plan.steps = Plan.unlinkSteps rt g ++ Plan.renameSlotToEmpty g id := by
  obtain ⟨steps⟩ := plan
  simp only [Plan.remove, Outcome.bind_eq_ok, Outcome.ensure_eq_ok, Bool.not_eq_true']
  constructor
  · rintro ⟨g, hg, _, hact, id, hid, h⟩
    obtain ⟨_, v', hv', _⟩ := findSlotGroup_spec hg
    rw [Plan.removalId, emptyId_eq_none_of_version hv'] at hid
    exact ⟨g, id, hg, hact, hid, (Plan.mk.inj (Outcome.ok.inj h)).symm⟩
  · rintro ⟨g, id, hg, hact, hid, rfl⟩
    obtain ⟨_, v', hv', _⟩ := findSlotGroup_spec hg
    refine ⟨g, hg, (), hact, id, ?_, rfl⟩
    rw [Plan.removalId, emptyId_eq_none_of_version hv']
    exact hid

def unlinkIds (rt : Runtime) (g : SlotGroup) : List String :=
  (g.boot.toList ++ if g.isLegacy then rt.bootEntries.filter BootEntry.isLegacy else []).map
    BootEntry.id

theorem unlinkSteps_eq (rt : Runtime) (g : SlotGroup) :
    Plan.unlinkSteps rt g = (unlinkIds rt g).map Step.unlink := by
  have hremove : BootEntry.toRemove = Step.unlink ∘ BootEntry.id := rfl
  unfold Plan.unlinkSteps unlinkIds
  cases g.isLegacy <;> simp [hremove]

theorem renameToEmpty_some (k : Kind) (r : Slot) (id : String) :
    Plan.renameToEmpty k.display id (some r) = [renameStep k r (.empty (.known id))] := by
  rw [Plan.renameToEmpty, emptyName_eq]
  rfl

theorem renameSlotToEmpty_group {w : World} {s : Status} {r t : Slot} {id : String}
    (hr : w.slot .root s = some r) (ht : w.slot .verity s = some t) :
    Plan.renameSlotToEmpty (w.group s) id =
      [renameStep .root r (.empty (.known id)), renameStep .verity t (.empty (.known id))] := by
  have hroot : (w.group s).root = some r := hr
  have hverity : (w.group s).verity = some t := ht
  rw [Plan.renameSlotToEmpty, hroot, hverity]
  exact congrArg₂ (· ++ ·) (renameToEmpty_some .root r id) (renameToEmpty_some .verity t id)

end Remove

section Effects

variable {n : Names} {r t : Slot} {s : Status} {w : World}

/-- The volumes of `r` and `t` are there, as the two halves of status `s`. -/
structure Names.Pair (n : Names) (s : Status) (r t : Slot) : Prop where
  nodup : n.keys.Nodup
  root : r.volume.id ∈ n.ids
  rootKey : nameKey r.volume.id = some (.root, s)
  verity : t.volume.id ∈ n.ids
  verityKey : nameKey t.volume.id = some (.verity, s)

theorem World.pair (nodup : w.names.keys.Nodup) (hr : w.slot .root s = some r)
    (ht : w.slot .verity s = some t) : w.names.Pair s r t :=
  ⟨nodup, slot_id_mem hr, (slot_spec hr).2.2.2, slot_id_mem ht, (slot_spec ht).2.2.2⟩

theorem mem_keys_of_both {n₁ n₂ : Names} {s s' : Status}
    (h₁ : ∀ c, c ∈ n₁.keys ↔ c = (Kind.root, s') ∨ (c ∈ n.keys ∧ c ≠ (Kind.root, s)))
    (h₂ : ∀ c, c ∈ n₂.keys ↔ c = (Kind.verity, s') ∨ (c ∈ n₁.keys ∧ c ≠ (Kind.verity, s)))
    (c : Kind × Status) : c ∈ n₂.keys ↔ c.2 = s' ∨ (c ∈ n.keys ∧ c.2 ≠ s) := by
  obtain ⟨k, u⟩ := c
  rw [h₂, h₁]
  cases k <;> simp

theorem Names.Pair.rename {s s' : Status} (h : n.Pair s r t) (plain : s'.Plain)
    (fresh : ∀ k, (k, s') ∉ n.keys) :
    ∃ n', n.execAll [renameStep .root r s', renameStep .verity t s'] = some n' ∧
      n'.esp = n.esp ∧ n'.keys.Nodup ∧
      ∀ c, c ∈ n'.keys ↔ c.2 = s' ∨ (c ∈ n.keys ∧ c.2 ≠ s) := by
  obtain ⟨n₁, h₁, hids₁, hnodup₁, hkeys₁, hesp₁⟩ :=
    Names.exec_lvrename h.nodup h.root h.rootKey plain (fresh .root)
  have hne : t.volume.id ≠ r.volume.id := by
    intro e
    have hkey := h.rootKey.symm.trans (e ▸ h.verityKey)
    cases hkey
  have ht₁ : t.volume.id ∈ n₁.ids := by
    rw [hids₁]
    exact List.mem_map.mpr ⟨_, h.verity, if_neg hne⟩
  have hfresh₁ : (Kind.verity, s') ∉ n₁.keys := by
    rw [hkeys₁]
    rintro (h | ⟨h, _⟩)
    · cases h
    · exact fresh .verity h
  obtain ⟨n₂, h₂, _, hnodup₂, hkeys₂, hesp₂⟩ :=
    Names.exec_lvrename hnodup₁ ht₁ h.verityKey plain hfresh₁
  exact ⟨n₂, (run_cons_of_some _ h₁).trans (run_cons_of_some _ h₂), hesp₂.trans hesp₁, hnodup₂,
    mem_keys_of_both hkeys₁ hkeys₂⟩

theorem exec_createPair {id : String} (vg : String) (rs vs : Nat) (nodup : n.keys.Nodup)
    (plain : (Status.empty (.known id)).Plain)
    (fresh : ∀ k, (k, Status.empty (.known id)) ∉ n.keys) :
    ∃ n', n.execAll [createStep .root vg id rs, createStep .verity vg id vs] = some n' ∧
      n'.Pair (.empty (.known id)) (createdSlot .root vg id rs) (createdSlot .verity vg id vs) ∧
      n'.esp = n.esp ∧ ∀ c, c ∈ n'.keys ↔ c ∈ n.keys ∨ c.2 = .empty (.known id) := by
  obtain ⟨n₁, h₁, hids₁, hkeys₁, hesp₁⟩ := Names.exec_lvcreate vg rs plain (fresh .root)
  have hfresh₁ : (Kind.verity, Status.empty (.known id)) ∉ n₁.keys := by
    simpa [hkeys₁] using fresh .verity
  obtain ⟨n₂, h₂, hids₂, hkeys₂, hesp₂⟩ := Names.exec_lvcreate vg vs plain hfresh₁
  have hnodup : n₂.keys.Nodup := by
    rw [hkeys₂, ← List.concat_eq_append]
    refine List.Nodup.concat hfresh₁ ?_
    rw [hkeys₁, ← List.concat_eq_append]
    exact nodup.concat (fresh .root)
  refine ⟨n₂, (run_cons_of_some _ h₁).trans (run_cons_of_some _ h₂),
    ⟨hnodup, ?_, nameKey_displayName plain, ?_, nameKey_displayName plain⟩, hesp₂.trans hesp₁, ?_⟩
  · simp [hids₂, hids₁, createdSlot, Volume.id]
  · simp [hids₂, createdSlot, Volume.id]
  · rintro ⟨k, u⟩
    rw [hkeys₂, hkeys₁]
    cases k <;> simp [or_comm]

theorem keeps_resizeStep {slot : Option Slot} {needed : Option Nat}
    (h : ∀ r ∈ slot, r.volume.id ∈ n.ids) :
    ∀ step ∈ Runtime.resizeStep slot needed, n.Keeps step := by
  intro step hstep
  match slot, needed, h with
  | some r, some size, h =>
      simp only [Runtime.resizeStep] at hstep
      split at hstep
      · rw [List.mem_singleton.mp hstep]
        exact h r rfl
      · cases hstep
  | some _, none, _ => cases hstep
  | none, _, _ => cases hstep

theorem keeps_resizeStepsForSlot (s : Status) (m : Manifest) :
    ∀ step ∈ Runtime.resizeStepsForSlot (w.group s) m, w.names.Keeps step := by
  intro step hstep
  rcases List.mem_append.mp hstep with hstep | hstep
  · exact keeps_resizeStep (fun _ h => World.slot_id_mem h) step hstep
  · exact keeps_resizeStep (fun _ h => World.slot_id_mem h) step hstep

theorem Names.Pair.keeps_writeSteps (h : n.Pair s r t) (m : Manifest) (source : String) :
    ∀ step ∈ writeSteps m source r t, n.Keeps step := by
  intro step hstep
  simp only [writeSteps, List.mem_cons, List.not_mem_nil, or_false] at hstep
  rcases hstep with rfl | rfl | rfl | rfl
  · exact h.root
  · exact h.verity
  · exact h.root
  · exact h.verity

theorem keeps_migrationSteps (active : SlotGroup) :
    ∀ step ∈ migrationSteps active, n.Keeps step := by
  intro step hstep
  unfold migrationSteps at hstep
  split at hstep
  · simp only [List.mem_cons, List.not_mem_nil, or_false] at hstep
    rcases hstep with rfl | rfl | rfl <;> trivial
  · cases hstep

theorem Chosen.prepare {kernel : KernelParams} {m : Manifest} {pre : List Step}
    (h : Chosen w kernel m s r t pre) (nodup : w.names.keys.Nodup) :
    ∃ n, w.names.execAll pre = some n ∧ n.Pair s r t ∧ n.esp = w.names.esp ∧
      ∀ c, c ∈ n.keys ↔ c ∈ w.names.keys ∨ c.2 = s := by
  cases h with
  | reuse hs hspare hr ht =>
      refine ⟨w.names, Names.execAll_of_keeps (keeps_resizeStepsForSlot s m),
        World.pair nodup hr ht, rfl, ?_⟩
      have hkr := World.slot_isSome.mp (Option.isSome_of_mem hr)
      have hkt := World.slot_isSome.mp (Option.isSome_of_mem ht)
      rintro ⟨k, u⟩
      constructor
      · exact Or.inl
      · rintro (h | rfl)
        · exact h
        · cases k
          · exact hkr
          · exact hkt
  | create hspare hactive har hav halloc hrs hvs =>
      obtain ⟨plain, fresh⟩ := World.allocateEmptyIdentifier_fresh halloc
      obtain ⟨n, hrun, hpair, hesp, hkeys⟩ := exec_createPair _ _ _ nodup plain fresh
      exact ⟨n, hrun, hpair, hesp, hkeys⟩

theorem Names.Pair.commit {m : Manifest} {v : Version} (source : String) (h : n.Pair s r t)
    (plain : (Status.used v).Plain) (fresh : ∀ k, (k, Status.used v) ∉ n.keys) :
    ∃ n', n.execAll (commitSteps m source v r t) = some n' ∧
      n'.esp = n.esp.install (UkiEntry.display ⟨v, none⟩) ∧ n'.keys.Nodup ∧
      ∀ c, c ∈ n'.keys ↔ c.2 = .used v ∨ (c ∈ n.keys ∧ c.2 ≠ s) := by
  obtain ⟨n₁, h₁, hesp₁, hnodup₁, hkeys₁⟩ := h.rename plain fresh
  refine ⟨{ n₁ with esp := n₁.esp.install (UkiEntry.display ⟨v, none⟩) }, ?_, by rw [hesp₁],
    hnodup₁, hkeys₁⟩
  exact (Names.execAll_append h₁ [_]).trans rfl

section Complete

variable {w : World} {kernel : KernelParams} {m : Manifest} {s : Status} {r t : Slot}
  {pre : List Step} {v : Version}

theorem Chosen.ne_used (h : Chosen w kernel m s r t pre) : s ≠ .used v := by
  rintro rfl
  exact Bool.false_ne_true h.slots.1

theorem Chosen.written (source : String) (h : Chosen w kernel m s r t pre)
    (nodup : w.names.keys.Nodup) (fresh : ∀ k, (k, Status.used v) ∉ w.names.keys) :
    ∃ n, w.names.execAll (pre ++ writeSteps m source r t) = some n ∧ n.Pair s r t ∧
      n.esp = w.names.esp ∧ (∀ k, (k, Status.used v) ∉ n.keys) ∧
      ∀ c, c.2 ≠ s → (c ∈ n.keys ↔ c ∈ w.names.keys) := by
  obtain ⟨n, hn, hpair, hesp, hkeys⟩ := h.prepare nodup
  refine ⟨n, ?_, hpair, hesp, fun k hk => ?_, fun c hc => ?_⟩
  · rw [Names.execAll_append hn, Names.execAll_of_keeps (hpair.keeps_writeSteps m source)]
  · rcases (hkeys _).mp hk with hk | hk
    · exact fresh k hk
    · exact h.ne_used hk.symm
  · rw [hkeys, or_iff_left hc]

/-- A version that is not there yet can be installed into the chosen pair. -/
theorem Chosen.complete (source : String) (active : SlotGroup)
    (h : Chosen w kernel m s r t pre) (nodup : w.names.keys.Nodup)
    (plain : (Status.used v).Plain) (fresh : ∀ k, (k, Status.used v) ∉ w.names.keys) :
    ∃ n, w.names.execAll (pre ++ (writeSteps m source r t ++ (commitSteps m source v r t ++
        migrationSteps active))) = some n ∧
      n.esp = w.names.esp.install (UkiEntry.display ⟨v, none⟩) ∧ n.keys.Nodup ∧
      ∀ c, c ∈ n.keys ↔ c.2 = .used v ∨ (c ∈ w.names.keys ∧ c.2 ≠ s) := by
  obtain ⟨n₁, h₁, hpair, hesp₁, hfresh₁, hkeys₁⟩ := h.written source nodup fresh
  obtain ⟨n₂, h₂, hesp₂, hnodup₂, hkeys₂⟩ := hpair.commit (m := m) source plain hfresh₁
  refine ⟨n₂, ?_, by rw [hesp₂, hesp₁], hnodup₂, fun c => ?_⟩
  · rw [← List.append_assoc, Names.execAll_append h₁, Names.execAll_append h₂]
    exact Names.execAll_of_keeps (keeps_migrationSteps active)
  · rw [hkeys₂, and_comm, and_comm (b := c.2 ≠ s)]
    exact or_congr_right (and_congr_right fun hc => hkeys₁ c hc)

theorem exec_removal {id : String} (nodup : w.names.keys.Nodup) (hr : w.slot .root s = some r)
    (ht : w.slot .verity s = some t)
    (halloc : (w.runtimeOf kernel).allocateEmptyIdentifier = .ok id) (ids : List String) :
    ∃ n, w.names.execAll (ids.map Step.unlink ++ Plan.renameSlotToEmpty (w.group s) id) = some n ∧
      (∀ b, b ∈ n.ukis ↔ b ∈ w.names.ukis ∧ b.id ∉ ids) ∧ n.keys.Nodup ∧
      ∀ c, c ∈ n.keys ↔ c.2 = .empty (.known id) ∨ (c ∈ w.names.keys ∧ c.2 ≠ s) := by
  obtain ⟨plain, fresh⟩ := World.allocateEmptyIdentifier_fresh halloc
  obtain ⟨n₁, h₁, hids₁, hukis₁⟩ := Names.execAll_unlink w.names ids
  have hkeys₁ : n₁.keys = w.names.keys := by rw [Names.keys, hids₁, Names.keys]
  have hpair := World.pair nodup hr ht
  have hpair₁ : n₁.Pair s r t := ⟨hkeys₁ ▸ nodup, hids₁ ▸ hpair.root, hpair.rootKey,
    hids₁ ▸ hpair.verity, hpair.verityKey⟩
  rw [← hkeys₁] at fresh ⊢
  obtain ⟨n₂, h₂, hesp₂, hnodup₂, hkeys₂⟩ := hpair₁.rename plain fresh
  refine ⟨n₂, ?_, fun b => by rw [Names.ukis_congr hesp₂, hukis₁], hnodup₂, hkeys₂⟩
  rw [Names.execAll_append h₁, renameSlotToEmpty_group hr ht]
  exact h₂

end Complete

end Effects

end GhafGivc.Image
