import GhafGivc.Image.Renames
import GhafGivc.Image.Targets

/-! # What a completed install leaves behind

The names change in one place: an empty status becomes the new version, which also
gets a UKI. Every group but the one of the empty status is read back as before. The
two volumes of the new group are followed through the steps for their size, and for
their content as far as the device paths tell them from the other volumes.
-/

namespace GhafGivc.Image

open Core SlotGroup

/-- The names of `w'` are those of `w` with the empty status `s` turned into the
version `v`, whose UKI is `b`; the slots of the other statuses are the same. -/
structure World.Replaced (w w' : World) (s : Status) (v : Version) (b : BootEntry) : Prop where
  readable : w.names.Readable
  nodup : w'.names.keys.Nodup
  empty : s.isEmpty = true
  fresh : ∀ k, (k, Status.used v) ∉ w.names.keys
  unclaimed : ∀ c ∈ w.names.ukis, c.version ≠ some v
  keys : ∀ c, c ∈ w'.names.keys ↔ c.2 = .used v ∨ (c ∈ w.names.keys ∧ c.2 ≠ s)
  ukis : ∀ c, c ∈ w'.names.ukis ↔ c = b ∨ c ∈ w.names.ukis
  version : b.version = some v
  slots : ∀ k u, u ≠ s → u ≠ .used v → w'.slot k u = w.slot k u

namespace World.Replaced

variable {w w' : World} {s u : Status} {v : Version} {b c : BootEntry} {kernel : KernelParams}

theorem key_iff (h : w.Replaced w' s v b) {k : Kind} (hs : u ≠ s) (hv : u ≠ .used v) :
    (k, u) ∈ w'.names.keys ↔ (k, u) ∈ w.names.keys := by
  rw [h.keys]
  constructor
  · intro hu
    rcases hu with hu | hu
    · exact absurd hu hv
    · exact hu.1
  · intro hu
    exact Or.inr ⟨hu, hs⟩

theorem used_ne (h : w.Replaced w' s v b) (x : Version) : Status.used x ≠ s := by
  intro e
  have hempty := h.empty
  rw [← e] at hempty
  cases hempty

theorem used_key (h : w.Replaced w' s v b) (k : Kind) : (k, Status.used v) ∈ w'.names.keys :=
  (h.keys _).mpr (Or.inl rfl)

theorem root_iff (h : w.Replaced w' s v b) {x : Version} (hx : x ≠ v) :
    (Kind.root, Status.used x) ∈ w'.names.keys ↔ (Kind.root, Status.used x) ∈ w.names.keys :=
  h.key_iff (h.used_ne x) fun e => hx (Status.used.inj e)

theorem readable' (h : w.Replaced w' s v b) : w'.names.Readable where
  nodup := h.nodup
  single := by
    intro c hc d hd x hcx hdx hkey
    by_cases hx : x = v
    · subst hx
      have only : ∀ e ∈ w'.names.ukis, e.version = some x → e = b := by
        intro e he hev
        rcases (h.ukis e).mp he with he | he
        · exact he
        · exact absurd hev (h.unclaimed e he)
      rw [only c hc hcx, only d hd hdx]
    · have old : ∀ e ∈ w'.names.ukis, e.version = some x → e ∈ w.names.ukis := by
        intro e he hev
        rcases (h.ukis e).mp he with he | he
        · rw [he, h.version] at hev
          exact absurd (Option.some.inj hev).symm hx
        · exact he
      exact h.readable.single c (old c hc hcx) d (old d hd hdx) x hcx hdx ((h.root_iff hx).mp hkey)

theorem group_eq (h : w.Replaced w' s v b) (hs : u ≠ s) (hv : u ≠ .used v) :
    w'.group u = w.group u := by
  refine group_congr h.readable h.readable' (fun k => h.slots k u hs hv) fun c hc => ?_
  rw [h.ukis]
  constructor
  · intro hmem
    rcases hmem with hmem | hmem
    · rw [hmem, h.version] at hc
      exact absurd (Status.eq_used_of_version hc.symm) hv
    · exact hmem
  · intro hmem
    exact Or.inr hmem

theorem isOrphan_eq (h : w.Replaced w' s v b) (hc : c ∈ w.names.ukis) :
    isOrphan w'.slots c = isOrphan w.slots c := by
  obtain ⟨y, _, hcy⟩ := Names.version_of_mem_ukis hc
  have hne : y.version ≠ v := fun e => h.unclaimed c hc (hcy.trans (congrArg some e))
  exact isOrphan_congr hcy (h.root_iff hne)

theorem isOrphan_new (h : w.Replaced w' s v b) : isOrphan w'.slots b = false :=
  (isOrphan_eq_false_iff_key h.version).mpr (h.used_key .root)

theorem mem_slotgroups_iff (h : w.Replaced w' s v b) {g : SlotGroup} :
    g ∈ (w'.runtimeOf kernel).slotgroups ↔
      g = w'.group (.used v) ∨
        (∃ k u, (k, u) ∈ w.names.keys ∧ u ≠ s ∧ w.group u = g) ∨
        ∃ c ∈ w.names.ukis, isOrphan w.slots c = true ∧ orphan c = g := by
  rw [mem_slotgroups]
  constructor
  · intro hg
    rcases hg with ⟨k, u, hu, hg⟩ | ⟨c, hc, ho, hg⟩
    · rcases (h.keys _).mp hu with hv | ⟨hold, hs⟩
      · change u = .used v at hv
        exact Or.inl (by rw [← hg, hv])
      · have hv : u ≠ .used v := by
          intro e
          rw [e] at hold
          exact h.fresh k hold
        exact Or.inr (Or.inl ⟨k, u, hold, hs, by rw [← hg, h.group_eq hs hv]⟩)
    · rcases (h.ukis c).mp hc with hc | hc
      · rw [hc, h.isOrphan_new] at ho
        cases ho
      · exact Or.inr (Or.inr ⟨c, hc, by rw [← h.isOrphan_eq hc, ho], hg⟩)
  · intro hg
    rcases hg with hg | ⟨k, u, hu, hs, hg⟩ | ⟨c, hc, ho, hg⟩
    · exact Or.inl ⟨.root, .used v, h.used_key .root, hg.symm⟩
    · have hv : u ≠ .used v := by
        intro e
        rw [e] at hu
        exact h.fresh k hu
      exact Or.inl ⟨k, u, (h.key_iff hs hv).mpr hu, by rw [h.group_eq hs hv, hg]⟩
    · exact Or.inr ⟨c, (h.ukis c).mpr (Or.inr hc), by rw [h.isOrphan_eq hc, ho], hg⟩

theorem filter_version (h : w.Replaced w' s v b) :
    (w'.runtimeOf kernel).slotgroups.filter (·.version = some v) = [w'.group (.used v)] := by
  refine filter_eq_singleton (nodup_view (Names.nodup_ukis _)) (group_mem (h.used_key .root))
    (decide_eq_true (group_version (h.used_key .root))) ?_
  intro g hg hgv
  have hgv := of_decide_eq_true hgv
  rcases h.mem_slotgroups_iff.mp hg with hg | ⟨k, u, hu, _, hg⟩ | ⟨c, hc, _, hg⟩
  · exact hg
  · rw [← hg, group_version hu] at hgv
    rw [Status.eq_used_of_version hgv] at hu
    exact absurd hu (h.fresh k)
  · rw [← hg] at hgv
    exact absurd hgv (h.unclaimed c hc)

theorem group_new {r t : Slot} (h : w.Replaced w' s v b) (hr : w'.slot .root (.used v) = some r)
    (ht : w'.slot .verity (.used v) = some t) :
    w'.group (.used v) = ⟨some r, some t, some b⟩ := by
  have hboot : (w'.group (.used v)).boot = some b :=
    (group_boot_iff h.readable').mpr ⟨(h.ukis b).mpr (Or.inl rfl), h.version, h.used_key .root⟩
  rw [← hr, ← ht, ← hboot]
  rfl

end World.Replaced

/-! ## The volumes of an install -/

/-- The volume is at least as large as it was, where that was known. -/
def Volume.Grows (old new : Volume) : Prop :=
  ∀ size ∈ old.lvSizeBytes, ∃ size' ∈ new.lvSizeBytes, size ≤ size'

/-- No volume shrank. The steps keep the order of the volumes and add new ones at
the end. -/
def World.Grown (w w' : World) : Prop :=
  ∃ kept created, w'.volumes = kept ++ created ∧ List.Forall₂ Volume.Grows w.volumes kept

/-- The volume is there, and the image is known to be the last one written to it. -/
def World.LastWritten (w : World) (volume : Volume) (image : String) : Prop :=
  ∃ lv ∈ w.lvs, lv.volume = volume ∧ lv.image = some image ∧
    ∀ x ∈ w.lvs, x.volume.id = volume.id → x = lv

/-- The volume is known to be large enough for the unpacked file. -/
def Volume.Fits (volume : Volume) (file : File) : Prop :=
  ∀ needed ∈ file.unpackedSize, ∃ size ∈ volume.lvSizeBytes, needed ≤ size

/-- The size of the volume that an install reuses is known. There is no such volume
when the install creates its slot. -/
def Runtime.SizeKnown (rt : Runtime) (part : SlotGroup → Option Slot) : Prop :=
  ∀ g, rt.spareSlot = some g → ∀ r ∈ part g, r.volume.lvSizeBytes.isSome = true

/-- A slot is resized exactly when it is known to be too small. -/
theorem resizeStep_cases (r : Slot) (file : File) :
    (Runtime.resizeStep (some r) file.unpackedSize = [] ∧
        (r.volume.lvSizeBytes.isSome = true → r.volume.Fits file)) ∨
      ∃ needed size, file.unpackedSize = some needed ∧ r.volume.lvSizeBytes = some size ∧
        size < needed ∧
        Runtime.resizeStep (some r) file.unpackedSize = [.lvresize r.volume needed] := by
  cases hneeded : file.unpackedSize with
  | none =>
      refine Or.inl ⟨rfl, fun _ needed hn => ?_⟩
      rw [hneeded] at hn
      cases hn
  | some needed =>
      cases hsize : r.volume.lvSizeBytes with
      | none => exact Or.inl ⟨by simp [Runtime.resizeStep, hsize], fun hsome => by cases hsome⟩
      | some size =>
          by_cases hlt : size < needed
          · exact Or.inr ⟨needed, size, rfl, rfl, hlt, by simp [Runtime.resizeStep, hsize, hlt]⟩
          · refine Or.inl ⟨by simp [Runtime.resizeStep, hsize, hlt], fun _ x hx => ?_⟩
            rw [hneeded] at hx
            cases hx
            exact ⟨size, hsize, by omega⟩

namespace Volume

variable {v : Volume} {r : Slot} {file : File}

theorem Grows.of_eq {new : Volume} (h : new.lvSizeBytes = v.lvSizeBytes) : v.Grows new := by
  intro size hsize
  exact ⟨size, by rw [h]; exact hsize, le_refl size⟩

theorem Grows.trans {x y : Volume} (h : v.Grows x) (h' : x.Grows y) : v.Grows y := by
  intro size hsize
  obtain ⟨size₁, hsize₁, hle₁⟩ := h size hsize
  obtain ⟨size₂, hsize₂, hle₂⟩ := h' size₁ hsize₁
  exact ⟨size₂, hsize₂, le_trans hle₁ hle₂⟩

theorem after_resizeStep (r : Slot) (file : File) :
    (r.volume.after (Runtime.resizeStep (some r) file.unpackedSize)).id = r.volume.id ∧
      r.volume.Grows (r.volume.after (Runtime.resizeStep (some r) file.unpackedSize)) ∧
      (r.volume.lvSizeBytes.isSome = true →
        (r.volume.after (Runtime.resizeStep (some r) file.unpackedSize)).Fits file) := by
  rcases resizeStep_cases r file with ⟨hnil, hfits⟩ | ⟨needed, size, hneeded, hsize, hlt, hone⟩
  · rw [hnil]
    exact ⟨rfl, Grows.of_eq rfl, hfits⟩
  · have hresized : r.volume.after [.lvresize r.volume needed] =
        { r.volume with lvSizeBytes := some needed } := if_pos rfl
    rw [hone, hresized]
    refine ⟨rfl, ?_, ?_⟩
    · intro x hx
      rw [hsize] at hx
      cases hx
      exact ⟨needed, rfl, by omega⟩
    · intro _ x hx
      rw [hneeded] at hx
      cases hx
      exact ⟨needed, rfl, le_refl needed⟩

theorem after_resizeStep_of_ne (needed : Option Nat) (h : v.id ≠ r.volume.id) :
    v.after (Runtime.resizeStep (some r) needed) = v := by
  refine after_of_notMem fun step hstep hid => ?_
  obtain ⟨x, hx, hlv, _⟩ := operands_resizeStep hstep
  cases hx
  rw [hlv, List.mem_singleton] at hid
  exact h hid

theorem lvSizeBytes_after {steps : List Step}
    (h : ∀ volume needed, Step.lvresize volume needed ∉ steps) :
    (v.after steps).lvSizeBytes = v.lvSizeBytes := by
  induction steps generalizing v with
  | nil => rfl
  | cons step steps ih =>
      have hstep : (step.onVolume v).lvSizeBytes = v.lvSizeBytes := by
        cases step with
        | lvresize volume needed => exact absurd List.mem_cons_self (h volume needed)
        | lvrename vg name target =>
            simp only [Step.onVolume]
            split <;> rfl
        | _ => rfl
      change ((step.onVolume v).after steps).lvSizeBytes = _
      rw [ih fun volume needed hmem => h volume needed (List.mem_cons_of_mem _ hmem), hstep]

end Volume

section Rest

variable {m : Manifest} {source : String} {v : Version} {r t : Slot} {s : Status} {n : Names}
  {active : SlotGroup} {w w' : World} {lv : Lv} {root verity : Lv}

/-- The steps of an install once its pair of volumes is there. -/
def installSteps (m : Manifest) (source : String) (v : Version) (r t : Slot)
    (active : SlotGroup) : List Step :=
  writeSteps m source r t ++ (commitSteps m source v r t ++ migrationSteps active)

theorem lvresize_notMem_installSteps (volume : Volume) (needed : Nat) :
    Step.lvresize volume needed ∉ installSteps m source v r t active := by
  unfold installSteps migrationSteps
  split <;> simp [writeSteps, commitSteps, renameStep]

theorem Names.Pair.id_ne (h : n.Pair s r t) : r.volume.id ≠ t.volume.id := by
  intro e
  have hkey := h.rootKey.symm.trans (e ▸ h.verityKey)
  cases hkey

theorem Volume.deviceFile_congr {v u : Volume} (h : v.id = u.id) : v.deviceFile = u.deviceFile :=
  congrArg devicePath h

theorem World.unambiguous_write (path path' image : String) :
    (w.write path image).Unambiguous path' ↔ w.Unambiguous path' := by
  rw [Unambiguous, volumes_write, Unambiguous]

theorem World.lv_mem_write (path image : String) (hlv : lv ∈ w.lvs) :
    ∃ content, { lv with image := content } ∈ (w.write path image).lvs ∧
      (lv.volume.deviceFile = path →
        ∀ x, content = some x ↔ w.Unambiguous path ∧ x = image) ∧
      (lv.volume.deviceFile ≠ path → content = lv.image) := by
  by_cases hpath : lv.volume.deviceFile = path
  · refine ⟨_, List.mem_map.mpr ⟨lv, hlv, if_pos hpath⟩, fun _ x => ?_, fun h => absurd hpath h⟩
    by_cases hone : w.Unambiguous path <;> simp [hone, eq_comm]
  · exact ⟨lv.image, List.mem_map.mpr ⟨lv, hlv, if_neg hpath⟩, fun h => absurd h hpath,
      fun _ => rfl⟩

theorem execAll_writeSteps (h : w.execAll (writeSteps m source r t) = some w') :
    w' = (w.write r.volume.deviceFile (m.store.fullName source)).write t.volume.deviceFile
      (m.verity.fullName source) := by
  obtain ⟨w₁, h₁, h⟩ := run_cons_eq_some.mp h
  obtain ⟨w₂, h₂, h⟩ := run_cons_eq_some.mp h
  obtain ⟨w₃, h₃, h⟩ := run_cons_eq_some.mp h
  obtain ⟨w₄, h₄, h⟩ := run_cons_eq_some.mp h
  simp only [World.exec, Option.ite_none_right_eq_some, Option.some.injEq] at h₁ h₂ h₃ h₄
  cases h
  rw [← h₄.2, ← h₃.2, ← h₂.2, ← h₁.2]

/-- Both volumes of the pair after the images were written: a content is known if no other
volume has the device path. -/
theorem lv_mem_writeSteps (hne : r.volume.id ≠ t.volume.id) (hroot : root ∈ w.lvs)
    (hrootId : root.volume.id = r.volume.id) (hverity : verity ∈ w.lvs)
    (hverityId : verity.volume.id = t.volume.id)
    (h : w.execAll (writeSteps m source r t) = some w') :
    ∃ store verity', { root with image := store } ∈ w'.lvs ∧
      { verity with image := verity' } ∈ w'.lvs ∧
      (store = some (m.store.fullName source) ↔ w.Unambiguous r.volume.deviceFile) ∧
      (verity' = some (m.verity.fullName source) ↔ w.Unambiguous t.volume.deviceFile) := by
  have hrootPath := Volume.deviceFile_congr hrootId
  have hverityPath := Volume.deviceFile_congr hverityId
  obtain ⟨x, hx, hxWritten, _⟩ :=
    World.lv_mem_write r.volume.deviceFile (m.store.fullName source) hroot
  obtain ⟨x', hx', hxOver, hxKept⟩ :=
    World.lv_mem_write t.volume.deviceFile (m.verity.fullName source) hx
  obtain ⟨y, hy, _⟩ := World.lv_mem_write r.volume.deviceFile (m.store.fullName source) hverity
  obtain ⟨y', hy', hyWritten, _⟩ :=
    World.lv_mem_write t.volume.deviceFile (m.verity.fullName source) hy
  simp only [World.unambiguous_write] at hxOver hyWritten
  refine ⟨x', y', execAll_writeSteps h ▸ hx', execAll_writeSteps h ▸ hy', ?_, ?_⟩
  · by_cases hpath : r.volume.deviceFile = t.volume.deviceFile
    · -- One path for both volumes: neither content is known.
      have hclash : ¬ w.Unambiguous t.volume.deviceFile := by
        intro hone
        have hid := hone _ (List.mem_map_of_mem hroot) _ (List.mem_map_of_mem hverity)
          (hrootPath.trans hpath) hverityPath
        exact hne (hrootId.symm.trans (hid.trans hverityId))
      rw [hxOver (hrootPath.trans hpath), hpath]
      exact iff_of_false (fun hone => hclash hone.1) hclash
    · rw [hxKept fun e => hpath (hrootPath.symm.trans e), hxWritten hrootPath]
      exact and_iff_left rfl
  · rw [hyWritten hverityPath]
    exact and_iff_left rfl

theorem lv_mem_commitSteps (hpair : n.Pair s r t) (plain : (Status.used v).Plain)
    (hroot : root ∈ w.lvs) (hrootId : root.volume.id = r.volume.id) (hverity : verity ∈ w.lvs)
    (hverityId : verity.volume.id = t.volume.id)
    (h : w.execAll (commitSteps m source v r t ++ migrationSteps active) = some w') :
    { root with volume :=
        { root.volume with lvName := Slot.displayName .root (.used v) } } ∈ w'.lvs ∧
      { verity with volume :=
        { verity.volume with lvName := Slot.displayName .verity (.used v) } } ∈ w'.lvs := by
  obtain ⟨w₁, h₁, h⟩ := run_cons_eq_some.mp h
  obtain ⟨w₂, h₂, h⟩ := run_cons_eq_some.mp h
  have hlvs : w'.lvs = w₂.lvs := by
    refine World.lvs_execAll_of_operands ?_ h
    intro step hstep
    rcases List.mem_cons.mp hstep with rfl | hstep
    · rfl
    · exact (operands_migrationSteps hstep).2
  have hrenamed : ({ root.volume with lvName := Slot.displayName .root (.used v) } : Volume).id ≠
      t.volume.id := by
    intro e
    have hkey := (nameKey_displayName plain).symm.trans (e ▸ hpair.verityKey)
    cases hkey
  rw [hlvs]
  constructor
  · exact World.lv_mem_rename_of_ne h₂ (World.lv_mem_rename h₁ hroot hrootId) hrenamed
  · have hother := World.lv_mem_rename_of_ne h₁ hverity fun e =>
      hpair.id_ne (e.symm.trans hverityId)
    exact World.lv_mem_rename h₂ hother hverityId

end Rest

section Prepare

variable {w w₁ : World} {kernel : KernelParams} {m : Manifest} {s : Status} {r t : Slot}
  {pre : List Step} {k : Kind} {v : Volume} {vg id : String}

/-- The volumes of the pair once it is prepared. -/
structure World.Prepared (w : World) (m : Manifest) (r t : Slot) (root verity : Volume) :
    Prop where
  root_mem : root ∈ w.volumes
  root_id : root.id = r.volume.id
  root_fits : r.volume.lvSizeBytes.isSome = true → root.Fits m.store
  verity_mem : verity ∈ w.volumes
  verity_id : verity.id = t.volume.id
  verity_fits : t.volume.lvSizeBytes.isSome = true → verity.Fits m.verity

theorem fits_createdSlot {file : File} {active : Option Nat} {size : Nat}
    (h : file.unpackedSize.or active = some size) :
    (createdSlot k vg id size).volume.Fits file := by
  intro needed hneeded
  rw [Option.mem_def.mp hneeded, Option.some_or] at h
  exact ⟨size, rfl, le_of_eq (Option.some.inj h)⟩

theorem volume_mem_createStep {size : Nat} (h : w.exec (createStep k vg id size) = some w₁) :
    (createdSlot k vg id size).volume ∈ w₁.volumes := by
  simp only [createStep, World.exec] at h
  split at h
  · cases h
  · cases h
    exact List.mem_map_of_mem (List.mem_append_right _ List.mem_cons_self)

theorem resizeStepsForSlot_group (hr : w.slot .root s = some r) (ht : w.slot .verity s = some t) :
    Runtime.resizeStepsForSlot (w.group s) m =
      Runtime.resizeStep (some r) m.store.unpackedSize ++
        Runtime.resizeStep (some t) m.verity.unpackedSize := by
  rw [← hr, ← ht]
  rfl

theorem Chosen.prepared (h : Chosen w kernel m s r t pre) (nodup : w.names.keys.Nodup)
    (hrun : w.execAll pre = some w₁) : ∃ root verity, w₁.Prepared m r t root verity := by
  cases h with
  | reuse hs hspare hr ht =>
      have hne := (World.pair nodup hr ht).id_ne
      rw [resizeStepsForSlot_group hr ht] at hrun
      obtain ⟨hrootId, _, hrootFits⟩ := Volume.after_resizeStep r m.store
      obtain ⟨hverityId, _, hverityFits⟩ := Volume.after_resizeStep t m.verity
      have hroot := World.after_mem_execAll hrun (World.slot_spec hr).2.2.1
      have hverity := World.after_mem_execAll hrun (World.slot_spec ht).2.2.1
      rw [Volume.after_append,
        Volume.after_resizeStep_of_ne _ (by rw [hrootId]; exact hne)] at hroot
      rw [Volume.after_append, Volume.after_resizeStep_of_ne (r := r) _ hne.symm] at hverity
      exact ⟨_, _, hroot, hrootId, hrootFits, hverity, hverityId, hverityFits⟩
  | create hspare hactive har hav halloc hrs hvs =>
      obtain ⟨w₂, hroot, hrun⟩ := run_cons_eq_some.mp hrun
      have hmem := World.after_mem_execAll hrun (volume_mem_createStep hroot)
      obtain ⟨w₃, hverity, hnil⟩ := run_cons_eq_some.mp hrun
      cases hnil
      exact ⟨_, _, hmem, rfl, fun _ => fits_createdSlot hrs, volume_mem_createStep hverity, rfl,
        fun _ => fits_createdSlot hvs⟩

theorem volume_of_id (nodup : w.names.keys.Nodup) (hr : w.slot k s = some r) (hv : v ∈ w.volumes)
    (hid : v.id = r.volume.id) : v = r.volume := by
  have hslot := World.slot_of_volume nodup hv (hid ▸ (World.slot_spec hr).2.2.2)
  rw [hr] at hslot
  rw [Option.some.inj hslot]

theorem Chosen.grows (h : Chosen w kernel m s r t pre) (nodup : w.names.keys.Nodup)
    (hv : v ∈ w.volumes) : v.Grows (v.after pre) := by
  cases h with
  | reuse hs hspare hr ht =>
      have hne := (World.pair nodup hr ht).id_ne
      rw [resizeStepsForSlot_group hr ht, Volume.after_append]
      by_cases hroot : v.id = r.volume.id
      · rw [volume_of_id nodup hr hv hroot]
        obtain ⟨hid, hgrows, _⟩ := Volume.after_resizeStep r m.store
        rw [Volume.after_resizeStep_of_ne (r := t) _ (by rw [hid]; exact hne)]
        exact hgrows
      · rw [Volume.after_resizeStep_of_ne _ hroot]
        by_cases hverity : v.id = t.volume.id
        · rw [volume_of_id nodup ht hv hverity]
          exact (Volume.after_resizeStep t m.verity).2.1
        · rw [Volume.after_resizeStep_of_ne _ hverity]
          exact Volume.Grows.of_eq rfl
  | create => exact Volume.Grows.of_eq rfl

theorem Chosen.ids (h : Chosen w kernel m s r t pre) (hrun : w.execAll pre = some w₁) :
    w₁.names.ids = w.names.ids ∨ r.volume.vgName = t.volume.vgName ∧
      w₁.names.ids = w.names.ids ++ [r.volume.id] ++ [t.volume.id] := by
  have hnames := World.names_of_execAll hrun
  cases h with
  | reuse hs hspare hr ht =>
      rw [Names.execAll_of_keeps (keeps_resizeStepsForSlot s m)] at hnames
      exact Or.inl (congrArg Names.ids (Option.some.inj hnames)).symm
  | create hspare hactive har hav halloc hrs hvs =>
      obtain ⟨n, hroot, hverity⟩ := run_cons_eq_some.mp hnames
      obtain ⟨n', hverity, hnil⟩ := run_cons_eq_some.mp hverity
      cases hnil
      simp only [Names.exec, createStep, Option.ite_none_left_eq_some, Option.some.injEq]
        at hroot hverity
      exact Or.inr ⟨rfl, by rw [← hverity.2, ← hroot.2]; rfl⟩

/-- The path of a prepared volume is ambiguous if it is that of a volume listed before. -/
theorem Chosen.unambiguous_iff (h : Chosen w kernel m s r t pre) (hrun : w.execAll pre = some w₁)
    (hv : v = r.volume ∨ v = t.volume) (hmem : v.id ∈ w₁.names.ids) :
    w₁.Unambiguous v.deviceFile ↔ ∀ u ∈ w.volumes, ¬ v.Overlaps u ∧ ¬ u.Overlaps v := by
  have hsole : w₁.Unambiguous v.deviceFile ↔
      ∀ id ∈ w₁.names.ids, v.deviceFile = devicePath id → v.id = id := by
    rw [World.names, List.forall_mem_map]
    obtain ⟨x, hx, hxid⟩ := List.mem_map.mp hmem
    constructor
    · intro hone u hu hpath
      exact hxid.symm.trans (hone x hx u hu (Volume.deviceFile_congr hxid) hpath.symm)
    · intro hone u hu u' hu' hpath hpath'
      exact (hone u hu hpath.symm).symm.trans (hone u' hu' hpath'.symm)
  have hpair (hvg : r.volume.vgName = t.volume.vgName) {u : Volume}
      (hu : u = r.volume ∨ u = t.volume) : v.deviceFile = u.deviceFile → v.id = u.id := by
    have hsame : v.vgName = u.vgName := by
      rcases hv with rfl | rfl <;> rcases hu with rfl | rfl <;> simp [hvg]
    exact Volume.deviceFile_inj_iff.mpr ⟨fun hover => Volume.vgName_ne_of_overlaps hover hsame,
      fun hover => Volume.vgName_ne_of_overlaps hover hsame.symm⟩
  have hlisted : (∀ id ∈ w₁.names.ids, v.deviceFile = devicePath id → v.id = id) ↔
      ∀ id ∈ w.names.ids, v.deviceFile = devicePath id → v.id = id := by
    rcases h.ids hrun with hids | ⟨hvg, hids⟩
    · rw [hids]
    · simp only [hids, List.forall_mem_append, List.forall_mem_singleton]
      exact ⟨fun hall => hall.1.1, fun hall =>
        ⟨⟨hall, hpair hvg (Or.inl rfl)⟩, hpair hvg (Or.inr rfl)⟩⟩
  rw [hsole, hlisted, World.names, List.forall_mem_map]
  exact forall₂_congr fun u _ => Volume.deviceFile_inj_iff

theorem Chosen.picks (h : Chosen w kernel m s r t pre) : (w.runtimeOf kernel).Picks m r t pre := by
  cases h with
  | reuse hs hspare hr ht =>
      rw [resizeStepsForSlot_group hr ht]
      refine .spare (hspare.trans ?_)
      rw [← hr, ← ht, ← World.group_boot_of_isEmpty (w := w) hs]
      rfl
  | create hspare hactive har hav halloc hrs hvs => exact .create halloc

theorem Chosen.spare_ne_iff {u : Status} (h : Chosen w kernel m s r t pre)
    (hu : (k, u) ∈ w.names.keys) : (w.runtimeOf kernel).spareSlot ≠ some (w.group u) ↔ u ≠ s := by
  cases h with
  | reuse hs hspare hr ht =>
      rw [hspare]
      constructor
      · intro hne e
        exact hne (by rw [e])
      · intro hne e
        exact hne (World.group_inj hu (Option.some.inj e).symm)
  | create hspare hactive har hav halloc hrs hvs =>
      have hfresh := (World.allocateEmptyIdentifier_fresh halloc).2 k
      rw [hspare]
      constructor
      · intro _ e
        rw [e] at hu
        exact hfresh hu
      · intro _ e
        cases e

theorem spare_ne_orphan (b : BootEntry) :
    (w.runtimeOf kernel).spareSlot ≠ some (orphan b) := by
  intro h
  obtain ⟨_, _, _, _, _, _, _, e⟩ := group_of_spare h
  cases e

theorem Chosen.sizeKnown_root (h : Chosen w kernel m s r t pre)
    (known : (w.runtimeOf kernel).SizeKnown SlotGroup.root) :
    r.volume.lvSizeBytes.isSome = true := by
  cases h with
  | reuse hs hspare hr ht => exact known _ hspare r hr
  | create => rfl

theorem Chosen.sizeKnown_verity (h : Chosen w kernel m s r t pre)
    (known : (w.runtimeOf kernel).SizeKnown SlotGroup.verity) :
    t.volume.lvSizeBytes.isSome = true := by
  cases h with
  | reuse hs hspare hr ht => exact known _ hspare t ht
  | create => rfl

end Prepare

section Complete

variable {w w' : World} {kernel : KernelParams} {m : Manifest} {source : String} {v : Version}
  {s : Status} {r t : Slot} {pre : List Step} {active : SlotGroup}

theorem Chosen.replaced {u : UkiEntry} (hc : Chosen w kernel m s r t pre)
    (readable : w.names.Readable) (plain : (Status.used u.version).Plain)
    (hu : UkiEntry.fromStr (UkiEntry.display ⟨u.version, none⟩) = .ok u)
    (fresh : ∀ k, (k, Status.used u.version) ∉ w.names.keys)
    (unclaimed : ∀ c ∈ w.names.ukis, c.version ≠ some u.version)
    (hrun : w.execAll (pre ++ installSteps m source u.version r t active) = some w') :
    w.Replaced w' s u.version ⟨UkiEntry.display ⟨u.version, none⟩, .managed u⟩ := by
  obtain ⟨n, hn, hesp, hnodup, hkeys⟩ := hc.complete source active readable.nodup plain fresh
  obtain rfl : w'.names = n := Option.some.inj ((World.names_of_execAll hrun).symm.trans hn)
  refine ⟨readable, hnodup, hc.slots.1, fresh, unclaimed, hkeys,
    fun c => Names.mem_ukis_install_new hesp hu unclaimed, rfl, ?_⟩
  intro k x hxs hxv
  refine World.slot_execAll hnodup hrun ?_ ?_
  · intro hkey
    rcases (hkeys _).mp hkey with hkey | hkey
    · exact absurd hkey hxv
    · exact hkey.1
  · intro step hstep id hid hname
    obtain ⟨k', hk' | hk'⟩ := lvOperands_install hc readable.nodup plain step hstep id hid
    · exact hxs (congrArg Prod.snd (Option.some.inj (hname.symm.trans hk')))
    · exact hxv (congrArg Prod.snd (Option.some.inj (hname.symm.trans hk')))

/-- The groups afterwards: the new one, and all but the reused one of before. -/
theorem Chosen.mem_slotgroups_iff {b : BootEntry} {g : SlotGroup}
    (hc : Chosen w kernel m s r t pre) (h : w.Replaced w' s v b) :
    g ∈ (w'.runtimeOf kernel).slotgroups ↔
      g = w'.group (.used v) ∨
        (g ∈ (w.runtimeOf kernel).slotgroups ∧ (w.runtimeOf kernel).spareSlot ≠ some g) := by
  rw [h.mem_slotgroups_iff, World.mem_slotgroups]
  refine or_congr_right ?_
  constructor
  · intro hg
    rcases hg with ⟨k, x, hkx, hxs, hg⟩ | ⟨c, hcu, ho, hg⟩
    · refine ⟨Or.inl ⟨k, x, hkx, hg⟩, ?_⟩
      rw [← hg]
      exact (hc.spare_ne_iff hkx).mpr hxs
    · refine ⟨Or.inr ⟨c, hcu, ho, hg⟩, ?_⟩
      rw [← hg]
      exact spare_ne_orphan c
  · intro hg
    rcases hg with ⟨⟨k, x, hkx, hg⟩ | horphan, hspare⟩
    · rw [← hg] at hspare
      exact Or.inl ⟨k, x, hkx, (hc.spare_ne_iff hkx).mp hspare, hg⟩
    · exact Or.inr horphan

theorem Chosen.grown (hc : Chosen w kernel m s r t pre) (nodup : w.names.keys.Nodup)
    (hrun : w.execAll (pre ++ installSteps m source v r t active) = some w') : w.Grown w' := by
  obtain ⟨created, hvolumes⟩ := World.volumes_execAll hrun
  refine ⟨_, created, hvolumes, List.forall₂_map_right_iff.mpr (List.forall₂_same.mpr ?_)⟩
  intro x hx
  rw [Volume.after_append]
  exact (hc.grows nodup hx).trans
    (Volume.Grows.of_eq (Volume.lvSizeBytes_after lvresize_notMem_installSteps))

theorem lastWritten_iff {lv : Lv} {c : Kind × Status} {image : String}
    (nodup : w.names.keys.Nodup) (hlv : lv ∈ w.lvs) (hkey : nameKey lv.volume.id = some c) :
    w.LastWritten lv.volume image ↔ lv.image = some image := by
  rw [World.keys_eq_lvs] at nodup
  have hone : ∀ x ∈ w.lvs, x.volume.id = lv.volume.id → x = lv :=
    fun x hx hid => eq_of_nodup_keys nodup hx hlv (by rw [hid, hkey]) hkey
  constructor
  · rintro ⟨x, hx, hvol, himage, _⟩
    rw [← hone x hx (congrArg Volume.id hvol)]
    exact himage
  · intro himage
    exact ⟨lv, hlv, rfl, himage, hone⟩

theorem Chosen.volumes (hc : Chosen w kernel m s r t pre) (nodup : w.names.keys.Nodup)
    (nodup' : w'.names.keys.Nodup) (plain : (Status.used v).Plain)
    (hrun : w.execAll (pre ++ installSteps m source v r t active) = some w') :
    ∃ r' t', w'.slot .root (.used v) = some r' ∧ w'.slot .verity (.used v) = some t' ∧
      (w'.LastWritten r'.volume (m.store.fullName source) ↔
        ∀ u ∈ w.volumes, ¬ r.volume.Overlaps u ∧ ¬ u.Overlaps r.volume) ∧
      (w'.LastWritten t'.volume (m.verity.fullName source) ↔
        ∀ u ∈ w.volumes, ¬ t.volume.Overlaps u ∧ ¬ u.Overlaps t.volume) ∧
      ((w.runtimeOf kernel).SizeKnown SlotGroup.root → r'.volume.Fits m.store) ∧
      ((w.runtimeOf kernel).SizeKnown SlotGroup.verity → t'.volume.Fits m.verity) := by
  obtain ⟨n, hn, hpair, _⟩ := hc.prepare nodup
  rw [World.execAll, run_append] at hrun
  obtain ⟨w₁, h₁, hrun⟩ := Option.bind_eq_some_iff.mp hrun
  obtain rfl : w₁.names = n := Option.some.inj ((World.names_of_execAll h₁).symm.trans hn)
  obtain ⟨_, _, hprepared⟩ := hc.prepared nodup h₁
  obtain ⟨root, hroot, rfl⟩ := List.mem_map.mp hprepared.root_mem
  obtain ⟨verity, hverity, rfl⟩ := List.mem_map.mp hprepared.verity_mem
  rw [installSteps, run_append] at hrun
  obtain ⟨w₂, h₂, hrun⟩ := Option.bind_eq_some_iff.mp hrun
  obtain ⟨store, image, hroot, hverity, hstore, himage⟩ := lv_mem_writeSteps hpair.id_ne hroot
    hprepared.root_id hverity hprepared.verity_id h₂
  obtain ⟨hroot, hverity⟩ := lv_mem_commitSteps hpair plain hroot hprepared.root_id hverity
    hprepared.verity_id hrun
  have hrootKey : nameKey (root.volume.vgName, Slot.displayName .root (.used v)) =
      some (.root, .used v) := nameKey_displayName plain
  have hverityKey : nameKey (verity.volume.vgName, Slot.displayName .verity (.used v)) =
      some (.verity, .used v) := nameKey_displayName plain
  refine ⟨_, _, World.slot_of_lv nodup' hroot hrootKey, World.slot_of_lv nodup' hverity hverityKey,
    ?_, ?_, fun known => hprepared.root_fits (hc.sizeKnown_root known),
    fun known => hprepared.verity_fits (hc.sizeKnown_verity known)⟩
  · rw [← hc.unambiguous_iff h₁ (Or.inl rfl) hpair.root, ← hstore]
    exact lastWritten_iff nodup' hroot hrootKey
  · rw [← hc.unambiguous_iff h₁ (Or.inr rfl) hpair.verity, ← himage]
    exact lastWritten_iff nodup' hverity hverityKey

end Complete

/-- A completed install of a new version: the world can be read again and reports
the version once, with both volumes and a UKI; the volumes are large enough for the images
of the manifest; nothing else changed, and a second install has nothing to do. Each volume
carries its image exactly if its device path, to which the image is written, is that of no
other volume. -/
theorem install_effect {w w' : World} {cmdline source : String} {rt : Runtime} {m : Manifest}
    {v : Version} {plan : Plan} (hrt : w.runtime cmdline = .ok rt) (hm : m.RoundTrips)
    (hv : m.toVersion = .ok v) (hnew : ∀ g ∈ rt.slotgroups, g.version ≠ some v)
    (hplan : Plan.install rt m source = .ok plan) (hrun : w.execAll plan.steps = some w') :
    ∃ rt' r t b root verity, w'.runtime cmdline = .ok rt' ∧
      rt'.slotgroups.filter (·.version = some v) = [⟨some r, some t, some b⟩] ∧
      b.version = some v ∧
      plan.steps.filterMap Step.device = [root, verity, root, verity] ∧
      (w'.LastWritten r.volume (m.store.fullName source) ↔
        ∀ u ∈ w.volumes, ¬ root.Overlaps u ∧ ¬ u.Overlaps root) ∧
      (w'.LastWritten t.volume (m.verity.fullName source) ↔
        ∀ u ∈ w.volumes, ¬ verity.Overlaps u ∧ ¬ u.Overlaps verity) ∧
      (rt.SizeKnown SlotGroup.root → r.volume.Fits m.store) ∧
      (rt.SizeKnown SlotGroup.verity → t.volume.Fits m.verity) ∧
      w.Grown w' ∧
      (∀ g, g ∈ rt'.slotgroups ↔
        g = ⟨some r, some t, some b⟩ ∨ (g ∈ rt.slotgroups ∧ rt.spareSlot ≠ some g)) ∧
      Plan.install rt' m source = .ok ⟨[]⟩ := by
  obtain ⟨readable, kernel, hk, rfl⟩ := World.runtime_iff_readable.mp hrt
  obtain ⟨fresh, unclaimed⟩ := World.fresh_of_unreported hnew
  obtain ⟨plain, u, hu, rfl⟩ := hm.names hv
  obtain ⟨y, hy, hcases⟩ := install_eq_ok.mp hplan
  obtain rfl : u.version = y := Outcome.ok.inj (hv.symm.trans hy)
  rcases hcases with ⟨hinst, _⟩ | ⟨_, s, r, t, pre, active, hc, _, hsteps⟩
  · exact absurd hinst.1 (fresh .root)
  have hdevices : plan.steps.filterMap Step.device = [r.volume, t.volume, r.volume, t.volume] := by
    rw [hsteps]
    exact devices_install active hc.picks
  rw [hsteps] at hrun
  have h := hc.replaced readable plain hu fresh unclaimed hrun
  obtain ⟨r', t', hr', ht', hroot, hverity, hrootFits, hverityFits⟩ :=
    hc.volumes readable.nodup h.nodup plain hrun
  have hgroup := h.group_new hr' ht'
  refine ⟨_, r', t', _, _, _, World.runtime_of_readable hk h.readable', ?_, h.version, hdevices,
    hroot, hverity, hrootFits, hverityFits, hc.grown readable.nodup hrun, ?_, ?_⟩
  · rw [← hgroup]
    exact h.filter_version
  · intro g
    rw [← hgroup]
    exact hc.mem_slotgroups_iff h
  · exact install_eq_ok.mpr
      ⟨_, hv, Or.inl ⟨⟨h.used_key .root, h.used_key .verity⟩, rfl⟩⟩

/-! ## The first update of the sample device, with an image larger than its slot -/

def largeManifest : Manifest :=
  { sampleManifest with store := { sampleManifest.store with unpackedSize := some 9 } }

def largeInstallPlan : Plan :=
  ⟨.lvresize (legacyEmptySlot .root).volume 9 ::
    installSteps largeManifest "/sysupdate" sampleVersion (legacyEmptySlot .root)
      (legacyEmptySlot .verity) (legacyWorld.group (.used ⟨"0", none⟩))⟩

theorem largeInstall_samples :
    largeManifest.toVersion = .ok sampleVersion ∧
      (∀ g ∈ (legacyWorld.runtimeOf legacyKernel).slotgroups,
        g.version ≠ some sampleVersion) ∧
      Plan.install (legacyWorld.runtimeOf legacyKernel) largeManifest "/sysupdate" =
        .ok largeInstallPlan ∧
      (legacyWorld.execAll largeInstallPlan.steps).isSome = true ∧
      (legacyWorld.runtimeOf legacyKernel).spareSlot =
        some ⟨some (legacyEmptySlot .root), some (legacyEmptySlot .verity), none⟩ ∧
      (∀ v ∈ largeInstallPlan.steps.filterMap Step.device, ∀ u ∈ legacyWorld.volumes,
        v.vgName = u.vgName) := by
  decide +kernel

theorem largeManifest_roundTrips : largeManifest.RoundTrips := sampleManifest_roundTrips

theorem install_effect_legacyWorld :
    ∃ w' rt' r t b, legacyWorld.execAll largeInstallPlan.steps = some w' ∧
      w'.runtime "root=fstab" = .ok rt' ∧
      rt'.slotgroups.filter (·.version = some sampleVersion) = [⟨some r, some t, some b⟩] ∧
      w'.LastWritten r.volume (largeManifest.store.fullName "/sysupdate") ∧
      w'.LastWritten t.volume (largeManifest.verity.fullName "/sysupdate") ∧
      r.volume.Fits largeManifest.store ∧ legacyWorld.Grown w' ∧
      Plan.install rt' largeManifest "/sysupdate" = .ok ⟨[]⟩ := by
  rcases largeInstall_samples with ⟨hversion, hnew, hplan, hsome, hspare, hvg⟩
  obtain ⟨w', hw'⟩ := Option.isSome_iff_exists.mp hsome
  have hknown : (legacyWorld.runtimeOf legacyKernel).SizeKnown SlotGroup.root := by
    intro g hg r hr
    rw [hspare] at hg
    cases hg
    cases hr
    rfl
  obtain ⟨rt', r, t, b, root, verity, hrt', hfilter, _, hdevices, hroot, hverity, hfits, _, hgrown,
    _, hagain⟩ :=
    install_effect legacyWorld_runtime largeManifest_roundTrips hversion hnew hplan hw'
  have hapart : ∀ v ∈ [root, verity, root, verity], ∀ u ∈ legacyWorld.volumes,
      ¬ v.Overlaps u ∧ ¬ u.Overlaps v := by
    intro v hv u hu
    rw [← hdevices] at hv
    exact ⟨fun h => Volume.vgName_ne_of_overlaps h (hvg v hv u hu),
      fun h => Volume.vgName_ne_of_overlaps h (hvg v hv u hu).symm⟩
  exact ⟨w', rt', r, t, b, hw', hrt', hfilter, hroot.mpr (hapart root (by simp)),
    hverity.mpr (hapart verity (by simp)), hfits hknown, hgrown, hagain⟩

/-! ## The first update of a device with hyphens in the names of its volume groups -/

def hyphenWorld : World where
  lvs := hyphenVolumes.map fun volume => ⟨volume, some ("/old/" ++ volume.lvName)⟩
  esp := ⟨[], by simp⟩

def hyphenUpdated : World where
  lvs := [⟨⟨"a-root_empty", "pool", some 5⟩, none⟩,
    ⟨⟨"root_0", "pool-a", some 5⟩, some "/old/root_0"⟩,
    ⟨⟨"root_25.12.1_44cc41b403a2d323", "pool-a", some 5⟩, none⟩,
    ⟨⟨"verity_0", "pool-a", some 5⟩, some "/old/verity_0"⟩,
    ⟨⟨"verity_25.12.1_44cc41b403a2d323", "pool-a", some 5⟩,
      some (sampleManifest.verity.fullName "/sysupdate")⟩]
  esp := Esp.install ⟨[], by simp⟩ (UkiEntry.display ⟨sampleVersion, none⟩)

/-- The root image goes to a path that a foreign volume has as well. -/
theorem hyphenInstall_root_unknown :
    hyphenWorld.runtime "root=fstab" = .ok hyphenRuntime ∧
      sampleManifest.RoundTrips ∧ sampleManifest.toVersion = .ok sampleVersion ∧
      (∀ g ∈ hyphenRuntime.slotgroups, g.version ≠ some sampleVersion) ∧
      Plan.install hyphenRuntime sampleManifest "/sysupdate" = .ok hyphenPlan ∧
      hyphenWorld.execAll hyphenPlan.steps = some hyphenUpdated ∧
      (hyphenUpdated.group (.used sampleVersion)).root.map (·.volume) =
        some ⟨"root_25.12.1_44cc41b403a2d323", "pool-a", some 5⟩ ∧
      ¬ hyphenUpdated.LastWritten ⟨"root_25.12.1_44cc41b403a2d323", "pool-a", some 5⟩
        (sampleManifest.store.fullName "/sysupdate") ∧
      (hyphenPlan.steps.head?.bind Step.device).map Volume.deviceFile =
        some (⟨"a-root_empty", "pool", some 5⟩ : Volume).deviceFile ∧
      ⟨"a-root_empty", "pool", some 5⟩ ∈ hyphenWorld.volumes := by
  have hsamples :
      hyphenWorld.runtime "root=fstab" = .ok hyphenRuntime ∧
        sampleManifest.toVersion = .ok sampleVersion ∧
        (∀ g ∈ hyphenRuntime.slotgroups, g.version ≠ some sampleVersion) ∧
        Plan.install hyphenRuntime sampleManifest "/sysupdate" = .ok hyphenPlan ∧
        hyphenWorld.execAll hyphenPlan.steps = some hyphenUpdated ∧
        (hyphenUpdated.group (.used sampleVersion)).root.map (·.volume) =
          some ⟨"root_25.12.1_44cc41b403a2d323", "pool-a", some 5⟩ ∧
        (∀ lv ∈ hyphenUpdated.lvs,
          lv.volume = ⟨"root_25.12.1_44cc41b403a2d323", "pool-a", some 5⟩ → lv.image = none) ∧
        (hyphenPlan.steps.head?.bind Step.device).map Volume.deviceFile =
          some (⟨"a-root_empty", "pool", some 5⟩ : Volume).deviceFile ∧
        ⟨"a-root_empty", "pool", some 5⟩ ∈ hyphenWorld.volumes := by
    decide +kernel
  obtain ⟨hrt, hversion, hnew, hplan, hrun, hgroup, himage, hrest⟩ := hsamples
  refine ⟨hrt, sampleManifest_roundTrips, hversion, hnew, hplan, hrun, hgroup, ?_, hrest⟩
  rintro ⟨lv, hlv, hvol, hwritten, _⟩
  rw [himage lv hlv hvol] at hwritten
  cases hwritten

end GhafGivc.Image
