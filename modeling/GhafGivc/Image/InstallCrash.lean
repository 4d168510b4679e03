import GhafGivc.Image.Invariant

/-! # Interrupted installs

An install that stops after `k` steps is retried from the names it left behind.
Before the first rename the retry starts over, and after the UKI is written there
is nothing left to do. Between the two renames and the UKI the retry cannot
succeed: the half-renamed pair blocks the name, and a fully renamed pair counts
as installed although it has no UKI.
-/

namespace GhafGivc.Image

open Core SlotGroup

/-- The number of install steps before the first rename. -/
def commitPoint (rt : Runtime) (m : Manifest) : Nat :=
  (match rt.spareSlot with
    | some slot => (Runtime.resizeStepsForSlot slot m).length
    | none => 2) + 4

/-- Reading the world again and installing the manifest runs to its end and gives
the version a root volume, a verity volume and a UKI. -/
def World.Recovers (cmdline : String) (m : Manifest) (source : String) (v : Version)
    (w : World) : Prop :=
  ∃ rt plan w' rt', w.runtime cmdline = .ok rt ∧ Plan.install rt m source = .ok plan ∧
    w.execAll plan.steps = some w' ∧ w'.runtime cmdline = .ok rt' ∧
    ∃ g ∈ rt'.slotgroups, g.version = some v ∧ g.isComplete = true ∧ g.boot.isSome = true

section Plan

variable {w : World} {kernel : KernelParams} {m : Manifest} {s : Status} {r t : Slot}
  {pre : List Step}

theorem Chosen.length_pre (h : Chosen w kernel m s r t pre) :
    pre.length + 4 = commitPoint (w.runtimeOf kernel) m := by
  cases h with
  | reuse _ hspare _ _ => simp [commitPoint, hspare]
  | create hspare _ _ _ _ _ _ => simp [commitPoint, hspare]

theorem take_plan (source : String) (v : Version) (active : SlotGroup) (k : Nat) :
    (pre ++ (writeSteps m source r t ++ (commitSteps m source v r t ++
        migrationSteps active))).take k =
      (pre ++ writeSteps m source r t).take k ++
        ((commitSteps m source v r t).take (k - (pre.length + 4)) ++
          (migrationSteps active).take (k - (pre.length + 7))) := by
  have hw : (writeSteps m source r t).length = 4 := rfl
  have hc : (commitSteps m source v r t).length = 3 := rfl
  rw [← List.append_assoc, List.take_append, List.length_append, hw]
  congr 1
  rw [List.take_append, hc, Nat.sub_sub, Nat.add_assoc]

end Plan

section Recovery

variable {w : World} {cmdline : String} {kernel : KernelParams} {m : Manifest} {source : String}
  {v : Version} {a s : Status} {r t : Slot} {pre : List Step} {active : SlotGroup} {w' : World}
  {size : Nat} {id : String} {b : BootEntry}

theorem group_boot_isSome (h : w.names.Sound) (hb : b ∈ w.names.ukis) (hbv : b.version = some v) :
    (w.group (.used v)).boot.isSome = true := by
  have hboot : (w.group (.used v)).boot = some b := group_boot_of_sound h hb hbv
  rw [hboot]
  rfl

theorem recovers_of_chosen (hk : KernelParams.fromCmdline cmdline = .ok kernel)
    (h : w.names.Sound) (hm : m.RoundTrips) (hv : m.toVersion = .ok v)
    (fresh : ∀ k, (k, Status.used v) ∉ w.names.keys) (hc : Chosen w kernel m s r t pre)
    (hactive : (w.runtimeOf kernel).activeSlot = .ok active) :
    w.Recovers cmdline m source v := by
  obtain ⟨plain, u, hu, rfl⟩ := hm.names hv
  obtain ⟨n', hrun, hesp, hnodup, hkeys⟩ := hc.complete source active h.nodup plain fresh
  have hsound := h.install hc.slots.1 (fresh .root) hu hesp hnodup hkeys
  have hplan : Plan.install (w.runtimeOf kernel) m source = .ok ⟨_⟩ :=
    install_eq_ok.mpr ⟨_, hv, Or.inr ⟨fun hi => fresh _ hi.1, s, r, t, pre, active, hc, hactive,
      rfl⟩⟩
  obtain ⟨w', hw', rfl⟩ := World.execAll_of_names hrun
  have hkey : ∀ k, (k, Status.used u.version) ∈ w'.names.keys := fun k =>
    (hkeys _).mpr (Or.inl rfl)
  refine ⟨_, _, w', _, World.runtime_of_sound hk h, hplan, hw', World.runtime_of_sound hk hsound,
    w'.group (.used u.version), World.group_mem (hkey .root), World.group_version (hkey .root),
    World.group_isComplete.mpr ⟨hkey _, hkey _⟩, ?_⟩
  have hb := (Names.mem_ukis_install hesp hu).mpr (Or.inl rfl)
  exact group_boot_isSome hsound hb rfl

theorem recovers_of_installed (hk : KernelParams.fromCmdline cmdline = .ok kernel)
    (h : w.names.Sound) (hv : m.toVersion = .ok v) (hinst : w.names.Installed v)
    (hb : b ∈ w.names.ukis) (hbv : b.version = some v) : w.Recovers cmdline m source v := by
  have hplan : Plan.install (w.runtimeOf kernel) m source = .ok ⟨[]⟩ :=
    install_eq_ok.mpr ⟨v, hv, Or.inl ⟨hinst, rfl⟩⟩
  exact ⟨_, _, w, _, World.runtime_of_sound hk h, hplan, rfl, World.runtime_of_sound hk h,
    w.group (.used v), World.group_mem hinst.1, World.group_version hinst.1,
    World.group_isComplete.mpr hinst, group_boot_isSome h hb hbv⟩

/-- In tidy names a complete empty pair is all the retry needs. -/
theorem recovers_of_spare (hk : KernelParams.fromCmdline cmdline = .ok kernel)
    (h : w.names.Tidy kernel a) (hm : m.RoundTrips) (hv : m.toVersion = .ok v)
    (fresh : ∀ k, (k, Status.used v) ∉ w.names.keys) (hs : s.isEmpty = true)
    (hroot : (Kind.root, s) ∈ w.names.keys) : w.Recovers cmdline m source v := by
  cases hspare : (w.runtimeOf kernel).spareSlot with
  | none => exact absurd ((h.paired s).mp hroot) (World.spareSlot_eq_none.mp hspare s hs hroot)
  | some g =>
      obtain ⟨s', r', t', hs', hr', ht', rfl, _⟩ := group_of_spare hspare
      exact recovers_of_chosen hk h.toSound hm hv fresh (.reuse hs' hspare hr' ht')
        (World.activeSlot_of_tidy h)

theorem allocateEmptyIdentifier_isOk {i : Nat} (hi : i < 100)
    (hfree : ∀ k, (k, Status.empty (.known (toString i))) ∉ w.names.keys) :
    ∃ id, (w.runtimeOf kernel).allocateEmptyIdentifier = .ok id := by
  have hsome : (((List.range 100).map fun i => (toString i : String)).find? fun c =>
      !((w.runtimeOf kernel).slotgroups.filterMap SlotGroup.emptyId).contains c).isSome = true := by
    refine List.find?_isSome.mpr ⟨toString i, List.mem_map_of_mem (List.mem_range.mpr hi), ?_⟩
    rw [Bool.not_eq_true', List.contains_eq_mem, decide_eq_false_iff_not, World.mem_emptyIds]
    rintro ⟨k, hk⟩
    exact hfree k hk
  obtain ⟨id, hid⟩ := Option.isSome_iff_exists.mp hsome
  exact ⟨id, Outcome.context_eq_ok.mpr hid⟩

/-- A half pair that an interrupted creation leaves does not hide other slots. -/
theorem slot_of_created {k k' : Kind} {vg id : String} (plain : (Status.empty (.known id)).Plain)
    (ha : a ≠ .empty (.known id)) (hexec : w.exec (createStep k' vg id size) = some w') :
    w'.slot k a = w.slot k a := by
  simp only [World.exec, createStep] at hexec
  split at hexec
  · cases hexec
  · cases hexec
    have hkey : (createdSlot k' vg id size).key ≠ (k, a) := fun e => ha (congrArg Prod.snd e).symm
    have hvolume : Slot.ofVolume ⟨Slot.displayName k' (.empty (.known id)), vg, some size⟩ =
        some (createdSlot k' vg id size) := by
      simp [Slot.ofVolume, Slot.decodeStatus_displayName plain, createdSlot]
    simp [World.slot, World.slots, World.volumes, Slot.fromVolumes_fst, hvolume, slotFor_concat,
      hkey]

/-- The names after the first of the two creations. -/
structure Names.HalfCreated (n n' : Names) (id : String) : Prop where
  nodup : n'.keys.Nodup
  esp : n'.esp = n.esp
  mem_keys : ∀ c, c ∈ n'.keys ↔ c ∈ n.keys ∨ c = (Kind.root, .empty (.known id))

theorem halfCreated_of_exec {vg id : String} (nodup : w.names.keys.Nodup)
    (plain : (Status.empty (.known id)).Plain)
    (hfresh : ∀ k, (k, Status.empty (.known id)) ∉ w.names.keys)
    (hexec : w.exec (createStep .root vg id size) = some w') : w.names.HalfCreated w'.names id := by
  have hnames := World.names_exec w (createStep .root vg id size)
  obtain ⟨n', hn', _, hkeys, hesp⟩ := Names.exec_lvcreate vg size plain (hfresh .root)
  rw [hexec, createStep, hn', Option.map_some, Option.some.injEq] at hnames
  subst hnames
  refine ⟨?_, hesp, fun c => by simp [hkeys]⟩
  rw [hkeys, ← List.concat_eq_append]
  exact nodup.concat (hfresh .root)

theorem Names.HalfCreated.sound {n n' : Names} (hc : n.HalfCreated n' id) (h : n.Sound) :
    n'.Sound := by
  have hukis : n'.ukis = n.ukis := Names.ukis_congr hc.esp
  refine ⟨hc.nodup, fun b hb => ?_, ?_⟩
  · obtain ⟨x, hx, hkx⟩ := h.attached b (hukis ▸ hb)
    exact ⟨x, hx, (hc.mem_keys _).mpr (Or.inl hkx)⟩
  · rw [hukis]
    exact h.single

theorem isEmpty_of_no_spare (h : w.names.Tidy kernel a)
    (hspare : (w.runtimeOf kernel).spareSlot = none) {k : Kind} (hks : (k, s) ∈ w.names.keys) :
    s.isEmpty = false := by
  by_contra hs
  rw [Bool.not_eq_false] at hs
  have hroot := h.key_iff.mp hks
  exact World.spareSlot_eq_none.mp hspare s hs hroot ((h.paired s).mp hroot)

section HalfCreated

variable {w' : World} {id : String} (h : w.names.Tidy kernel a)
  (hc : w.names.HalfCreated w'.names id)

include h hc

theorem activeSlot_of_halfCreated : (w'.runtimeOf kernel).activeSlot = .ok (w'.group a) := by
  refine World.activeSlot_of_unique (World.isOrphan_of_sound (hc.sound h.toSound))
    ((hc.mem_keys _).mpr (Or.inl h.present)) h.isActive fun k s hs hact => ?_
  rcases (hc.mem_keys _).mp hs with hs | hs
  · exact h.eq_active hs hact
  · cases hs
    cases hact

theorem spareSlot_of_halfCreated (hspare : (w.runtimeOf kernel).spareSlot = none) :
    (w'.runtimeOf kernel).spareSlot = none := by
  refine World.spareSlot_eq_none.mpr fun s hs _ hverity => ?_
  rcases (hc.mem_keys _).mp hverity with hverity | hverity
  · exact Bool.false_ne_true ((isEmpty_of_no_spare h hspare hverity).symm.trans hs)
  · cases hverity

/-- Only one identifier is taken, so one of the first two is free. -/
theorem allocate_of_halfCreated (hspare : (w.runtimeOf kernel).spareSlot = none) :
    ∃ id', (w'.runtimeOf kernel).allocateEmptyIdentifier = .ok id' := by
  obtain ⟨i, hi, hfree⟩ : ∃ i < 100, (toString i : String) ≠ id := by
    by_cases h0 : (toString 0 : String) = id
    · exact ⟨1, by decide, fun h1 => absurd (h0.trans h1.symm) (by decide)⟩
    · exact ⟨0, by decide, h0⟩
  refine allocateEmptyIdentifier_isOk hi fun k hki => ?_
  rcases (hc.mem_keys _).mp hki with hki | hki
  · exact Bool.false_ne_true (isEmpty_of_no_spare h hspare hki).symm
  · cases hki
    exact hfree rfl

end HalfCreated

/-- A creation interrupted after its first volume starts over with another
identifier. -/
theorem recovers_of_half_created {ar av : Slot} {rs vs : Nat}
    (hk : KernelParams.fromCmdline cmdline = .ok kernel) (h : w.names.Tidy kernel a)
    (hm : m.RoundTrips) (hv : m.toVersion = .ok v) (fresh : ∀ k, (k, Status.used v) ∉ w.names.keys)
    (hspare : (w.runtimeOf kernel).spareSlot = none)
    (halloc : (w.runtimeOf kernel).allocateEmptyIdentifier = .ok id)
    (har : w.slot .root a = some ar) (hav : w.slot .verity a = some av)
    (hrs : m.store.unpackedSize.or ar.volume.lvSizeBytes = some rs)
    (hvs : m.verity.unpackedSize.or av.volume.lvSizeBytes = some vs)
    (hexec : w.exec (createStep .root ar.volume.vgName id size) = some w') :
    w'.Recovers cmdline m source v := by
  obtain ⟨plain, hfresh⟩ := World.allocateEmptyIdentifier_fresh halloc
  have hc := halfCreated_of_exec h.nodup plain hfresh hexec
  have hactive := activeSlot_of_halfCreated h hc
  obtain ⟨id', halloc'⟩ := allocate_of_halfCreated h hc hspare
  have ha : a ≠ .empty (.known id) := (h.ne_active_of_isEmpty rfl).symm
  have har' : (w'.group a).root = some ar := (slot_of_created plain ha hexec).trans har
  have hav' : (w'.group a).verity = some av := (slot_of_created plain ha hexec).trans hav
  have hfresh' : ∀ k, (k, Status.used v) ∉ w'.names.keys := by
    intro k hkv
    rcases (hc.mem_keys _).mp hkv with hkv | hkv
    · exact fresh k hkv
    · cases hkv
  exact recovers_of_chosen hk (hc.sound h.toSound) hm hv hfresh'
    (.create (spareSlot_of_halfCreated h hc hspare) hactive har' hav' halloc' hrs hvs) hactive

theorem tidy_of_created {n n' : Names} (h : n.Tidy kernel a)
    (fresh : ∀ k, (k, Status.empty (.known id)) ∉ n.keys) (hesp : n'.esp = n.esp)
    (nodup : n'.keys.Nodup) (keys : ∀ c, c ∈ n'.keys ↔ c ∈ n.keys ∨ c.2 = .empty (.known id)) :
    n'.Tidy kernel a := by
  have hkeys : ∀ c, c ∈ n'.keys ↔
      c.2 = .empty (.known id) ∨ (c ∈ n.keys ∧ c.2 ≠ .empty (.known id)) := by
    rintro ⟨k, s⟩
    rw [keys]
    constructor
    · rintro (hc | hc)
      · exact Or.inr ⟨hc, fun e => fresh k (e ▸ hc)⟩
      · exact Or.inl hc
    · rintro (hc | ⟨hc, _⟩)
      · exact Or.inr hc
      · exact Or.inl hc
  have hukis : n'.ukis = n.ukis := Names.ukis_congr hesp
  refine h.replace (h.ne_active_of_isEmpty rfl) rfl hkeys (h.toSound.replace nodup hkeys ?_ ?_)
  · intro b hb
    rw [hukis] at hb
    obtain ⟨x, _, hbv⟩ := Names.version_of_mem_ukis hb
    exact Or.inl ⟨hb, by simp [hbv, Status.version]⟩
  · rw [hukis]
    exact h.single

/-- A creation interrupted after both volumes is found again as a spare pair. -/
theorem recovers_of_created {source' vg id : String} {rs vs k : Nat}
    (hk : KernelParams.fromCmdline cmdline = .ok kernel) (h : w.names.Tidy kernel a)
    (hm : m.RoundTrips) (hv : m.toVersion = .ok v) (fresh : ∀ k, (k, Status.used v) ∉ w.names.keys)
    (halloc : (w.runtimeOf kernel).allocateEmptyIdentifier = .ok id)
    (hrun : w.execAll ([createStep .root vg id rs, createStep .verity vg id vs] ++
      (writeSteps m source (createdSlot .root vg id rs) (createdSlot .verity vg id vs)).take k) =
        some w') : w'.Recovers cmdline m source' v := by
  obtain ⟨plain, hfresh⟩ := World.allocateEmptyIdentifier_fresh halloc
  obtain ⟨n₁, hn₁, hpair, hesp₁, hkeys₁⟩ := exec_createPair vg rs vs h.nodup plain hfresh
  have hwrites := hpair.keeps_writeSteps m source
  have hnames := World.names_of_execAll hrun
  rw [Names.execAll_append hn₁, Names.execAll_of_keeps fun step hstep =>
    hwrites step (List.mem_of_mem_take hstep), Option.some.injEq] at hnames
  subst hnames
  refine recovers_of_spare hk (tidy_of_created h hfresh hesp₁ hpair.nodup hkeys₁) hm hv ?_ rfl
    ((hkeys₁ _).mpr (Or.inr rfl))
  intro k hkv
  rcases (hkeys₁ _).mp hkv with hkv | hkv
  · exact fresh k hkv
  · cases hkv

/-- Stopping before the first rename is harmless. -/
theorem recovers_before_commit {source' : String} {k : Nat}
    (hk : KernelParams.fromCmdline cmdline = .ok kernel) (h : w.names.Tidy kernel a)
    (hm : m.RoundTrips) (hv : m.toVersion = .ok v) (fresh : ∀ k, (k, Status.used v) ∉ w.names.keys)
    (hc : Chosen w kernel m s r t pre)
    (hrun : w.execAll ((pre ++ writeSteps m source r t).take k) = some w') :
    w'.Recovers cmdline m source' v := by
  have hnames := World.names_of_execAll hrun
  cases hc with
  | reuse hs hspare hr ht =>
      have hroot := World.slot_isSome.mp (Option.isSome_of_mem hr)
      have hkeeps : ∀ step ∈ Runtime.resizeStepsForSlot (w.group s) m ++
          writeSteps m source r t, w.names.Keeps step := by
        intro step hstep
        rcases List.mem_append.mp hstep with hstep | hstep
        · exact keeps_resizeStepsForSlot s m step hstep
        · exact (World.pair h.nodup hr ht).keeps_writeSteps m source step hstep
      rw [Names.execAll_of_keeps fun step hstep => hkeeps step (List.mem_of_mem_take hstep),
        Option.some.injEq] at hnames
      rw [hnames] at h fresh hroot
      exact recovers_of_spare hk h hm hv fresh hs hroot
  | create hspare hactive har hav halloc hrs hvs =>
      obtain rfl := Outcome.ok.inj (hactive.symm.trans (World.activeSlot_of_tidy h))
      match k, hrun with
      | 0, hrun =>
          cases hrun
          exact recovers_of_chosen hk h.toSound hm hv fresh
            (.create hspare hactive har hav halloc hrs hvs) hactive
      | 1, hrun =>
          obtain ⟨w₁, hexec, hrun⟩ := run_cons_eq_some.mp hrun
          cases hrun
          exact recovers_of_half_created hk h hm hv fresh hspare halloc har hav hrs hvs hexec
      | k + 2, hrun => exact recovers_of_created hk h hm hv fresh halloc hrun

end Recovery

section Stuck

variable {w : World} {cmdline : String} {m : Manifest} {source : String} {v : Version}

theorem World.Recovers.final (h : w.Recovers cmdline m source v) :
    ∃ (kernel : KernelParams) (plan : Plan) (w' : World), w.names.keys.Nodup ∧
      Plan.install (w.runtimeOf kernel) m source = .ok plan ∧
      w.names.execAll plan.steps = some w'.names ∧ w'.names.keys.Nodup ∧
      w'.names.Installed v ∧ ∃ b ∈ w'.names.ukis, b.version = some v := by
  obtain ⟨rt, plan, w', rt', hrt, hplan, hrun, hrt', g, hg, hv, hcomplete, hboot⟩ := h
  obtain ⟨hnodup, _, kernel, _, rfl⟩ := World.runtime_eq_ok_iff.mp hrt
  obtain ⟨hnodup', _, kernel', _, rfl⟩ := World.runtime_eq_ok_iff.mp hrt'
  refine ⟨kernel, plan, w', hnodup, hplan, World.names_of_execAll hrun, hnodup', ?_⟩
  rcases World.mem_slotgroups.mp hg with ⟨k, s, hk, rfl⟩ | ⟨b, _, _, rfl⟩
  · obtain rfl := Status.eq_used_of_version ((World.group_version hk).symm.trans hv)
    obtain ⟨b, hb⟩ := Option.isSome_iff_exists.mp hboot
    obtain ⟨hmem, hbv⟩ := group_boot hb
    exact ⟨World.group_isComplete.mp hcomplete, b, hmem, hbv⟩
  · cases hcomplete

theorem roundTrips_of_recovers {w' : World} {steps : List Step} (h : w.names.Sound)
    (fresh : (Kind.root, Status.used v) ∉ w.names.keys) (hv : m.toVersion = .ok v)
    (hrun : w.execAll steps = some w')
    (hboot : ∀ step ∈ steps, ∀ id ∈ step.bootOperands, id = UkiEntry.display ⟨v, none⟩)
    (hrec : w'.Recovers cmdline m source v) : m.RoundTrips := by
  obtain ⟨kernel, plan, w'', _, hplan, hrun', _, hinst, b, hb, hbv⟩ := hrec.final
  have hboot' : ∀ step ∈ plan.steps, ∀ id ∈ step.bootOperands,
      id = UkiEntry.display ⟨v, none⟩ := by
    obtain ⟨x, hx, hcases⟩ := install_eq_ok.mp hplan
    obtain rfl : x = v := Outcome.ok.inj (hx.symm.trans hv)
    rcases hcases with ⟨_, hsteps⟩ | ⟨_, s, r, t, pre, active, hc, _, hsteps⟩
    · simp [hsteps]
    · rw [hsteps]
      exact bootOperands_install hc
  have hall : w.names.execAll (steps ++ plan.steps) = some w''.names := by
    rw [Names.execAll_append (World.names_of_execAll hrun), hrun']
  obtain ⟨u, hitem, hu, hkind⟩ := Names.mem_ukis.mp hb
  have huv : u.version = v := by
    simpa [BootEntry.version, BootEntry.uki, hkind] using hbv
  refine ⟨v, hv, fun k => Slot.decodeStatus_displayName (Names.plain_of_key hinst.1), u, ?_, huv⟩
  rcases Names.item_of_execAll hall hitem with hitem | ⟨step, hstep, hid⟩
  · exact absurd hbv (h.version_ne fresh (Names.mem_ukis.mpr ⟨u, hitem, hu, hkind⟩))
  · rcases List.mem_append.mp hstep with hstep | hstep
    · rw [← hboot step hstep _ hid]
      exact hu
    · rw [← hboot' step hstep _ hid]
      exact hu

/-- With both volumes renamed and no UKI, the retry finds nothing to do. -/
theorem not_recovers_of_installed (hv : m.toVersion = .ok v) (hinst : w.names.Installed v)
    (hnone : ∀ b ∈ w.names.ukis, b.version ≠ some v) : ¬ w.Recovers cmdline m source v := by
  intro hrec
  obtain ⟨kernel, plan, w', _, hplan, hrun, _, _, b, hb, hbv⟩ := hrec.final
  obtain ⟨x, hx, hcases⟩ := install_eq_ok.mp hplan
  obtain rfl : x = v := Outcome.ok.inj (hx.symm.trans hv)
  rcases hcases with ⟨_, hsteps⟩ | ⟨hnot, _⟩
  · rw [hsteps] at hrun
    have hsame : w.names = w'.names := Option.some.inj hrun
    exact hnone b (hsame ▸ hb) hbv
  · exact hnot hinst

section HalfRenamed

variable {kernel : KernelParams} {s : Status} {r t : Slot} {pre : List Step} {n n' : Names}
  {vg : String} {active : SlotGroup}

theorem mem_ids_of_prepare (plain : (Status.used v).Plain) (hc : Chosen w kernel m s r t pre)
    (hrun : n.execAll pre = some n') (h : (vg, Slot.displayName .root (.used v)) ∈ n.ids) :
    (vg, Slot.displayName .root (.used v)) ∈ n'.ids := by
  refine Names.mem_ids_execAll hrun h fun step hstep hop => ?_
  obtain ⟨k, hk⟩ := (hc.operands step hstep).2 _ hop
  rw [nameKey_displayName plain] at hk
  cases hk
  exact hc.ne_used rfl

theorem mem_ids_of_commit (plain : (Status.used v).Plain)
    (hverity : nameKey t.volume.id = some (.verity, s))
    (hrun : n.execAll (renameStep .verity t (.used v) ::
      .installUki m.kernel "/boot" source (UkiEntry.display ⟨v, none⟩) ::
        migrationSteps active) = some n')
    (h : (vg, Slot.displayName .root (.used v)) ∈ n.ids) :
    (vg, Slot.displayName .root (.used v)) ∈ n'.ids := by
  have hkey : nameKey (vg, Slot.displayName .root (.used v)) = some (.root, .used v) :=
    nameKey_displayName plain
  refine Names.mem_ids_execAll hrun h fun step hstep hop => ?_
  rcases List.mem_cons.mp hstep with rfl | hstep
  · simp only [renameStep, Step.lvOperands, List.mem_cons, List.not_mem_nil, or_false] at hop
    rcases hop with hop | hop
    · rw [hop] at hkey
      exact absurd (hkey.symm.trans hverity) (by simp)
    · rw [hop, nameKey_displayName plain] at hkey
      cases hkey
  · rcases List.mem_cons.mp hstep with rfl | hstep
    · cases hop
    · rw [(operands_migrationSteps hstep).2] at hop
      cases hop

end HalfRenamed

/-- With only the root volume renamed, the name it took blocks the retry. -/
theorem not_recovers_of_half_renamed (vg : String) (hv : m.toVersion = .ok v)
    (plain : (Status.used v).Plain)
    (hroot : (vg, Slot.displayName .root (.used v)) ∈ w.names.ids)
    (hverity : (Kind.verity, Status.used v) ∉ w.names.keys) : ¬ w.Recovers cmdline m source v := by
  intro hrec
  obtain ⟨kernel, plan, w', hnodup, hplan, hrun, hnodup', _⟩ := hrec.final
  obtain ⟨x, hx, hcases⟩ := install_eq_ok.mp hplan
  obtain rfl : x = v := Outcome.ok.inj (hx.symm.trans hv)
  rcases hcases with ⟨hinst, _⟩ | ⟨_, s, r, t, pre, active, hc, _, hsteps⟩
  · exact hverity hinst.2
  obtain ⟨n₁, hn₁, hpair, _⟩ := hc.prepare hnodup
  have hkey : ∀ vg, nameKey (vg, Slot.displayName .root (.used x)) = some (.root, .used x) :=
    fun _ => nameKey_displayName plain
  have hroot₁ := mem_ids_of_prepare plain hc hn₁ hroot
  rw [hsteps, Names.execAll_append hn₁,
    Names.execAll_append (Names.execAll_of_keeps (hpair.keeps_writeSteps m source))] at hrun
  obtain ⟨n₂, hn₂, hrun⟩ := run_cons_eq_some.mp hrun
  obtain ⟨_, hfree, rfl⟩ := Names.exec_lvrename_eq_some.mp hn₂
  -- the rename went through, so it was in another volume group and made a duplicate
  have hne : (vg, Slot.displayName .root (.used x)) ≠ r.volume.id := by
    intro e
    have hk := (hkey vg).symm.trans (e ▸ hpair.rootKey)
    cases hk
    exact hc.ne_used rfl
  have hold := mem_ids_of_commit plain hpair.verityKey hrun
    (List.mem_map.mpr ⟨_, hroot₁, if_neg hne⟩)
  have hnew := mem_ids_of_commit plain hpair.verityKey hrun
    (List.mem_map.mpr ⟨_, hpair.root, if_pos rfl⟩)
  have heq := eq_of_nodup_keys hnodup' hold hnew (hkey _) (hkey _)
  rw [heq] at hroot₁
  exact hfree hroot₁

end Stuck

section Commit

variable {w w' : World} {cmdline source : String} {kernel : KernelParams} {m : Manifest}
  {u : UkiEntry} {s : Status} {r t : Slot} {pre : List Step} {n : Names}

theorem not_recovers_after_first_rename (hv : m.toVersion = .ok u.version)
    (plain : (Status.used u.version).Plain) (hpair : n.Pair s r t)
    (fresh : ∀ k, (k, Status.used u.version) ∉ n.keys)
    (hrun : n.execAll [renameStep .root r (.used u.version)] = some w'.names) :
    ¬ w'.Recovers cmdline m source u.version := by
  obtain ⟨n₂, hn₂, hids, _, hkeys, _⟩ :=
    Names.exec_lvrename hpair.nodup hpair.root hpair.rootKey plain (fresh .root)
  obtain hsame : n₂ = w'.names := Option.some.inj ((run_cons_of_some _ hn₂).symm.trans hrun)
  refine not_recovers_of_half_renamed r.volume.vgName hv plain ?_ ?_
  · rw [← hsame, hids]
    exact List.mem_map.mpr ⟨_, hpair.root, if_pos rfl⟩
  · rw [← hsame, hkeys]
    rintro (hv | ⟨hv, _⟩)
    · cases hv
    · exact fresh .verity hv

theorem not_recovers_after_second_rename (hv : m.toVersion = .ok u.version)
    (plain : (Status.used u.version).Plain) (hpair : n.Pair s r t)
    (fresh : ∀ k, (k, Status.used u.version) ∉ n.keys)
    (hnone : ∀ b ∈ n.ukis, b.version ≠ some u.version)
    (hrun : n.execAll [renameStep .root r (.used u.version),
      renameStep .verity t (.used u.version)] = some w'.names) :
    ¬ w'.Recovers cmdline m source u.version := by
  obtain ⟨n₂, hn₂, hesp, _, hkeys⟩ := hpair.rename plain fresh
  obtain hsame : n₂ = w'.names := Option.some.inj (hn₂.symm.trans hrun)
  refine not_recovers_of_installed hv ⟨?_, ?_⟩ ?_
  · exact hsame ▸ (hkeys _).mpr (Or.inl rfl)
  · exact hsame ▸ (hkeys _).mpr (Or.inl rfl)
  · rw [← hsame, Names.ukis_congr hesp]
    exact hnone

theorem recovers_after_uki {active : SlotGroup} {j : Nat}
    (hk : KernelParams.fromCmdline cmdline = .ok kernel) (h : w.names.Sound)
    (hv : m.toVersion = .ok u.version)
    (hu : UkiEntry.fromStr (UkiEntry.display ⟨u.version, none⟩) = .ok u)
    (plain : (Status.used u.version).Plain)
    (fresh : ∀ k, (k, Status.used u.version) ∉ w.names.keys) (hs : s.isEmpty = true)
    (hpair : n.Pair s r t) (hesp : n.esp = w.names.esp)
    (fresh' : ∀ k, (k, Status.used u.version) ∉ n.keys)
    (hkeys : ∀ c : Kind × Status, c.2 ≠ s → (c ∈ n.keys ↔ c ∈ w.names.keys))
    (hrun : n.execAll (commitSteps m source u.version r t ++ (migrationSteps active).take j) =
      some w'.names) : w'.Recovers cmdline m source u.version := by
  obtain ⟨n₂, hn₂, hesp₂, hnodup₂, hkeys₂⟩ := hpair.commit source plain fresh'
  rw [Names.execAll_append hn₂, Names.execAll_of_keeps fun step hstep =>
    keeps_migrationSteps active step (List.mem_of_mem_take hstep), Option.some.injEq] at hrun
  subst hrun
  have hsound : w'.names.Sound := by
    refine h.install hs (fresh .root) hu (by rw [hesp₂, hesp]) hnodup₂ fun c => ?_
    rw [hkeys₂, and_comm, and_comm (b := c.2 ≠ s)]
    exact or_congr_right (and_congr_right fun hne => hkeys c hne)
  exact recovers_of_installed hk hsound hv
    ⟨(hkeys₂ _).mpr (Or.inl rfl), (hkeys₂ _).mpr (Or.inl rfl)⟩
    ((Names.mem_ukis_install hesp₂ hu).mpr (Or.inl rfl)) rfl

end Commit

theorem recovers_iff_of_roundTrips {w w' : World} {cmdline source : String}
    {kernel : KernelParams} {m : Manifest} {v : Version} {a s : Status} {r t : Slot}
    {pre : List Step} {active : SlotGroup} {k : Nat}
    (hk : KernelParams.fromCmdline cmdline = .ok kernel) (h : w.names.Tidy kernel a)
    (hm : m.RoundTrips) (hv : m.toVersion = .ok v)
    (fresh : ∀ k, (k, Status.used v) ∉ w.names.keys) (hc : Chosen w kernel m s r t pre)
    (hrun : w.execAll ((pre ++ (writeSteps m source r t ++ (commitSteps m source v r t ++
      migrationSteps active))).take k) = some w') :
    w'.Recovers cmdline m source v ↔ k ≤ pre.length + 4 ∨ pre.length + 4 + 3 ≤ k := by
  rw [take_plan] at hrun
  by_cases hbefore : k ≤ pre.length + 4
  · rw [Nat.sub_eq_zero_of_le hbefore, Nat.sub_eq_zero_of_le (by omega), List.take_zero,
      List.take_zero, List.append_nil, List.append_nil] at hrun
    exact iff_of_true (recovers_before_commit hk h hm hv fresh hc hrun) (Or.inl hbefore)
  have hall : (pre ++ writeSteps m source r t).take k = pre ++ writeSteps m source r t :=
    List.take_of_length_le (by simp [writeSteps]; omega)
  obtain ⟨plain, u, hu, rfl⟩ := hm.names hv
  obtain ⟨n₁, hn₁, hpair, hesp₁, hfresh₁, hkeys₁⟩ := hc.written source h.nodup fresh
  have hnames := World.names_of_execAll hrun
  rw [hall, Names.execAll_append hn₁] at hnames
  by_cases hafter : pre.length + 7 ≤ k
  · have hcommit : (commitSteps m source u.version r t).take (k - (pre.length + 4)) =
        commitSteps m source u.version r t :=
      List.take_of_length_le (by simp [commitSteps]; omega)
    rw [hcommit] at hnames
    exact iff_of_true (recovers_after_uki hk h.toSound hv hu plain fresh hc.slots.1 hpair hesp₁
      hfresh₁ hkeys₁ hnames) (Or.inr hafter)
  · refine iff_of_false ?_ (by omega)
    rw [Nat.sub_eq_zero_of_le (by omega : k ≤ pre.length + 7), List.take_zero,
      List.append_nil] at hnames
    have hnone : ∀ b ∈ n₁.ukis, b.version ≠ some u.version := by
      rw [Names.ukis_congr hesp₁]
      exact fun b => h.toSound.version_ne (fresh .root)
    obtain hk1 | hk2 : k - (pre.length + 4) = 1 ∨ k - (pre.length + 4) = 2 := by omega
    · rw [hk1] at hnames
      exact not_recovers_after_first_rename hv plain hpair hfresh₁ hnames
    · rw [hk2] at hnames
      exact not_recovers_after_second_rename hv plain hpair hfresh₁ hnone hnames

/-- An interrupted install of a version that is not there yet recovers exactly when
the version has readable names and the run did not stop between the first rename
and the UKI. -/
theorem install_crash_recovers_iff {w w' : World} {cmdline source : String} {rt : Runtime}
    {m : Manifest} {v : Version} {plan : Plan} {k : Nat}
    (hrt : w.runtime cmdline = .ok rt) (hw : rt.WellFormed) (hv : m.toVersion = .ok v)
    (hnew : ∀ g ∈ rt.slotgroups, g.version ≠ some v)
    (hplan : Plan.install rt m source = .ok plan)
    (hrun : w.execAll (plan.steps.take k) = some w') :
    w'.Recovers cmdline m source v ↔
      m.RoundTrips ∧ (k ≤ commitPoint rt m ∨ commitPoint rt m + 3 ≤ k) := by
  obtain ⟨active, hactive⟩ := hw.active
  obtain ⟨kernel, a, hk, rfl, h, rfl⟩ := World.tidy_of_wellFormed hrt hw hactive
  have fresh := (World.fresh_of_unreported hnew).1
  obtain ⟨x, hx, hcases⟩ := install_eq_ok.mp hplan
  obtain rfl : x = v := Outcome.ok.inj (hx.symm.trans hv)
  rcases hcases with ⟨hinst, _⟩ | ⟨_, s, r, t, pre, active, hc, _, hsteps⟩
  · exact absurd hinst.1 (fresh .root)
  have hboot : ∀ step ∈ plan.steps.take k, ∀ id ∈ step.bootOperands,
      id = UkiEntry.display ⟨x, none⟩ := by
    intro step hstep
    rw [hsteps] at hstep
    exact bootOperands_install hc step (List.mem_of_mem_take hstep)
  rw [← hc.length_pre]
  by_cases hm : m.RoundTrips
  · rw [hsteps] at hrun
    rw [recovers_iff_of_roundTrips hk h hm hv fresh hc hrun, and_iff_right hm]
  · constructor
    · exact fun hrec =>
        absurd (roundTrips_of_recovers h.toSound (fresh .root) hv hrun hboot hrec) hm
    · exact fun hcond => absurd hcond.1 hm

def legacyEmptySlot (k : Kind) : Slot :=
  ⟨k, .empty .legacy, ⟨Slot.displayName k (.empty .legacy), "pool", some 5⟩⟩

def legacyInstallPlan : Plan :=
  ⟨writeSteps sampleManifest "/sysupdate" (legacyEmptySlot .root) (legacyEmptySlot .verity) ++
    (commitSteps sampleManifest "/sysupdate" sampleVersion (legacyEmptySlot .root)
      (legacyEmptySlot .verity) ++ migrationSteps (legacyWorld.group (.used ⟨"0", none⟩)))⟩

theorem install_legacyWorld :
    Plan.install (legacyWorld.runtimeOf legacyKernel) sampleManifest "/sysupdate" =
      .ok legacyInstallPlan := by
  decide +kernel

def renamedNames : Names :=
  ⟨[("pool", "persist"), ("pool", "root_0"), ("pool", "root_25.12.1_44cc41b403a2d323"),
    ("pool", "swap"), ("pool", "verity_0"), ("pool", "verity_25.12.1_44cc41b403a2d323")],
    legacyWorld.esp⟩

theorem legacyInstall_samples :
    sampleManifest.toVersion = .ok sampleVersion ∧
      (∀ g ∈ (legacyWorld.runtimeOf legacyKernel).slotgroups,
        g.version ≠ some sampleVersion) ∧
      (legacyWorld.execAll (legacyInstallPlan.steps.take 3)).isSome = true ∧
      legacyWorld.names.execAll (legacyInstallPlan.steps.take 6) = some renamedNames ∧
      renamedNames.Installed sampleVersion ∧
      ∀ b ∈ renamedNames.ukis, b.version ≠ some sampleVersion := by
  decide +kernel

theorem install_crash_recovers_iff_legacyWorld :
    ∃ w', legacyWorld.execAll (legacyInstallPlan.steps.take 3) = some w' ∧
      (w'.Recovers "root=fstab" sampleManifest "/sysupdate" sampleVersion ↔
        sampleManifest.RoundTrips ∧
          (3 ≤ commitPoint (legacyWorld.runtimeOf legacyKernel) sampleManifest ∨
            commitPoint (legacyWorld.runtimeOf legacyKernel) sampleManifest + 3 ≤ 3)) := by
  rcases legacyInstall_samples with ⟨hversion, hnew, hsome, -⟩
  obtain ⟨w', hw'⟩ := Option.isSome_iff_exists.mp hsome
  exact ⟨w', hw', install_crash_recovers_iff legacyWorld_runtime legacyWorld_wellFormed
    hversion hnew install_legacyWorld hw'⟩

/-- Stopping after the two renames of the sample update leaves a version without
UKI that the second run takes for installed. -/
theorem install_crash_loses_uki :
    legacyWorld.runtime "root=fstab" = .ok (legacyWorld.runtimeOf legacyKernel) ∧
      (legacyWorld.runtimeOf legacyKernel).WellFormed ∧
      sampleManifest.toVersion = .ok sampleVersion ∧
      (∀ g ∈ (legacyWorld.runtimeOf legacyKernel).slotgroups, g.version ≠ some sampleVersion) ∧
      Plan.install (legacyWorld.runtimeOf legacyKernel) sampleManifest "/sysupdate" =
        .ok legacyInstallPlan ∧
      ∃ w', legacyWorld.execAll (legacyInstallPlan.steps.take 6) = some w' ∧
        ¬ w'.Recovers "root=fstab" sampleManifest "/sysupdate" sampleVersion := by
  rcases legacyInstall_samples with ⟨hversion, hnew, -, hnames, hinstalled, hukis⟩
  refine ⟨legacyWorld_runtime, legacyWorld_wellFormed, hversion, hnew, install_legacyWorld, ?_⟩
  obtain ⟨w', hw', hn⟩ := World.execAll_of_names hnames
  refine ⟨w', hw', not_recovers_of_installed hversion ?_ ?_⟩
  · rw [hn]
    exact hinstalled
  · rw [hn]
    exact hukis

end GhafGivc.Image
