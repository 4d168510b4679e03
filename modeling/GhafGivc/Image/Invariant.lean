import GhafGivc.Image.Planning

/-! # The A/B invariant over runs of commands

A world is well formed when every slot is a complete pair, every UKI belongs to
one, and the running system has a slot. On the names this is `Names.Tidy`, which
both planners preserve because each of them replaces one inactive status by a
fresh one.
-/

namespace GhafGivc.Image

open Core SlotGroup

structure Runtime.WellFormed (rt : Runtime) : Prop where
  complete : ∀ g ∈ rt.slotgroups, g.root.isSome ∨ g.verity.isSome → g.isComplete
  attached : ∀ g ∈ rt.slotgroups, g.boot.isSome → g.isComplete
  active : ∃ g, rt.activeSlot = .ok g

def World.WellFormed (cmdline : String) (w : World) : Prop :=
  ∃ rt, w.runtime cmdline = .ok rt ∧ rt.WellFormed

/-- Clash-free names without orphan UKIs; slots may be half pairs. -/
structure Names.Sound (n : Names) : Prop where
  nodup : n.keys.Nodup
  attached : ∀ b ∈ n.ukis, ∃ v, b.version = some v ∧ (Kind.root, Status.used v) ∈ n.keys
  single : ∀ b ∈ n.ukis, ∀ c ∈ n.ukis, b.version = c.version → b = c

/-- Well-formedness of the names, `a` being the active status. -/
structure Names.Tidy (kernel : KernelParams) (a : Status) (n : Names) : Prop
    extends Names.Sound n where
  paired : ∀ s, (Kind.root, s) ∈ n.keys ↔ (Kind.verity, s) ∈ n.keys
  present : (Kind.root, a) ∈ n.keys
  isActive : a.isActive kernel = true
  unique : ∀ s, (Kind.root, s) ∈ n.keys → s.isActive kernel = true → s = a

namespace Names

variable {kernel : KernelParams} {a s s' : Status} {n n' : Names} {k : Kind}

namespace Sound

theorem version_ne {v : Version} {b : BootEntry} (h : n.Sound)
    (fresh : (Kind.root, Status.used v) ∉ n.keys) (hb : b ∈ n.ukis) : b.version ≠ some v := by
  intro hbv
  obtain ⟨x, hx, hk⟩ := h.attached b hb
  obtain rfl : v = x := Option.some.inj (hbv.symm.trans hx)
  exact fresh hk

/-- Replacing one status by another, and its UKI by one of the new status. -/
theorem replace (h : n.Sound) (nodup : n'.keys.Nodup)
    (keys : ∀ c, c ∈ n'.keys ↔ c.2 = s' ∨ (c ∈ n.keys ∧ c.2 ≠ s))
    (ukis : ∀ b ∈ n'.ukis, b ∈ n.ukis ∧ b.version ≠ s.version ∨
      b.version = s'.version ∧ s'.isEmpty = false)
    (single : ∀ b ∈ n'.ukis, ∀ c ∈ n'.ukis, b.version = c.version → b = c) : n'.Sound where
  nodup := nodup
  attached b hb := by
    rcases ukis b hb with ⟨hb, hne⟩ | ⟨hv, he⟩
    · obtain ⟨v, hv, hk⟩ := h.attached b hb
      refine ⟨v, hv, (keys _).mpr (Or.inr ⟨hk, ?_⟩)⟩
      rintro rfl
      exact hne hv
    · match s', hv, he with
      | .used v, hv, _ => exact ⟨v, hv, (keys _).mpr (Or.inl rfl)⟩
  single := single

/-- Turning an empty status into a fresh version and installing its UKI. -/
theorem install {u : UkiEntry} {name : String} (h : n.Sound) (hs : s.isEmpty = true)
    (fresh : (Kind.root, Status.used u.version) ∉ n.keys) (hu : UkiEntry.fromStr name = .ok u)
    (hesp : n'.esp = n.esp.install name) (nodup : n'.keys.Nodup)
    (keys : ∀ c, c ∈ n'.keys ↔ c.2 = .used u.version ∨ (c ∈ n.keys ∧ c.2 ≠ s)) : n'.Sound := by
  have hukis : ∀ b, b ∈ n'.ukis ↔ _ := fun b => mem_ukis_install hesp hu
  refine h.replace nodup keys ?_ ?_
  · intro b hb
    rcases (hukis b).mp hb with rfl | ⟨hb, _⟩
    · exact Or.inr ⟨rfl, rfl⟩
    · refine Or.inl ⟨hb, ?_⟩
      obtain ⟨x, _, hbv⟩ := version_of_mem_ukis hb
      simp [hbv, Status.version_of_isEmpty hs]
  · intro b hb c hc hbc
    rcases (hukis b).mp hb with rfl | ⟨hb, _⟩ <;> rcases (hukis c).mp hc with rfl | ⟨hc, _⟩
    · rfl
    · exact absurd hbc.symm (h.version_ne fresh hc)
    · exact absurd hbc (h.version_ne fresh hb)
    · exact h.single b hb c hc hbc

end Sound

namespace Tidy

theorem key_iff (h : n.Tidy kernel a) : (k, s) ∈ n.keys ↔ (Kind.root, s) ∈ n.keys := by
  cases k with
  | root => rfl
  | verity => exact (h.paired s).symm

theorem eq_active (h : n.Tidy kernel a) (hk : (k, s) ∈ n.keys) (hs : s.isActive kernel = true) :
    s = a :=
  h.unique s (h.key_iff.mp hk) hs

theorem ne_active_of_isEmpty (h : n.Tidy kernel a) (hs : s.isEmpty = true) : s ≠ a := by
  rintro rfl
  exact Bool.false_ne_true ((Status.isActive_of_isEmpty hs).symm.trans h.isActive)

theorem installed_iff {v : Version} (h : n.Tidy kernel a) :
    n.Installed v ↔ (Kind.root, Status.used v) ∈ n.keys := by
  rw [Names.Installed, h.paired, and_self]

/-- Replacing one inactive status by a fresh inactive one keeps the names tidy. -/
theorem replace (h : n.Tidy kernel a) (hs : s ≠ a) (hs' : s'.isActive kernel = false)
    (keys : ∀ c, c ∈ n'.keys ↔ c.2 = s' ∨ (c ∈ n.keys ∧ c.2 ≠ s)) (sound : n'.Sound) :
    n'.Tidy kernel a where
  toSound := sound
  paired u := by rw [keys, keys, h.paired]
  present := (keys _).mpr (Or.inr ⟨h.present, hs.symm⟩)
  isActive := h.isActive
  unique u hu hact := by
    rcases (keys _).mp hu with rfl | ⟨hu, _⟩
    · rw [hs'] at hact
      cases hact
    · exact h.unique u hu hact

end Tidy

end Names

/-! ## Tidy names and well-formed runtimes -/

namespace World

variable {w : World} {kernel : KernelParams} {a : Status} {cmdline : String}

theorem isOrphan_of_sound (h : w.names.Sound) :
    ∀ b ∈ w.names.ukis, isOrphan w.slots b = false := by
  intro b hb
  obtain ⟨v, hv, hk⟩ := h.attached b hb
  exact (isOrphan_eq_false_iff_key hv).mpr hk

theorem mem_slotgroups_of_tidy {g : SlotGroup} (h : w.names.Tidy kernel a)
    (hg : g ∈ (w.runtimeOf kernel).slotgroups) :
    ∃ s, (Kind.root, s) ∈ w.names.keys ∧ w.group s = g := by
  rcases mem_slotgroups.mp hg with ⟨k, s, hk, hg⟩ | ⟨b, hb, ho, _⟩
  · exact ⟨s, h.key_iff.mp hk, hg⟩
  · rw [isOrphan_of_sound h.toSound b hb] at ho
    cases ho

theorem activeSlot_of_tidy (h : w.names.Tidy kernel a) :
    (w.runtimeOf kernel).activeSlot = .ok (w.group a) :=
  activeSlot_of_unique (isOrphan_of_sound h.toSound) h.present h.isActive fun _ _ => h.eq_active

theorem runtime_of_sound (hk : KernelParams.fromCmdline cmdline = .ok kernel) (h : w.names.Sound) :
    w.runtime cmdline = .ok (w.runtimeOf kernel) := by
  refine runtime_of_readable hk ⟨h.nodup, ?_⟩
  intro b hb c hc v hbv hcv _
  exact h.single b hb c hc (hbv.trans hcv.symm)

theorem wellFormed_of_tidy (hk : KernelParams.fromCmdline cmdline = .ok kernel)
    (h : w.names.Tidy kernel a) : w.WellFormed cmdline := by
  have complete : ∀ g ∈ (w.runtimeOf kernel).slotgroups, g.isComplete = true := by
    intro g hg
    obtain ⟨s, hs, rfl⟩ := mem_slotgroups_of_tidy h hg
    exact group_isComplete.mpr ⟨hs, (h.paired s).mp hs⟩
  exact ⟨_, runtime_of_sound hk h.toSound, fun g hg _ => complete g hg,
    fun g hg _ => complete g hg, _, activeSlot_of_tidy h⟩

theorem key_of_complete (complete : ∀ g ∈ (w.runtimeOf kernel).slotgroups,
      g.root.isSome ∨ g.verity.isSome → g.isComplete) {s : Status} (k k' : Kind)
    (hks : (k, s) ∈ w.names.keys) : (k', s) ∈ w.names.keys := by
  have hsome : (w.group s).root.isSome ∨ (w.group s).verity.isSome := by
    cases k
    · exact Or.inl (slot_isSome.mpr hks)
    · exact Or.inr (slot_isSome.mpr hks)
  obtain ⟨hr, hv⟩ := group_isComplete.mp (complete _ (group_mem hks) hsome)
  cases k'
  · exact hr
  · exact hv

theorem tidy_of_wellFormed {rt : Runtime} {active : SlotGroup} (hrt : w.runtime cmdline = .ok rt)
    (hw : rt.WellFormed) (hactive : rt.activeSlot = .ok active) :
    ∃ kernel a, KernelParams.fromCmdline cmdline = .ok kernel ∧ rt = w.runtimeOf kernel ∧
      w.names.Tidy kernel a ∧ active = w.group a := by
  obtain ⟨readable, kernel, hk, rfl⟩ := runtime_iff_readable.mp hrt
  have pair : ∀ k k' s, (k, s) ∈ w.names.keys → (k', s) ∈ w.names.keys :=
    fun k k' _ => key_of_complete hw.complete k k'
  have noOrphan : ∀ b ∈ w.names.ukis, isOrphan w.slots b = false := by
    intro b hb
    by_contra ho
    rw [Bool.not_eq_false] at ho
    exact Bool.false_ne_true (hw.attached (orphan b) (mem_slotgroups.mpr
      (Or.inr ⟨b, hb, ho, rfl⟩)) rfl)
  have hfilter := activeSlot_eq_ok.mp hactive
  obtain ⟨hmem, hact⟩ := List.mem_filter.mp (hfilter ▸ List.mem_singleton_self active)
  rcases mem_slotgroups.mp hmem with ⟨k, a, hka, rfl⟩ | ⟨b, hb, ho, _⟩
  · have attached : ∀ b ∈ w.names.ukis,
        ∃ v, b.version = some v ∧ (Kind.root, Status.used v) ∈ w.names.keys := by
      intro b hb
      obtain ⟨u, _, hv⟩ := Names.version_of_mem_ukis hb
      exact ⟨_, hv, (isOrphan_eq_false_iff_key hv).mp (noOrphan b hb)⟩
    refine ⟨kernel, a, hk, rfl, ⟨⟨readable.nodup, attached, ?_⟩,
      fun s => ⟨pair _ _ s, pair _ _ s⟩, pair _ _ a hka, (group_isActive hka).symm.trans hact,
      ?_⟩, rfl⟩
    · intro b hb c hc hbc
      obtain ⟨v, hbv, hkey⟩ := attached b hb
      exact readable.single b hb c hc v hbv (hbc.symm.trans hbv) hkey
    · intro s hs hsact
      have : w.group s ∈ [w.group a] := hfilter ▸
        List.mem_filter.mpr ⟨group_mem hs, (group_isActive hs).trans hsact⟩
      exact group_inj hs (List.mem_singleton.mp this)
  · rw [noOrphan b hb] at ho
    cases ho

end World

/-! ## Operands -/

namespace Step

/-- The step leaves the volumes and the UKI of the group alone. -/
def Spares (g : SlotGroup) (step : Step) : Prop :=
  (∀ r ∈ g.root, r.volume.id ∉ step.lvOperands) ∧
    (∀ t ∈ g.verity, t.volume.id ∉ step.lvOperands) ∧ ∀ b ∈ g.boot, b.id ∉ step.bootOperands

/-- Every volume operand carries a status other than `a`. -/
def Avoids (a : Status) (step : Step) : Prop :=
  ∀ id ∈ step.lvOperands, ∃ k s, nameKey id = some (k, s) ∧ s ≠ a

end Step

/-- The versions of these manifests survive their slot names and their UKI name. -/
def Manifest.RoundTrips (m : Manifest) : Prop :=
  ∃ v, m.toVersion = .ok v ∧
    (∀ k, Slot.decodeStatus (Slot.displayName k (.used v)) = .ok (k, .used v)) ∧
    ∃ u, UkiEntry.fromStr (UkiEntry.display ⟨v, none⟩) = .ok u ∧ u.version = v

theorem Manifest.RoundTrips.names {m : Manifest} {v : Version} (h : m.RoundTrips)
    (hv : m.toVersion = .ok v) :
    (Status.used v).Plain ∧
      ∃ u, UkiEntry.fromStr (UkiEntry.display ⟨v, none⟩) = .ok u ∧ u.version = v := by
  obtain ⟨x, hx, hname, huki⟩ := h
  obtain rfl : x = v := Outcome.ok.inj (hx.symm.trans hv)
  exact ⟨(Slot.decodeStatus_eq_ok.mp (hname .root)).2, huki⟩

section Install

variable {w : World} {kernel : KernelParams} {m : Manifest} {a s : Status} {v : Version}
  {r t : Slot} {pre : List Step} {source : String} {active : SlotGroup}

theorem operands_resizeStep {slot : Option Slot} {needed : Option Nat} {step : Step}
    (h : step ∈ Runtime.resizeStep slot needed) :
    ∃ r ∈ slot, step.lvOperands = [r.volume.id] ∧ step.bootOperands = [] := by
  match slot, needed with
  | some r, some size =>
      simp only [Runtime.resizeStep] at h
      split at h
      · rw [List.mem_singleton.mp h]
        exact ⟨r, rfl, rfl, rfl⟩
      · cases h
  | some _, none => cases h
  | none, _ => cases h

theorem Chosen.operands (h : Chosen w kernel m s r t pre) :
    ∀ step ∈ pre, step.bootOperands = [] ∧
      ∀ id ∈ step.lvOperands, ∃ k, nameKey id = some (k, s) := by
  intro step hstep
  cases h with
  | reuse hs hspare hr ht =>
      rcases List.mem_append.mp hstep with hstep | hstep <;>
      · obtain ⟨x, hx, hlv, hboot⟩ := operands_resizeStep hstep
        refine ⟨hboot, fun id hid => ?_⟩
        rw [hlv, List.mem_singleton] at hid
        exact ⟨_, hid ▸ (World.slot_spec hx).2.2.2⟩
  | create hspare hactive har hav halloc hrs hvs =>
      have plain := (World.allocateEmptyIdentifier_fresh halloc).1
      simp only [List.mem_cons, List.not_mem_nil, or_false] at hstep
      rcases hstep with rfl | rfl <;>
      · refine ⟨rfl, fun id hid => ?_⟩
        rw [List.mem_singleton.mp hid]
        exact ⟨_, nameKey_displayName plain⟩

theorem operands_renameStep {k : Kind} {s' : Status} (hr : nameKey r.volume.id = some (k, s))
    (plain : s'.Plain) :
    ∀ id ∈ (renameStep k r s').lvOperands, nameKey id = some (k, s) ∨
      nameKey id = some (k, s') := by
  intro id hid
  simp only [renameStep, Step.lvOperands, List.mem_cons, List.not_mem_nil, or_false] at hid
  rcases hid with rfl | rfl
  · exact Or.inl hr
  · exact Or.inr (nameKey_displayName plain)

theorem operands_migrationSteps {step : Step} (h : step ∈ migrationSteps active) :
    step.bootOperands = [] ∧ step.lvOperands = [] := by
  unfold migrationSteps at h
  split at h
  · simp only [List.mem_cons, List.not_mem_nil, or_false] at h
    rcases h with rfl | rfl | rfl <;> exact ⟨rfl, rfl⟩
  · cases h

theorem bootOperands_install (h : Chosen w kernel m s r t pre) :
    ∀ step ∈ pre ++ (writeSteps m source r t ++ (commitSteps m source v r t ++
        migrationSteps active)),
      ∀ id ∈ step.bootOperands, id = UkiEntry.display ⟨v, none⟩ := by
  intro step hstep
  simp only [List.mem_append] at hstep
  rcases hstep with hstep | hstep | hstep | hstep
  · simp [(h.operands step hstep).1]
  · simp only [writeSteps, List.mem_cons, List.not_mem_nil, or_false] at hstep
    rcases hstep with rfl | rfl | rfl | rfl <;> simp [Step.bootOperands]
  · simp only [commitSteps, List.mem_cons, List.not_mem_nil, or_false] at hstep
    rcases hstep with rfl | rfl | rfl <;> simp [Step.bootOperands, renameStep]
  · simp [(operands_migrationSteps hstep).1]

theorem lvOperands_install (h : Chosen w kernel m s r t pre) (nodup : w.names.keys.Nodup)
    (plain : (Status.used v).Plain) :
    ∀ step ∈ pre ++ (writeSteps m source r t ++ (commitSteps m source v r t ++
        migrationSteps active)),
      ∀ id ∈ step.lvOperands, ∃ k, nameKey id = some (k, s) ∨
        nameKey id = some (k, .used v) := by
  obtain ⟨_, _, hpair, _⟩ := h.prepare nodup
  intro step hstep
  simp only [List.mem_append] at hstep
  rcases hstep with hstep | hstep | hstep | hstep
  · intro id hid
    obtain ⟨k, hk⟩ := (h.operands step hstep).2 id hid
    exact ⟨k, Or.inl hk⟩
  · simp only [writeSteps, List.mem_cons, List.not_mem_nil, or_false] at hstep
    rcases hstep with rfl | rfl | rfl | rfl <;>
      simp [Step.lvOperands, hpair.rootKey, hpair.verityKey]
  · simp only [commitSteps, List.mem_cons, List.not_mem_nil, or_false] at hstep
    rcases hstep with rfl | rfl | rfl
    · exact fun id hid => ⟨.root, operands_renameStep hpair.rootKey plain id hid⟩
    · exact fun id hid => ⟨.verity, operands_renameStep hpair.verityKey plain id hid⟩
    · simp [Step.lvOperands]
  · simp [(operands_migrationSteps hstep).2]

theorem isActive_used_eq_false (h : w.names.Tidy kernel a) (hv : m.toVersion = .ok v)
    (fresh : (Kind.root, Status.used v) ∉ w.names.keys) :
    (Status.used v).isActive kernel = false := by
  have ha := h.isActive
  have hhash : v.hasHash = true := by
    obtain ⟨hash, rfl⟩ := Manifest.toVersion_hash hv
    rfl
  cases hk : kernel.toVersion with
  | none => simp [Status.isActive, Status.version, hk, Status.isLegacy, hhash]
  | some kv =>
      simp only [Status.isActive, Status.version, hk, decide_eq_false_iff_not]
      rintro rfl
      apply fresh
      have hav : a.version = some v := by
        unfold Status.isActive at ha
        cases hav : a.version with
        | none => simp [hav] at ha
        | some x => simpa [hav, hk] using ha
      rw [← Status.eq_used_of_version hav]
      exact h.present

/-- What one command does to tidy names: they stay tidy, and the volumes and the
UKIs of the active status are left alone. -/
structure Preserves (kernel : KernelParams) (a : Status) (n : Names) (steps : List Step)
    (n' : Names) : Prop where
  exec : n.execAll steps = some n'
  tidy : n'.Tidy kernel a
  avoids : ∀ step ∈ steps, step.Avoids a
  boot : ∀ b ∈ n.ukis, b.version = a.version →
    b ∈ n'.ukis ∧ ∀ step ∈ steps, b.id ∉ step.bootOperands

theorem Preserves.nil {n : Names} (h : n.Tidy kernel a) : Preserves kernel a n [] n :=
  ⟨rfl, h, by simp, fun _ hb _ => ⟨hb, by simp⟩⟩

theorem install_preserves {plan : Plan} (h : w.names.Tidy kernel a) (hm : m.RoundTrips)
    (hplan : Plan.install (w.runtimeOf kernel) m source = .ok plan) :
    ∃ n', Preserves kernel a w.names plan.steps n' := by
  obtain ⟨v, hv, hcases⟩ := install_eq_ok.mp hplan
  obtain ⟨plain, u, hu, rfl⟩ := hm.names hv
  rcases hcases with ⟨_, hsteps⟩ | ⟨hinst, s, r, t, pre, active, hc, _, hsteps⟩
  · rw [hsteps]
    exact ⟨_, .nil h⟩
  · have hfresh := mt h.installed_iff.mpr hinst
    have fresh : ∀ k, (k, Status.used u.version) ∉ w.names.keys := fun k hk =>
      hfresh (h.key_iff.mp hk)
    have hinactive := isActive_used_eq_false h hv hfresh
    have hsa : s ≠ a := h.ne_active_of_isEmpty hc.slots.1
    have hva : Status.used u.version ≠ a := by
      rintro rfl
      exact hfresh h.present
    obtain ⟨n', hrun, hesp, hnodup, hkeys⟩ := hc.complete source active h.nodup plain fresh
    have hsound := h.toSound.install hc.slots.1 hfresh hu hesp hnodup hkeys
    refine ⟨n', by rw [hsteps, hrun], h.replace hsa hinactive hkeys hsound, ?_, ?_⟩
    · intro step hstep id hid
      rw [hsteps] at hstep
      obtain ⟨k, hk | hk⟩ := lvOperands_install hc h.nodup plain step hstep id hid
      · exact ⟨k, s, hk, hsa⟩
      · exact ⟨k, _, hk, hva⟩
    · intro b hb hba
      have hne : b.id ≠ UkiEntry.display ⟨u.version, none⟩ :=
        Names.id_ne_of_version_ne hb hu (h.toSound.version_ne hfresh hb)
      refine ⟨(Names.mem_ukis_install hesp hu).mpr (Or.inr ⟨hb, hne⟩), fun step hstep hid => ?_⟩
      rw [hsteps] at hstep
      exact hne (bootOperands_install hc step hstep _ hid)

end Install

section Remove

variable {w : World} {kernel : KernelParams} {a s : Status} {b : BootEntry}

theorem group_boot (h : (w.group s).boot = some b) : b ∈ w.names.ukis ∧ b.version = s.version := by
  rcases bootFor_eq_some h with ⟨hmem, hversion, _⟩
  exact ⟨hmem, hversion⟩

theorem group_boot_of_unique {v : Version} (hb : b ∈ w.names.ukis) (hv : b.version = some v)
    (hroot : (Kind.root, Status.used v) ∈ w.names.keys)
    (unique : ∀ c ∈ w.names.ukis, c.version = some v → c = b) :
    (w.group (.used v)).boot = some b := by
  have hsome : (slotFor w.slots .root (.used v)).isSome = true := World.slot_isSome.mpr hroot
  have hfound : (w.names.ukis.find? fun c => c.version = (Status.used v).version).isSome = true :=
    List.find?_isSome.mpr ⟨b, hb, decide_eq_true hv⟩
  obtain ⟨c, hc⟩ := Option.isSome_iff_exists.mp hfound
  have hpred := List.find?_some hc
  have hcv : c.version = some v := of_decide_eq_true hpred
  simp only [World.group, row, bootFor, hsome, if_true, hc]
  rw [unique c (List.mem_of_find?_eq_some hc) hcv]

theorem group_boot_of_sound (h : w.names.Sound) (hb : b ∈ w.names.ukis)
    (hv : b.version = s.version) : (w.group s).boot = some b := by
  obtain ⟨v, hbv, hk⟩ := h.attached b hb
  obtain rfl := Status.eq_used_of_version (hv.symm.trans hbv)
  exact group_boot_of_unique hb hbv hk fun c hc hcv => h.single c hc b hb (hcv.trans hbv.symm)

theorem unlinkIds_ne {g : SlotGroup} (hb : b ∈ w.names.ukis)
    (hboot : ∀ c, g.boot = some c → c ∈ w.names.ukis ∧ c.version ≠ b.version) :
    b.id ∉ unlinkIds (w.runtimeOf kernel) g := by
  intro hmem
  obtain ⟨c, hc, hid⟩ := List.mem_map.mp hmem
  rcases List.mem_append.mp hc with hc | hc
  · obtain ⟨hcu, hne⟩ := hboot c (by simpa using hc)
    exact hne (congrArg BootEntry.version (Names.eq_of_ukis_id hcu hb hid))
  · split at hc
    · obtain ⟨hc, hl⟩ := List.mem_filter.mp hc
      exact Names.legacy_id_ne hb (List.mem_filter.mp hc).1 hl hid.symm
    · cases hc

theorem operands_removal {id : String} {step : Step} {r t : Slot} (hr : w.slot .root s = some r)
    (ht : w.slot .verity s = some t) (plain : (Status.empty (.known id)).Plain)
    (hstep : step ∈ (unlinkIds (w.runtimeOf kernel) (w.group s)).map Step.unlink ++
      Plan.renameSlotToEmpty (w.group s) id) :
    (∀ lv ∈ step.lvOperands,
        ∃ k, nameKey lv = some (k, s) ∨ nameKey lv = some (k, .empty (.known id))) ∧
      ∀ b ∈ step.bootOperands, b ∈ unlinkIds (w.runtimeOf kernel) (w.group s) := by
  rw [renameSlotToEmpty_group hr ht, List.mem_append] at hstep
  rcases hstep with hstep | hstep
  · obtain ⟨x, hx, rfl⟩ := List.mem_map.mp hstep
    exact ⟨fun _ hlv => absurd hlv List.not_mem_nil,
      fun b hb => List.mem_singleton.mp hb ▸ hx⟩
  · simp only [List.mem_cons, List.not_mem_nil, or_false] at hstep
    rcases hstep with rfl | rfl
    · exact ⟨fun lv hlv => ⟨_, operands_renameStep (World.slot_spec hr).2.2.2 plain lv hlv⟩,
        fun b hb => by cases hb⟩
    · exact ⟨fun lv hlv => ⟨_, operands_renameStep (World.slot_spec ht).2.2.2 plain lv hlv⟩,
        fun b hb => by cases hb⟩

theorem remove_preserves {v : Version} {plan : Plan} (h : w.names.Tidy kernel a)
    (hplan : Plan.remove (w.runtimeOf kernel) v = .ok plan) :
    ∃ n', Preserves kernel a w.names plan.steps n' := by
  obtain ⟨g, id, hfind, hinactive, halloc, hsteps⟩ := remove_eq_ok.mp hplan
  obtain ⟨hg, v', hv', _⟩ := findSlotGroup_spec hfind
  obtain ⟨s, hs, rfl⟩ := World.mem_slotgroups_of_tidy h hg
  have hsv : s.version = some v' := (World.group_version hs).symm.trans hv'
  have hsa : s ≠ a := by
    rintro rfl
    exact Bool.false_ne_true (hinactive.symm.trans ((World.group_isActive hs).trans h.isActive))
  have hva : s.version ≠ a.version := by
    intro e
    rw [Status.eq_used_of_version hsv, Status.eq_used_of_version (e.symm.trans hsv)] at hsa
    exact hsa rfl
  obtain ⟨r, hr⟩ := Option.isSome_iff_exists.mp (World.slot_isSome.mpr hs)
  obtain ⟨t, ht⟩ := Option.isSome_iff_exists.mp (World.slot_isSome.mpr ((h.paired s).mp hs))
  obtain ⟨plain, _⟩ := World.allocateEmptyIdentifier_fresh halloc
  obtain ⟨n', hrun, hukis, hnodup, hkeys⟩ := exec_removal h.nodup hr ht halloc
    (unlinkIds (w.runtimeOf kernel) (w.group s))
  rw [unlinkSteps_eq] at hsteps
  refine ⟨n', by rw [hsteps, hrun], h.replace hsa rfl hkeys (h.toSound.replace hnodup hkeys ?_ ?_),
    ?_, ?_⟩
  · intro b hb
    obtain ⟨hb, hne⟩ := (hukis b).mp hb
    refine Or.inl ⟨hb, fun hbs => hne ?_⟩
    exact List.mem_map.mpr ⟨b, by simp [group_boot_of_sound h.toSound hb hbs], rfl⟩
  · intro b hb c hc
    exact h.single b ((hukis b).mp hb).1 c ((hukis c).mp hc).1
  · intro step hstep lv hlv
    obtain ⟨k, hk | hk⟩ := (operands_removal hr ht plain (hsteps ▸ hstep)).1 lv hlv
    · exact ⟨k, s, hk, hsa⟩
    · exact ⟨k, _, hk, h.ne_active_of_isEmpty rfl⟩
  · intro b hb hba
    have hne : b.id ∉ unlinkIds (w.runtimeOf kernel) (w.group s) := by
      refine unlinkIds_ne hb fun c hc => ?_
      obtain ⟨hcu, hcs⟩ := group_boot hc
      exact ⟨hcu, by rw [hcs, hba]; exact hva⟩
    exact ⟨(hukis b).mpr ⟨hb, hne⟩, fun step hstep hid =>
      hne ((operands_removal hr ht plain (hsteps ▸ hstep)).2 _ hid)⟩

end Remove

/-! ## Runs -/

/-- Removals, and installs of manifests whose version survives its names. -/
def Command.RoundTrips : Command → Prop
  | .install m _ => m.RoundTrips
  | .remove _ => True

section Run

variable {w : World} {cmdline : String} {kernel : KernelParams} {a : Status}

theorem Command.plan_preserves {c : Command} {plan : Plan}
    (hk : KernelParams.fromCmdline cmdline = .ok kernel) (h : w.names.Tidy kernel a)
    (hc : c.RoundTrips) (hplan : c.plan cmdline w = .ok plan) :
    ∃ n', Preserves kernel a w.names plan.steps n' := by
  have hrt := World.runtime_of_sound hk h.toSound
  cases c with
  | install m source =>
      rw [Command.plan, hrt, Outcome.ok_bind] at hplan
      exact install_preserves h hc hplan
  | remove v =>
      rw [Command.plan, hrt, Outcome.ok_bind] at hplan
      exact remove_preserves h hplan

theorem Command.plan_returns {c : Command} (hk : KernelParams.fromCmdline cmdline = .ok kernel)
    (h : w.names.Tidy kernel a) (hc : c.RoundTrips) : (c.plan cmdline w).Returns := by
  have hrt := World.runtime_of_sound hk h.toSound
  cases c with
  | install m source =>
      rw [Command.plan, hrt, Outcome.ok_bind]
      obtain ⟨v, hv, _⟩ := hc
      exact Plan.install_returns (hv ▸ Outcome.returns_ok v)
  | remove v =>
      rw [Command.plan, hrt, Outcome.ok_bind]
      exact Plan.remove_returns _ v

/-- A run of commands keeps the names tidy and leaves the active slot alone. -/
theorem runCommands_tidy (hk : KernelParams.fromCmdline cmdline = .ok kernel) {cs : List Command}
    (hcs : ∀ c ∈ cs, c.RoundTrips) (h : w.names.Tidy kernel a) :
    ∃ steps w', w.runCommands cmdline cs = some (steps, w') ∧ w'.names.Tidy kernel a ∧
      (∀ step ∈ steps, step.Avoids a) ∧
      ∀ b ∈ w.names.ukis, b.version = a.version → ∀ step ∈ steps, b.id ∉ step.bootOperands := by
  induction cs generalizing w with
  | nil => exact ⟨[], w, rfl, h, by simp, by simp⟩
  | cons c cs ih =>
      have hc : c.RoundTrips := hcs c (by simp)
      have hrest : ∀ c ∈ cs, c.RoundTrips := fun c' hc' => hcs c' (by simp [hc'])
      cases hplan : c.plan cmdline w with
      | ok plan =>
          obtain ⟨n', hpres⟩ := c.plan_preserves hk h hc hplan
          obtain ⟨w', hw', rfl⟩ := World.execAll_of_names hpres.exec
          obtain ⟨steps, w'', hrun, htidy, havoids, hboot⟩ := ih hrest hpres.tidy
          refine ⟨plan.steps ++ steps, w'', ?_, htidy, ?_, ?_⟩
          · simp [World.runCommands, hplan, hw', hrun]
          · intro step hstep
            rcases List.mem_append.mp hstep with hstep | hstep
            · exact hpres.avoids step hstep
            · exact havoids step hstep
          · intro b hb hba step hstep
            obtain ⟨hb', hspared⟩ := hpres.boot b hb hba
            rcases List.mem_append.mp hstep with hstep | hstep
            · exact hspared step hstep
            · exact hboot b hb' hba step hstep
      | err e =>
          obtain ⟨steps, w', hrun, hrest⟩ := ih hrest h
          exact ⟨steps, w', by simp [World.runCommands, hplan, hrun], hrest⟩
      | panicked => exact absurd hplan (c.plan_returns hk h hc)

theorem Step.Avoids.id_notMem {step : Step} {k : Kind} {r : Slot} (h : step.Avoids a)
    (hr : w.slot k a = some r) : r.volume.id ∉ step.lvOperands := by
  intro hid
  obtain ⟨k', s, hkey, hne⟩ := h _ hid
  rw [(World.slot_spec hr).2.2.2] at hkey
  exact hne (congrArg Prod.snd (Option.some.inj hkey)).symm

/-- No two groups hold volumes of one status. -/
def Runtime.Distinct (rt : Runtime) : Prop :=
  ∀ g ∈ rt.slotgroups, ∀ g' ∈ rt.slotgroups, ∀ x ∈ g.root.toList ++ g.verity.toList,
    ∀ y ∈ g'.root.toList ++ g'.verity.toList, x.status = y.status → g = g'

theorem status_of_mem_group {s : Status} {x : Slot}
    (h : x ∈ (w.group s).root.toList ++ (w.group s).verity.toList) : x.status = s := by
  rcases List.mem_append.mp h with h | h
  · exact (World.slot_spec (k := .root) (Option.mem_toList.mp h)).2.1
  · exact (World.slot_spec (k := .verity) (Option.mem_toList.mp h)).2.1

theorem distinct_of_tidy (h : w.names.Tidy kernel a) : (w.runtimeOf kernel).Distinct := by
  intro g hg g' hg' x hx y hy hxy
  obtain ⟨s, _, rfl⟩ := World.mem_slotgroups_of_tidy h hg
  obtain ⟨s', _, rfl⟩ := World.mem_slotgroups_of_tidy h hg'
  rw [← status_of_mem_group hx, hxy, status_of_mem_group hy]

/-- Every run of install and remove commands from a well-formed world executes
all its steps, ends well formed, and never touches the slot that was active. -/
theorem runCommands_wellFormed {rt : Runtime} {active : SlotGroup} {cs : List Command}
    (hrt : w.runtime cmdline = .ok rt) (hw : rt.WellFormed) (hactive : rt.activeSlot = .ok active)
    (hcs : ∀ c ∈ cs, c.RoundTrips) :
    ∃ steps w' rt', w.runCommands cmdline cs = some (steps, w') ∧
      w'.runtime cmdline = .ok rt' ∧ rt'.WellFormed ∧ rt'.Distinct ∧
      ∀ step ∈ steps, step.Spares active := by
  obtain ⟨kernel, a, hk, rfl, htidy, rfl⟩ := World.tidy_of_wellFormed hrt hw hactive
  obtain ⟨steps, w', hrun, htidy', havoids, hboot⟩ := runCommands_tidy hk hcs htidy
  obtain ⟨rt', hrt', hwf⟩ := World.wellFormed_of_tidy hk htidy'
  obtain rfl : rt' = w'.runtimeOf kernel :=
    Outcome.ok.inj (hrt'.symm.trans (World.runtime_of_sound hk htidy'.toSound))
  refine ⟨steps, w', _, hrun, hrt', hwf, distinct_of_tidy htidy', fun step hstep => ?_⟩
  refine ⟨fun r hr => (havoids step hstep).id_notMem hr, fun t ht =>
    (havoids step hstep).id_notMem ht, fun b hb => ?_⟩
  obtain ⟨hmem, hver⟩ := group_boot hb
  exact hboot b hmem hver step hstep

end Run

def sampleLv (name : String) : Lv := ⟨⟨name, "pool", some 5⟩, none⟩

def legacyWorld : World where
  lvs := ["persist", "root_0", "root_empty", "swap", "verity_0", "verity_empty"].map sampleLv
  esp := ⟨[⟨"type1", "nixos-generation-1.conf"⟩], by decide⟩

def updatedEsp : Esp :=
  ⟨[⟨"type1", "nixos-generation-1.conf"⟩, ⟨"type2", "ghaf-25.12.1-44cc41b403a2d323.efi"⟩],
    by decide⟩

def sampleFile (name : String) : File := ⟨name, Vector.replicate 32 0, none⟩

def sampleManifest : Manifest where
  version := "25.12.1"
  rootVerityHash := "44cc41b403a2d323a68f42941131169899545eaceebe332e24426e9ff7d7f3bc"
  kernel := sampleFile "ghaf_kernel_25.12.1_44cc41b403a2d323.efi"
  store := sampleFile "ghaf_root_25.12.1_44cc41b403a2d323.raw.zst"
  verity := sampleFile "ghaf_verity_25.12.1_44cc41b403a2d323.raw.zst"

def sampleVersion : Version := ⟨"25.12.1", some "44cc41b403a2d323"⟩

theorem legacyWorld_runtime :
    legacyWorld.runtime "root=fstab" = .ok (legacyWorld.runtimeOf legacyKernel) := by
  decide +kernel

theorem legacyWorld_wellFormed : (legacyWorld.runtimeOf legacyKernel).WellFormed :=
  ⟨by decide +kernel, by decide +kernel, legacyWorld.group (.used ⟨"0", none⟩), by decide +kernel⟩

theorem sampleManifest_roundTrips : sampleManifest.RoundTrips :=
  ⟨sampleVersion, by decide +kernel, by intro k; cases k <;> decide +kernel,
    ⟨sampleVersion, none⟩, by decide +kernel, rfl⟩

theorem runCommands_wellFormed_legacyWorld :
    ∃ steps w' rt', legacyWorld.runCommands "root=fstab"
        [.install sampleManifest "/sysupdate", .remove ⟨"25.12.1", none⟩, .remove ⟨"0", none⟩,
          .install sampleManifest "/sysupdate"] = some (steps, w') ∧
      w'.runtime "root=fstab" = .ok rt' ∧ rt'.WellFormed ∧ rt'.Distinct ∧
      ∀ step ∈ steps, step.Spares (legacyWorld.group (.used ⟨"0", none⟩)) := by
  refine runCommands_wellFormed legacyWorld_runtime legacyWorld_wellFormed (by decide +kernel) ?_
  intro c hc
  simp only [List.mem_cons, List.not_mem_nil, or_false] at hc
  rcases hc with rfl | rfl | rfl | rfl
  · exact sampleManifest_roundTrips
  · trivial
  · trivial
  · exact sampleManifest_roundTrips

end GhafGivc.Image
