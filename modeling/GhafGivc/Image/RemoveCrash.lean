import GhafGivc.Image.Renames

/-! # Interrupted removals

A removal renames the two volumes of a slot in separate steps. Stopped between
them it leaves a root volume under one empty identifier and a used verity volume;
the second removal gives the verity volume another identifier, because the first
one is now in use. Everywhere else an interrupted removal can be repeated.
-/

namespace GhafGivc.Image

open Core SlotGroup

/-- Clash-free names of complete slots; UKIs may be orphans. -/
structure Names.Whole (n : Names) : Prop where
  nodup : n.keys.Nodup
  paired : ∀ s, (Kind.root, s) ∈ n.keys ↔ (Kind.verity, s) ∈ n.keys
  single : ∀ b ∈ n.ukis, ∀ c ∈ n.ukis, ∀ v, b.version = some v → c.version = some v →
    (Kind.root, Status.used v) ∈ n.keys → b = c

/-- Both volumes of the group have the same empty identifier, one that no volume of
`w` had, and form a slot that an update can choose. -/
def World.Reclaims (cmdline : String) (w : World) (g : SlotGroup) (w' : World) : Prop :=
  ∀ r ∈ g.root, ∀ t ∈ g.verity, ∃ rt id, w'.runtime cmdline = .ok rt ∧
    (∀ k, ∀ volume ∈ w.volumes, volume.lvName ≠ Slot.displayName k (.empty (.known id))) ∧
    ∃ g' ∈ rt.slotgroups, g'.root = some (r.emptied id) ∧ g'.verity = some (t.emptied id) ∧
      (g'.isEmpty && !g'.isActive rt.kernel && g'.isComplete) = true

section Whole

variable {w : World} {cmdline : String} {kernel : KernelParams}

theorem runtime_of_whole (hk : KernelParams.fromCmdline cmdline = .ok kernel)
    (h : w.names.Whole) : w.runtime cmdline = .ok (w.runtimeOf kernel) :=
  World.runtime_of_readable hk ⟨h.nodup, h.single⟩

theorem whole_of_runtime {rt : Runtime} (hrt : w.runtime cmdline = .ok rt)
    (complete : ∀ g ∈ rt.slotgroups, g.root.isSome ∨ g.verity.isSome → g.isComplete) :
    ∃ kernel, KernelParams.fromCmdline cmdline = .ok kernel ∧ rt = w.runtimeOf kernel ∧
      w.names.Whole := by
  obtain ⟨readable, kernel, hk, rfl⟩ := World.runtime_iff_readable.mp hrt
  exact ⟨kernel, hk, rfl, readable.nodup, fun s => ⟨World.key_of_complete complete _ _,
    World.key_of_complete complete _ _⟩, readable.single⟩

/-- What a removal from complete slots does: it takes apart a complete pair, or it
unlinks an orphan UKI. -/
theorem remove_cases {v : Version} {plan : Plan} (h : w.names.Whole)
    (hplan : Plan.remove (w.runtimeOf kernel) v = .ok plan) :
    (∃ b, (w.runtimeOf kernel).findSlotGroup v = .ok (orphan b) ∧
        plan.steps = [b.id].map Step.unlink) ∨
      ∃ x r t id, (w.runtimeOf kernel).findSlotGroup v = .ok (w.group (.used x)) ∧
        w.slot .root (.used x) = some r ∧ w.slot .verity (.used x) = some t ∧
        (w.runtimeOf kernel).allocateEmptyIdentifier = .ok id ∧
        plan.steps = (unlinkIds (w.runtimeOf kernel) (w.group (.used x))).map Step.unlink ++
          [renameStep .root r (.empty (.known id)), renameStep .verity t (.empty (.known id))] := by
  obtain ⟨g, id, hfind, _, halloc, hsteps⟩ := remove_eq_ok.mp hplan
  obtain ⟨hg, x, hx, _⟩ := findSlotGroup_spec hfind
  rcases World.mem_slotgroups.mp hg with ⟨k, s, hks, rfl⟩ | ⟨b, _, _, rfl⟩
  · right
    obtain rfl := Status.eq_used_of_version ((World.group_version hks).symm.trans hx)
    have hroot : (Kind.root, Status.used x) ∈ w.names.keys := by
      cases k
      · exact hks
      · exact (h.paired _).mpr hks
    obtain ⟨r, hr⟩ := Option.isSome_iff_exists.mp (World.slot_isSome.mpr hroot)
    obtain ⟨t, ht⟩ := Option.isSome_iff_exists.mp
      (World.slot_isSome.mpr ((h.paired _).mp hroot))
    rw [unlinkSteps_eq, renameSlotToEmpty_group hr ht] at hsteps
    exact ⟨x, r, t, id, hfind, hr, ht, halloc, hsteps⟩
  · exact Or.inl ⟨b, hfind, hsteps⟩

end Whole

section Transfer

variable {w w' : World} {kernel : KernelParams} {x : Version} {q : Version → Bool}

/-- The versions `w'` reports are those of `w`, apart from volumes gone. -/
structure World.Reports (w w' : World) : Prop where
  keys : ∀ k y, (k, Status.used y) ∈ w'.names.keys → ∃ k', (k', Status.used y) ∈ w.names.keys
  ukis : ∀ b ∈ w'.names.ukis, b ∈ w.names.ukis
  roots : ∀ b ∈ w'.names.ukis, ∀ y, b.version = some y →
    (Kind.root, Status.used y) ∈ w.names.keys → (Kind.root, Status.used y) ∈ w'.names.keys

theorem World.Reports.cases (h : w.Reports w') {g' : SlotGroup} {y : Version}
    (hg' : g' ∈ (w'.runtimeOf kernel).slotgroups) (hy : g'.version = some y) :
    (y = x ∧ g' = w'.group (.used x)) ∨
      ∃ g ∈ (w.runtimeOf kernel).slotgroups, g.version = some y ∧ g ≠ w.group (.used x) := by
  rcases World.mem_slotgroups.mp hg' with ⟨k, s, hks, rfl⟩ | ⟨b, hb, ho, rfl⟩
  · obtain rfl := Status.eq_used_of_version ((World.group_version hks).symm.trans hy)
    by_cases hxy : y = x
    · exact Or.inl ⟨hxy, by rw [hxy]⟩
    · obtain ⟨k', hk'⟩ := h.keys k y hks
      refine Or.inr ⟨_, World.group_mem hk', World.group_version hk', fun e => hxy ?_⟩
      exact Status.used.inj (World.group_inj hk' e)
  · have hby : b.version = some y := hy
    have hroot : isOrphan w.slots b = true := by
      by_contra hn
      rw [Bool.not_eq_true, World.isOrphan_eq_false_iff_key hby] at hn
      rw [(World.isOrphan_eq_false_iff_key hby).mpr (h.roots b hb y hby hn)] at ho
      cases ho
    exact Or.inr ⟨orphan b, World.mem_slotgroups.mpr (Or.inr ⟨b, h.ukis b hb, hroot, rfl⟩), hy,
      fun e => row_ne_orphan e.symm⟩

theorem World.Reports.filter_eq_singleton (h : w.Reports w') {k : Kind}
    (hx : (k, Status.used x) ∈ w'.names.keys)
    (hfilter : (w.runtimeOf kernel).slotgroups.filter (fun g => g.version.any q) =
      [w.group (.used x)]) :
    (w'.runtimeOf kernel).slotgroups.filter (fun g => g.version.any q) =
      [w'.group (.used x)] := by
  have honly : ∀ g ∈ (w.runtimeOf kernel).slotgroups, g.version.any q = true →
      g = w.group (.used x) := by
    intro g hg hq
    have hmem : g ∈ [w.group (.used x)] := hfilter ▸ List.mem_filter.mpr ⟨hg, hq⟩
    exact List.mem_singleton.mp hmem
  obtain ⟨k', hk'⟩ := h.keys k x hx
  have hself : w.group (.used x) ∈ (w.runtimeOf kernel).slotgroups.filter
      fun g => g.version.any q := hfilter ▸ List.mem_singleton_self _
  have hqx := (List.mem_filter.mp hself).2
  rw [World.group_version hk'] at hqx
  refine Core.filter_eq_singleton (nodup_view (Names.nodup_ukis _)) (World.group_mem hx) ?_ ?_
  · rw [World.group_version hx]
    exact hqx
  · intro g' hg' hq
    cases hy : g'.version with
    | none => simp [hy] at hq
    | some y =>
        rcases h.cases (x := x) hg' hy with ⟨_, hg'⟩ | ⟨g, hg, hgy, hne⟩
        · exact hg'
        · exact absurd (honly g hg (by rw [hgy, ← hy]; exact hq)) hne

theorem World.Reports.filter_eq_nil (h : w.Reports w')
    (hfilter : (w.runtimeOf kernel).slotgroups.filter (fun g => g.version.any q) = []) :
    (w'.runtimeOf kernel).slotgroups.filter (fun g => g.version.any q) = [] := by
  have hnone : ∀ g ∈ (w.runtimeOf kernel).slotgroups, g.version.any q ≠ true := by
    intro g hg hq
    have hmem : g ∈ [] := hfilter ▸ List.mem_filter.mpr ⟨hg, hq⟩
    cases hmem
  refine List.filter_eq_nil_iff.mpr fun g' hg' hq => ?_
  cases hy : g'.version with
  | none => simp [hy] at hq
  | some y =>
      have hqy : (some y).any q = true := hy ▸ hq
      rcases h.cases (x := y) hg' hy with ⟨_, rfl⟩ | ⟨g, hg, hgy, _⟩
      · rcases World.mem_slotgroups.mp hg' with ⟨k, s, hks, hgs⟩ | ⟨b, _, _, hgb⟩
        · obtain rfl := World.group_inj hks hgs
          obtain ⟨k', hk'⟩ := h.keys k y hks
          exact hnone _ (World.group_mem hk') (by rw [World.group_version hk']; exact hqy)
        · exact row_ne_orphan hgb.symm
      · exact hnone g hg (by rw [hgy]; exact hqy)

theorem version_eq_any (v : Version) :
    (fun g : SlotGroup => decide (g.version = some v)) =
      fun g => g.version.any fun y => decide (y = v) := by
  funext g
  cases g.version <;> simp

theorem World.Reports.findSlotGroup (h : w.Reports w') {v : Version} {k : Kind}
    (hx : (k, Status.used x) ∈ w'.names.keys)
    (hfind : (w.runtimeOf kernel).findSlotGroup v = .ok (w.group (.used x))) :
    (w'.runtimeOf kernel).findSlotGroup v = .ok (w'.group (.used x)) := by
  rw [findSlotGroup_eq_ok, version_eq_any] at hfind ⊢
  rcases hfind with hfind | ⟨hnil, hv, hfind⟩
  · exact Or.inl (h.filter_eq_singleton hx hfind)
  · exact Or.inr ⟨h.filter_eq_nil hnil, hv, h.filter_eq_singleton hx hfind⟩

end Transfer

/-! ## Complete removals -/

namespace Names.Whole

variable {n n' : Names} {s : Status} {id : String}

theorem of_subset (h : n.Whole) (hids : n'.ids = n.ids) (hukis : ∀ b ∈ n'.ukis, b ∈ n.ukis) :
    n'.Whole := by
  have hkeys : n'.keys = n.keys := by rw [keys, hids, keys]
  refine ⟨hkeys ▸ h.nodup, hkeys ▸ h.paired, ?_⟩
  intro b hb c hc
  rw [hkeys]
  exact h.single b (hukis b hb) c (hukis c hc)

theorem replace (h : n.Whole) (nodup : n'.keys.Nodup) (hukis : ∀ b ∈ n'.ukis, b ∈ n.ukis)
    (keys : ∀ c, c ∈ n'.keys ↔ c.2 = .empty (.known id) ∨ (c ∈ n.keys ∧ c.2 ≠ s)) : n'.Whole where
  nodup := nodup
  paired u := by rw [keys, keys, h.paired]
  single b hb c hc v hbv hcv hkey := by
    rcases (keys _).mp hkey with hkey | ⟨hkey, _⟩
    · cases hkey
    · exact h.single b (hukis b hb) c (hukis c hc) v hbv hcv hkey

end Names.Whole

section Removal

variable {w w' : World} {cmdline : String} {kernel : KernelParams} {s : Status} {r t : Slot}
  {id : String} {ids : List String}

theorem emptied_of_removal (nodup : w.names.keys.Nodup) (plain : (Status.empty (.known id)).Plain)
    (fresh : ∀ k, (k, .empty (.known id)) ∉ w.names.keys)
    (hr : w.slot .root s = some r) (ht : w.slot .verity s = some t)
    (hrun : w.execAll (ids.map Step.unlink ++ [renameStep .root r (.empty (.known id)),
      renameStep .verity t (.empty (.known id))]) = some w') :
    (r.emptied id).volume ∈ w'.volumes ∧ (t.emptied id).volume ∈ w'.volumes := by
  rw [← renameSlotToEmpty_group hr ht] at hrun
  have hemptied := (World.Emptied.of_removal nodup plain fresh hrun).1
  have hroot := hemptied.moved .root
  have hverity := hemptied.moved .verity
  rw [hr] at hroot
  rw [ht] at hverity
  exact ⟨(World.slot_spec hroot).2.2.1, (World.slot_spec hverity).2.2.1⟩

theorem reclaims_of_volumes {w₀ : World} {g : SlotGroup}
    (hk : KernelParams.fromCmdline cmdline = .ok kernel) (h : w'.names.Whole)
    (plain : (Status.empty (.known id)).Plain)
    (fresh : ∀ k, (k, Status.empty (.known id)) ∉ w₀.names.keys) (hr : g.root = some r)
    (ht : g.verity = some t) (hrk : r.kind = .root) (htk : t.kind = .verity)
    (hrv : (r.emptied id).volume ∈ w'.volumes) (htv : (t.emptied id).volume ∈ w'.volumes) :
    w₀.Reclaims cmdline g w' := by
  intro r' hr' t' ht'
  obtain rfl : r = r' := Option.some.inj (hr.symm.trans hr')
  obtain rfl : t = t' := Option.some.inj (ht.symm.trans ht')
  have hslot : ∀ x : Slot, (x.emptied id).volume ∈ w'.volumes →
      w'.slot x.kind (.empty (.known id)) = some (x.emptied id) := by
    intro x hx
    refine slotFor_of_mem (t := x.emptied id) (World.map_key_slots w' ▸ h.nodup) ?_
    exact World.mem_slots.mpr ⟨hx, nameKey_displayName plain⟩
  have hroot := hrk ▸ hslot r hrv
  have hverity := htk ▸ hslot t htv
  have hkey := World.slot_isSome.mp (Option.isSome_of_mem hroot)
  refine ⟨_, id, runtime_of_whole hk h, ?_, w'.group (.empty (.known id)), World.group_mem hkey,
    hroot, hverity, (World.isSpare_group hkey).mpr ⟨rfl, hkey, (h.paired _).mp hkey⟩⟩
  intro k volume hv e
  exact fresh k (Names.key_mem_of_id (List.mem_map_of_mem hv)
    (nameKey_eq_some.mpr ⟨e, plain⟩))

theorem removal_runs {v : Version} {plan : Plan} (h : w.names.Whole)
    (hplan : Plan.remove (w.runtimeOf kernel) v = .ok plan) :
    ∃ w', w.execAll plan.steps = some w' ∧ w'.names.Whole ∧
      ∀ volume ∈ w.volumes, (∃ k e, nameKey volume.id = some (k, .empty (.known e))) →
        volume ∈ w'.volumes := by
  rcases remove_cases h hplan with ⟨b, _, hsteps⟩ | ⟨x, r, t, id, _, hr, ht, halloc, hsteps⟩
  · obtain ⟨n, hn, hids, hukis⟩ := Names.execAll_unlink w.names [b.id]
    rw [← hsteps] at hn
    obtain ⟨w', hw', rfl⟩ := World.execAll_of_names hn
    refine ⟨w', hw', h.of_subset hids fun b hb => ((hukis b).mp hb).1, ?_⟩
    rw [hsteps] at hw'
    intro volume hv _
    rw [World.volumes, World.lvs_unlink hw']
    exact hv
  · obtain ⟨plain, fresh⟩ := World.allocateEmptyIdentifier_fresh halloc
    obtain ⟨n, hn, hukis, hnodup, hkeys⟩ := exec_removal h.nodup hr ht halloc
      (unlinkIds (w.runtimeOf kernel) (w.group (.used x)))
    rw [renameSlotToEmpty_group hr ht, ← hsteps] at hn
    obtain ⟨w', hw', rfl⟩ := World.execAll_of_names hn
    refine ⟨w', hw', h.replace hnodup (fun b hb => ((hukis b).mp hb).1) hkeys, ?_⟩
    rw [hsteps, ← renameSlotToEmpty_group hr ht] at hw'
    have hemptied := (World.Emptied.of_removal h.nodup plain fresh hw').1
    intro volume hv hempty
    rcases hempty with ⟨k, e, hkey⟩
    obtain ⟨lv, hlv, rfl⟩ := List.mem_map.mp hv
    refine List.mem_map_of_mem (hemptied.kept lv hlv fun k' hused => ?_)
    rw [hkey] at hused
    cases hused

theorem remove_plan_eq (hk : KernelParams.fromCmdline cmdline = .ok kernel) (h : w.names.Whole)
    (v : Version) :
    Command.plan cmdline w (.remove v) = Plan.remove (w.runtimeOf kernel) v := by
  rw [Command.plan, runtime_of_whole hk h, Outcome.ok_bind]

/-- Asking for a removal of complete slots runs to its end, whatever it answers. -/
theorem remove_command_runs (hk : KernelParams.fromCmdline cmdline = .ok kernel)
    (h : w.names.Whole) (v : Version) :
    ∃ steps w', w.runCommands cmdline [.remove v] = some (steps, w') ∧ w'.names.Whole ∧
      ∀ volume ∈ w.volumes, (∃ k e, nameKey volume.id = some (k, .empty (.known e))) →
        volume ∈ w'.volumes := by
  have hplan := remove_plan_eq hk h v
  cases hp : Plan.remove (w.runtimeOf kernel) v with
  | ok plan =>
      obtain ⟨w', hw', hrest⟩ := removal_runs h hp
      exact ⟨plan.steps, w', World.runCommands_of_plan (hplan.trans hp) hw', hrest⟩
  | err e => exact ⟨[], w, by simp [World.runCommands, hplan, hp], h, fun _ hv _ => hv⟩
  | panicked => exact absurd hp (Plan.remove_returns _ _)

end Removal

section Stop

variable {w w' : World} {cmdline : String} {kernel : KernelParams} {v x : Version} {r t : Slot}
  {id : String} {ids : List String}

/-- A removal that lost boot entries only is planned again as before. -/
theorem reclaims_after_unlinks (hk : KernelParams.fromCmdline cmdline = .ok kernel)
    (h : w.names.Whole) (hfind : (w.runtimeOf kernel).findSlotGroup v = .ok (w.group (.used x)))
    (hinactive : (w.group (.used x)).isActive kernel = false)
    (hr : w.slot .root (.used x) = some r) (ht : w.slot .verity (.used x) = some t)
    (halloc : (w.runtimeOf kernel).allocateEmptyIdentifier = .ok id)
    (hrun : w.execAll (ids.map Step.unlink) = some w') :
    ∃ steps w'', w'.runCommands cmdline [.remove v] = some (steps, w'') ∧
      w.Reclaims cmdline (w.group (.used x)) w'' := by
  obtain ⟨n, hn, hids, hukis⟩ := Names.execAll_unlink w.names ids
  obtain rfl : n = w'.names := Option.some.inj (hn.symm.trans (World.names_of_execAll hrun))
  have hkeys : w'.names.keys = w.names.keys := by rw [Names.keys, hids, Names.keys]
  have hwhole : w'.names.Whole := h.of_subset hids fun b hb => ((hukis b).mp hb).1
  have hslot := World.slot_congr (World.lvs_unlink hrun)
  have hroot := World.slot_isSome.mp (Option.isSome_of_mem hr)
  have hreports : w.Reports w' :=
    ⟨fun k y hy => ⟨k, hkeys ▸ hy⟩, fun b hb => ((hukis b).mp hb).1, fun _ _ _ _ hy => hkeys ▸ hy⟩
  have hfind' := hreports.findSlotGroup (hkeys ▸ hroot) hfind
  have halloc' := (World.allocateEmptyIdentifier_congr hkeys).trans halloc
  have hinactive' : (w'.group (.used x)).isActive kernel = false := by
    rw [World.group_isActive (hkeys ▸ hroot), ← World.group_isActive hroot, hinactive]
  obtain ⟨plain, fresh⟩ := World.allocateEmptyIdentifier_fresh halloc
  have hplan : Plan.remove (w'.runtimeOf kernel) v = .ok ⟨_⟩ :=
    remove_eq_ok.mpr ⟨_, id, hfind', hinactive', halloc', rfl⟩
  obtain ⟨w'', hw'', hwhole'', _⟩ := removal_runs hwhole hplan
  refine ⟨_, w'', World.runCommands_of_plan ((remove_plan_eq hk hwhole v).trans hplan) hw'', ?_⟩
  have hr' := (hslot _ _).trans hr
  have ht' := (hslot _ _).trans ht
  rw [unlinkSteps_eq, renameSlotToEmpty_group hr' ht'] at hw''
  obtain ⟨hrv, htv⟩ := emptied_of_removal hwhole.nodup plain (hkeys ▸ fresh) hr' ht' hw''
  exact reclaims_of_volumes hk hwhole'' plain fresh hr ht (World.slot_spec hr).1
    (World.slot_spec ht).1 hrv htv

/-- A complete removal can only be followed by the removal of something else. -/
theorem reclaims_after_renames {plan : Plan} (hk : KernelParams.fromCmdline cmdline = .ok kernel)
    (h : w.names.Whole) (hplan : Plan.remove (w.runtimeOf kernel) v = .ok plan)
    (hr : w.slot .root (.used x) = some r) (ht : w.slot .verity (.used x) = some t)
    (halloc : (w.runtimeOf kernel).allocateEmptyIdentifier = .ok id)
    (hsteps : plan.steps = ids.map Step.unlink ++ [renameStep .root r (.empty (.known id)),
      renameStep .verity t (.empty (.known id))]) (hrun : w.execAll plan.steps = some w') :
    ∃ steps w'', w'.runCommands cmdline [.remove v] = some (steps, w'') ∧
      w.Reclaims cmdline (w.group (.used x)) w'' := by
  obtain ⟨plain, fresh⟩ := World.allocateEmptyIdentifier_fresh halloc
  obtain ⟨w₁, hw₁, hwhole, _⟩ := removal_runs h hplan
  obtain rfl : w₁ = w' := Option.some.inj (hw₁.symm.trans hrun)
  rw [hsteps] at hrun
  obtain ⟨hrv, htv⟩ := emptied_of_removal h.nodup plain fresh hr ht hrun
  obtain ⟨steps, w'', hcmd, hwhole'', hkeep⟩ := remove_command_runs hk hwhole v
  exact ⟨steps, w'', hcmd, reclaims_of_volumes hk hwhole'' plain fresh hr ht
    (World.slot_spec hr).1 (World.slot_spec ht).1
    (hkeep _ hrv ⟨_, id, nameKey_displayName plain⟩)
    (hkeep _ htv ⟨_, id, nameKey_displayName plain⟩)⟩

theorem keys_of_rename {k : Kind} {s s' : Status} (nodup : w.names.keys.Nodup)
    (hr : w.slot k s = some r) (plain : s'.Plain) (fresh : (k, s') ∉ w.names.keys)
    (hrun : w.execAll (ids.map Step.unlink ++ [renameStep k r s']) = some w') :
    (∀ c, c ∈ w'.names.keys ↔ c = (k, s') ∨ (c ∈ w.names.keys ∧ c ≠ (k, s))) ∧
      ∀ b, b ∈ w'.names.ukis ↔ b ∈ w.names.ukis ∧ b.id ∉ ids := by
  obtain ⟨n₁, hn₁, hids₁, hukis₁⟩ := Names.execAll_unlink w.names ids
  have hkeys₁ : n₁.keys = w.names.keys := by rw [Names.keys, hids₁, Names.keys]
  rw [← hkeys₁] at nodup fresh
  obtain ⟨n₂, hn₂, _, _, hkeys₂, hesp₂⟩ := Names.exec_lvrename nodup
    (hids₁ ▸ World.slot_id_mem hr) (World.slot_spec hr).2.2.2 plain fresh
  have hnames := World.names_of_execAll hrun
  have hone : n₁.execAll [renameStep k r s'] = some n₂ := run_cons_of_some _ hn₂
  rw [Names.execAll_append hn₁, hone, Option.some.injEq] at hnames
  subst hnames
  rw [← hkeys₁]
  exact ⟨hkeys₂, fun b => by rw [Names.ukis_congr hesp₂, hukis₁]⟩

theorem World.Reclaims.keys {g : SlotGroup} (h : w.Reclaims cmdline g w') (hr : g.root = some r)
    (ht : g.verity = some t) :
    ∃ j, (∀ k, (k, Status.empty (.known j)) ∉ w.names.keys) ∧
      ∀ k, (k, Status.empty (.known j)) ∈ w'.names.keys := by
  obtain ⟨rt, j, hrt, hfresh, g', hg', hgr, hgt, _⟩ := h r hr t ht
  obtain ⟨_, _, kernel, _, rfl⟩ := World.runtime_eq_ok_iff.mp hrt
  refine ⟨j, fun k hk => ?_, fun k => ?_⟩
  · obtain ⟨lv, hlv, hkey⟩ := List.mem_filterMap.mp hk
    obtain ⟨volume, hvol, rfl⟩ := List.mem_map.mp hlv
    exact hfresh k volume hvol (nameKey_eq_some.mp hkey).1
  · rcases World.mem_slotgroups.mp hg' with ⟨_, s, _, rfl⟩ | ⟨b, _, _, rfl⟩
    · obtain rfl : .empty (.known j) = s := (World.slot_spec (k := .root) hgr).2.1
      cases k
      · exact World.slot_isSome.mp (Option.isSome_of_mem hgr)
      · exact World.slot_isSome.mp (Option.isSome_of_mem hgt)
    · cases hgr

theorem keys_of_second_removal {plan : Plan} (hx : (Kind.verity, Status.used x) ∈ w.names.keys)
    (hroot : (Kind.root, Status.used x) ∉ w.names.keys) (nodup : w.names.keys.Nodup)
    (hfind : (w.runtimeOf kernel).findSlotGroup v = .ok (w.group (.used x)))
    (hplan : Plan.remove (w.runtimeOf kernel) v = .ok plan)
    (hrun : w.execAll plan.steps = some w') :
    ∃ id, (∀ k, (k, Status.empty (.known id)) ∉ w.names.keys) ∧
      ∀ c, c ∈ w'.names.keys → c = (Kind.verity, .empty (.known id)) ∨ c ∈ w.names.keys := by
  obtain ⟨g, id, hg, _, halloc, hsteps⟩ := remove_eq_ok.mp hplan
  obtain rfl : w.group (.used x) = g := Outcome.ok.inj (hfind.symm.trans hg)
  obtain ⟨plain, fresh⟩ := World.allocateEmptyIdentifier_fresh halloc
  obtain ⟨t, ht⟩ := Option.isSome_iff_exists.mp (World.slot_isSome.mpr hx)
  have hnone : (w.group (.used x)).root = none :=
    Option.not_isSome_iff_eq_none.mp fun hsome => hroot (World.slot_isSome.mp hsome)
  have hsome : (w.group (.used x)).verity = some t := ht
  have hverity := renameToEmpty_some .verity t id
  rw [unlinkSteps_eq, Plan.renameSlotToEmpty, hnone, hsome] at hsteps
  rw [hsteps] at hrun
  have hkeys := (keys_of_rename nodup ht plain (fresh .verity) (hverity ▸ hrun)).1
  refine ⟨id, fresh, fun c hc => ?_⟩
  rcases (hkeys c).mp hc with hc | ⟨hc, _⟩
  · exact Or.inl hc
  · exact Or.inr hc

/-- Between the two renames the groups are found as before. -/
theorem reports_between_renames (h : w.names.Whole)
    (hroot : (Kind.root, Status.used x) ∈ w.names.keys)
    (hkeys : ∀ c, c ∈ w'.names.keys ↔ c = (Kind.root, .empty (.known id)) ∨
      (c ∈ w.names.keys ∧ c ≠ (Kind.root, .used x)))
    (hukis : ∀ b, b ∈ w'.names.ukis ↔ b ∈ w.names.ukis ∧
      b.id ∉ unlinkIds (w.runtimeOf kernel) (w.group (.used x))) : w.Reports w' := by
  refine ⟨fun k y hy => ?_, fun b hb => ((hukis b).mp hb).1, fun b hb y hby hy => ?_⟩
  · rcases (hkeys _).mp hy with e | ⟨hy, _⟩
    · cases e
    · exact ⟨k, hy⟩
  · obtain ⟨hb, hid⟩ := (hukis b).mp hb
    refine (hkeys _).mpr (Or.inr ⟨hy, fun e => hid ?_⟩)
    obtain rfl : y = x := Status.used.inj (congrArg Prod.snd e)
    have hboot := group_boot_of_unique hb hby hroot fun c hc hcv =>
      h.single c hc b hb y hcv hby hroot
    exact List.mem_map.mpr ⟨b, by simp [hboot], rfl⟩

/-- Stopped between the two renames, the volumes are never paired again. -/
theorem not_reclaims_between_renames {w'' : World} {steps : List Step}
    (hk : KernelParams.fromCmdline cmdline = .ok kernel) (h : w.names.Whole)
    (hfind : (w.runtimeOf kernel).findSlotGroup v = .ok (w.group (.used x)))
    (hr : w.slot .root (.used x) = some r) (ht : w.slot .verity (.used x) = some t)
    (halloc : (w.runtimeOf kernel).allocateEmptyIdentifier = .ok id)
    (hrun : w.execAll ((unlinkIds (w.runtimeOf kernel) (w.group (.used x))).map Step.unlink ++
      [renameStep .root r (.empty (.known id))]) = some w')
    (hcmd : w'.runCommands cmdline [.remove v] = some (steps, w'')) :
    ¬ w.Reclaims cmdline (w.group (.used x)) w'' := by
  intro hrec
  obtain ⟨j, hfresh, hpair⟩ := hrec.keys hr ht
  obtain ⟨plain, fresh⟩ := World.allocateEmptyIdentifier_fresh halloc
  obtain ⟨hkeys, hukis⟩ := keys_of_rename h.nodup hr plain (fresh .root) hrun
  have hroot := World.slot_isSome.mp (Option.isSome_of_mem hr)
  have hverity := World.slot_isSome.mp (Option.isSome_of_mem ht)
  have hnew : ∀ k, (k, Status.empty (.known j)) ∈ w'.names.keys → k = .root ∧ j = id := by
    intro k hkj
    rcases (hkeys _).mp hkj with e | ⟨hkj, _⟩
    · cases e
      exact ⟨rfl, rfl⟩
    · exact absurd hkj (hfresh k)
  have hverity' : (Kind.verity, Status.used x) ∈ w'.names.keys :=
    (hkeys _).mpr (Or.inr ⟨hverity, by simp⟩)
  have hgone : (Kind.root, Status.used x) ∉ w'.names.keys := by
    rw [hkeys]
    simp
  rcases World.runCommands_singleton hcmd with rfl | ⟨plan, hplan, hexec⟩
  · cases (hnew _ (hpair .verity)).1
  · obtain ⟨rt', hrt', hremove⟩ := Outcome.bind_eq_ok.mp hplan
    obtain ⟨nodup', _, kernel', hk', rfl⟩ := World.runtime_eq_ok_iff.mp hrt'
    obtain rfl : kernel = kernel' := Outcome.ok.inj (hk.symm.trans hk')
    have hfind' := (reports_between_renames h hroot hkeys hukis).findSlotGroup hverity' hfind
    obtain ⟨id', hfresh', hkeys'⟩ :=
      keys_of_second_removal hverity' hgone nodup' hfind' hremove hexec
    rcases hkeys' _ (hpair .root) with e | hold
    · cases e
    · obtain ⟨_, rfl⟩ := hnew _ hold
      rcases hkeys' _ (hpair .verity) with e | hold'
      · cases e
        exact hfresh' .root hold
      · cases (hnew _ hold').1

end Stop

/-- An interrupted removal, repeated, ends with both volumes in one empty slot exactly
when the slot has no volumes or the run did not stop between the two renames. -/
theorem remove_crash_reclaims_iff {w w' : World} {cmdline : String} {rt : Runtime} {v : Version}
    {g : SlotGroup} {plan : Plan} {k : Nat} (hrt : w.runtime cmdline = .ok rt)
    (complete : ∀ g ∈ rt.slotgroups, g.root.isSome ∨ g.verity.isSome → g.isComplete)
    (hfind : rt.findSlotGroup v = .ok g) (hplan : Plan.remove rt v = .ok plan)
    (hrun : w.execAll (plan.steps.take k) = some w') :
    (∃ steps w'', w'.runCommands cmdline [.remove v] = some (steps, w'') ∧
        w.Reclaims cmdline g w'') ↔
      g.root = none ∨ k ≠ (Plan.unlinkSteps rt g).length + 1 := by
  obtain ⟨kernel, hk, rfl, h⟩ := whole_of_runtime hrt complete
  rcases remove_cases h hplan with ⟨b, hfind', hsteps⟩ | ⟨x, r, t, id, hfind', hr, ht, halloc,
    hsteps⟩
  · obtain rfl : orphan b = g := Outcome.ok.inj (hfind'.symm.trans hfind)
    refine iff_of_true ?_ (Or.inl rfl)
    rw [hsteps, ← List.map_take] at hrun
    obtain ⟨n, hn, hids, hukis⟩ := Names.execAll_unlink w.names ([b.id].take k)
    obtain rfl : n = w'.names := Option.some.inj (hn.symm.trans (World.names_of_execAll hrun))
    obtain ⟨steps, w'', hcmd, _⟩ :=
      remove_command_runs hk (h.of_subset hids fun b hb => ((hukis b).mp hb).1) v
    exact ⟨steps, w'', hcmd, fun r hr => by cases hr⟩
  · obtain rfl : w.group (.used x) = g := Outcome.ok.inj (hfind'.symm.trans hfind)
    have hroot : (w.group (.used x)).root ≠ none := by
      have hsome : (w.group (.used x)).root = some r := hr
      simp [hsome]
    rw [or_iff_right hroot, unlinkSteps_eq, List.length_map]
    rw [hsteps, List.take_append, List.length_map] at hrun
    rcases Nat.lt_trichotomy k
        ((unlinkIds (w.runtimeOf kernel) (w.group (.used x))).length + 1) with hlt | heq | hgt
    · refine iff_of_true ?_ (Nat.ne_of_lt hlt)
      obtain ⟨g', _, hg', hinactive, _⟩ := remove_eq_ok.mp hplan
      obtain rfl : w.group (.used x) = g' := Outcome.ok.inj (hfind'.symm.trans hg')
      rw [Nat.sub_eq_zero_of_le (by omega), List.take_zero, List.append_nil,
        ← List.map_take] at hrun
      exact reclaims_after_unlinks hk h hfind hinactive hr ht halloc hrun
    · refine iff_of_false ?_ (not_not_intro heq)
      rintro ⟨steps, w'', hcmd, hrec⟩
      rw [heq, Nat.add_sub_cancel_left, List.take_of_length_le (by simp)] at hrun
      exact not_reclaims_between_renames hk h hfind hr ht halloc hrun hcmd hrec
    · refine iff_of_true ?_ (Nat.ne_of_gt hgt)
      rw [List.take_of_length_le (by rw [List.length_map]; omega),
        List.take_of_length_le (by simp; omega), ← hsteps] at hrun
      exact reclaims_after_renames hk h hplan hr ht halloc hsteps hrun

def updatedWorld : World where
  lvs := ["persist", "root_0", "root_25.12.1_44cc41b403a2d323", "swap", "verity_0",
    "verity_25.12.1_44cc41b403a2d323"].map sampleLv
  esp := updatedEsp

def updatedRemovePlan : Plan :=
  ⟨[.unlink "ghaf-25.12.1-44cc41b403a2d323.efi",
    .lvrename "pool" "root_25.12.1_44cc41b403a2d323" "root_empty_0",
    .lvrename "pool" "verity_25.12.1_44cc41b403a2d323" "verity_empty_0"]⟩

def halfRemovedWorld : World where
  lvs := ["persist", "root_0", "root_empty_0", "swap", "verity_0",
    "verity_25.12.1_44cc41b403a2d323"].map sampleLv
  esp := legacyWorld.esp

def splitWorld : World where
  lvs := ["persist", "root_0", "root_empty_0", "swap", "verity_0", "verity_empty_1"].map sampleLv
  esp := legacyWorld.esp

theorem updatedWorld_samples :
    updatedWorld.runtime "root=fstab" = .ok (updatedWorld.runtimeOf legacyKernel) ∧
      (∀ g ∈ (updatedWorld.runtimeOf legacyKernel).slotgroups,
        g.root.isSome ∨ g.verity.isSome → g.isComplete) ∧
      (updatedWorld.runtimeOf legacyKernel).findSlotGroup sampleVersion =
        .ok (updatedWorld.group (.used sampleVersion)) ∧
      Plan.remove (updatedWorld.runtimeOf legacyKernel) sampleVersion = .ok updatedRemovePlan ∧
      updatedWorld.execAll (updatedRemovePlan.steps.take 2) = some halfRemovedWorld ∧
      halfRemovedWorld.runCommands "root=fstab" [.remove sampleVersion] = some
        ([.lvrename "pool" "verity_25.12.1_44cc41b403a2d323" "verity_empty_1"], splitWorld) ∧
      (updatedWorld.slot .root (.used sampleVersion)).isSome = true ∧
      (updatedWorld.slot .verity (.used sampleVersion)).isSome = true ∧
      splitWorld.names.keys = [(.root, .used ⟨"0", none⟩), (.root, .empty (.known "0")),
        (.verity, .used ⟨"0", none⟩), (.verity, .empty (.known "1"))] := by
  decide +kernel

theorem remove_crash_reclaims_iff_updatedWorld :
    (∃ steps w'', halfRemovedWorld.runCommands "root=fstab" [.remove sampleVersion] =
          some (steps, w'') ∧
        updatedWorld.Reclaims "root=fstab" (updatedWorld.group (.used sampleVersion)) w'') ↔
      (updatedWorld.group (.used sampleVersion)).root = none ∨
        2 ≠ (Plan.unlinkSteps (updatedWorld.runtimeOf legacyKernel)
          (updatedWorld.group (.used sampleVersion))).length + 1 := by
  rcases updatedWorld_samples with ⟨hruntime, hcomplete, hfind, hplan, htake, -⟩
  exact remove_crash_reclaims_iff hruntime hcomplete hfind hplan htake

/-- The second removal completes but gives the verity volume an identifier of its own. -/
theorem remove_crash_splits_pair :
    updatedWorld.runtime "root=fstab" = .ok (updatedWorld.runtimeOf legacyKernel) ∧
      (∀ g ∈ (updatedWorld.runtimeOf legacyKernel).slotgroups,
        g.root.isSome ∨ g.verity.isSome → g.isComplete) ∧
      Plan.remove (updatedWorld.runtimeOf legacyKernel) sampleVersion = .ok updatedRemovePlan ∧
      updatedWorld.execAll (updatedRemovePlan.steps.take 2) = some halfRemovedWorld ∧
      halfRemovedWorld.runCommands "root=fstab" [.remove sampleVersion] = some
        ([.lvrename "pool" "verity_25.12.1_44cc41b403a2d323" "verity_empty_1"], splitWorld) ∧
      ¬ updatedWorld.Reclaims "root=fstab" (updatedWorld.group (.used sampleVersion))
        splitWorld := by
  rcases updatedWorld_samples with
    ⟨hruntime, hcomplete, -, hplan, htake, hagain, hroot, hverity, hkeys⟩
  refine ⟨hruntime, hcomplete, hplan, htake, hagain, fun hrec => ?_⟩
  obtain ⟨r, hr⟩ := Option.isSome_iff_exists.mp hroot
  obtain ⟨t, ht⟩ := Option.isSome_iff_exists.mp hverity
  obtain ⟨j, _, hpair⟩ := hrec.keys hr ht
  have hroot := hpair .root
  have hverity := hpair .verity
  simp only [hkeys, List.mem_cons, List.not_mem_nil, Prod.mk.injEq, reduceCtorEq,
    Status.empty.injEq, EmptyId.known.injEq, true_and, false_and, or_false,
    false_or] at hroot hverity
  rw [hroot] at hverity
  exact absurd hverity (by decide)

end GhafGivc.Image
