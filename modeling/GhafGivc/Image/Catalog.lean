import GhafGivc.Core.PartialKeys
import GhafGivc.Image.World

/-! # The names in a world

The planner sees a world only through the names of its volumes and boot entries.
`Names` keeps nothing else; steps act on it, `World` simulates it, and the
runtime is read off it up to the sizes of the volumes.
-/

namespace GhafGivc.Image

open Core SlotGroup

/-- The key stored in a volume name, for a slot volume. -/
def nameKey (id : String × String) : Option (Kind × Status) :=
  match Slot.decodeStatus id.2 with
  | .ok key => some key
  | _ => none

theorem nameKey_eq_some {id : String × String} {k : Kind} {s : Status} :
    nameKey id = some (k, s) ↔ id.2 = Slot.displayName k s ∧ s.Plain := by
  rw [← Slot.decodeStatus_eq_ok, nameKey]
  cases Slot.decodeStatus id.2 <;> simp

theorem nameKey_displayName {vg : String} {k : Kind} {s : Status} (h : s.Plain) :
    nameKey (vg, Slot.displayName k s) = some (k, s) :=
  nameKey_eq_some.mpr ⟨rfl, h⟩

def devicePath (id : String × String) : String := "/dev/mapper/" ++ id.1 ++ "-" ++ id.2

namespace Step

/-- The volumes a step renames, resizes, writes, flushes or creates. -/
def lvOperands : Step → List (String × String)
  | lvcreate vg lv _ => [(vg, lv)]
  | lvresize volume _ | installVolume volume _ _ | finalizeFlush volume => [volume.id]
  | lvrename vg lv target => [(vg, lv), (vg, target)]
  | _ => []

/-- The boot entries a step writes or unlinks. -/
def bootOperands : Step → List String
  | installUki _ _ _ name => [name]
  | unlink id => [id]
  | _ => []

end Step

structure Names where
  ids : List (String × String)
  esp : Esp
deriving DecidableEq

namespace Names

/-- Kind and status of every slot volume. -/
def keys (n : Names) : List (Kind × Status) := n.ids.filterMap nameKey

/-- Both volumes of a version are present. -/
def Installed (n : Names) (v : Version) : Prop :=
  (Kind.root, Status.used v) ∈ n.keys ∧ (Kind.verity, Status.used v) ∈ n.keys

instance (n : Names) (v : Version) : Decidable (n.Installed v) :=
  inferInstanceAs (Decidable (_ ∧ _))

def ukis (n : Names) : List BootEntry :=
  (BootEntry.fromBootctl n.esp.items).filter BootEntry.isManaged

def exec (n : Names) : Step → Option Names
  | .lvcreate vg lv _ =>
      if (vg, lv) ∈ n.ids then none else some { n with ids := n.ids ++ [(vg, lv)] }
  | .lvresize volume _ => if volume.id ∈ n.ids then some n else none
  | .installVolume volume _ _ | .finalizeFlush volume =>
      if volume.deviceFile ∈ n.ids.map devicePath then some n else none
  | .lvrename vg lv target =>
      if (vg, lv) ∈ n.ids ∧ (vg, target) ∉ n.ids then
        some { n with ids := n.ids.map (trade (vg, lv) (vg, target)) }
      else none
  | .installUki _ _ _ name => some { n with esp := n.esp.install name }
  | .unlink id => some { n with esp := n.esp.unlink id }
  | .loaderDefault _ | .removeSelection _ | .setDefault => some n

def execAll (n : Names) (steps : List Step) : Option Names := run exec n steps

theorem execAll_append {n n' : Names} {steps : List Step} (h : n.execAll steps = some n')
    (rest : List Step) : n.execAll (steps ++ rest) = n'.execAll rest :=
  run_append_of_some rest h

end Names

namespace World

def names (w : World) : Names := ⟨w.volumes.map Volume.id, w.esp⟩

theorem hasLv_eq (w : World) (id : String × String) :
    w.hasLv id = decide (id ∈ w.names.ids) := by
  rw [Bool.eq_iff_iff, decide_eq_true_iff]
  simp [hasLv, names]

theorem hasDevice_eq (w : World) (path : String) :
    w.hasDevice path = decide (path ∈ w.names.ids.map devicePath) := by
  rw [Bool.eq_iff_iff, decide_eq_true_iff, hasDevice, List.any_eq_true, names, List.map_map,
    List.mem_map]
  simp only [decide_eq_true_eq]
  rfl

theorem volumes_write (w : World) (path image : String) :
    (w.write path image).volumes = w.volumes := by
  simp only [volumes, write, List.map_map]
  apply List.map_congr_left
  intro lv _
  simp only [Function.comp_apply]
  split <;> rfl

theorem ids_updateLv (w : World) (id : String × String) (f : Lv → Lv) :
    (w.updateLv id f).names.ids =
      w.lvs.map fun lv => if lv.volume.id = id then (f lv).volume.id else lv.volume.id := by
  simp only [names, volumes, updateLv, List.map_map]
  apply List.map_congr_left
  intro lv _
  simp only [Function.comp_apply]
  split <;> rfl

theorem names_updateLv_same (w : World) (id : String × String) {f : Lv → Lv}
    (hf : ∀ lv, (f lv).volume.id = lv.volume.id) : (w.updateLv id f).names = w.names := by
  have hids : (w.updateLv id f).names.ids = w.names.ids := by
    rw [ids_updateLv]
    simp only [hf, ite_self, names, volumes, List.map_map]
    rfl
  exact congrArg₂ Names.mk hids rfl

theorem names_rename (w : World) (vg lv target : String) :
    (w.updateLv (vg, lv) fun l =>
        { l with volume := { l.volume with lvName := target } }).names =
      { w.names with ids := w.names.ids.map (trade (vg, lv) (vg, target)) } := by
  refine congrArg₂ Names.mk ((ids_updateLv w _ _).trans ?_) rfl
  simp only [names, volumes, List.map_map]
  apply List.map_congr_left
  intro l _
  simp only [Function.comp_apply, trade]
  by_cases h : l.volume.id = (vg, lv)
  · rw [if_pos h, if_pos h]
    exact congrArg (·, target) (congrArg Prod.fst h)
  · rw [if_neg h, if_neg h]

/-- The names evolve on their own. -/
theorem names_exec (w : World) (step : Step) : (w.exec step).map names = w.names.exec step := by
  cases step with
  | lvcreate vg lv size =>
      simp only [exec, Names.exec, hasLv_eq, decide_eq_true_eq]
      split
      · rfl
      · simp [names, volumes, Volume.id]
  | lvresize volume needed =>
      simp only [exec, Names.exec, hasLv_eq, decide_eq_true_eq]
      split
      · exact congrArg some (names_updateLv_same w _ fun _ => rfl)
      · rfl
  | installVolume volume file source =>
      simp only [exec, Names.exec, hasDevice_eq, decide_eq_true_eq]
      split
      · rw [Option.map_some, names, volumes_write]
        rfl
      · rfl
  | finalizeFlush volume =>
      simp only [exec, Names.exec, hasDevice_eq, decide_eq_true_eq]
      split <;> rfl
  | lvrename vg lv target =>
      simp only [exec, Names.exec, hasLv_eq, Bool.and_eq_true, Bool.not_eq_true',
        decide_eq_true_eq, decide_eq_false_iff_not]
      split
      · rw [Option.map_some, names_rename]
      · rfl
  | installUki file boot source name => rfl
  | unlink id => rfl
  | loaderDefault boot => rfl
  | removeSelection boot => rfl
  | setDefault => rfl

theorem names_execAll (w : World) (steps : List Step) :
    (w.execAll steps).map names = w.names.execAll steps :=
  run_map names_exec w steps

/-- A run of the names is the trace of a run of the world. -/
theorem execAll_of_names {w : World} {steps : List Step} {n : Names}
    (h : w.names.execAll steps = some n) : ∃ w', w.execAll steps = some w' ∧ w'.names = n := by
  rw [← names_execAll] at h
  exact Option.map_eq_some_iff.mp h

theorem names_of_execAll {w w' : World} {steps : List Step} (h : w.execAll steps = some w') :
    w.names.execAll steps = some w'.names := by
  rw [← names_execAll, h]
  rfl

end World

/-! ## Boot entries -/

namespace Names

variable {n : Names} {b c : BootEntry} {id name : String}

theorem ukis_managed : ∀ b ∈ n.ukis, b.isManaged = true :=
  fun _ hb => (List.mem_filter.mp hb).2

theorem mem_ukis :
    b ∈ n.ukis ↔ ∃ u, ⟨"type2", b.id⟩ ∈ n.esp.items ∧ UkiEntry.fromStr b.id = .ok u ∧
      b.kind = .managed u := by
  obtain ⟨id, kind⟩ := b
  simp only [ukis, BootEntry.fromBootctl, List.mem_filter, List.mem_filterMap]
  constructor
  · rintro ⟨⟨item, hitem, hof⟩, hm⟩
    obtain ⟨v, hv⟩ := BootEntry.version_isSome_of_isManaged hm
    obtain ⟨ht, u, hu, _⟩ := BootEntry.fromStr_of_version hof hv
    obtain rfl : id = item.id := BootEntry.ofItem_id hof
    obtain ⟨ty, iid⟩ := item
    obtain rfl : ty = "type2" := ht
    refine ⟨u, hitem, hu, ?_⟩
    simp only at hu
    simp only [BootEntry.ofItem, if_true, hu, Option.some.injEq, BootEntry.mk.injEq,
      true_and] at hof
    exact hof.symm
  · rintro ⟨u, hitem, hu, rfl⟩
    exact ⟨⟨_, hitem, by simp [BootEntry.ofItem, hu]⟩, rfl⟩

theorem version_of_mem_ukis (h : b ∈ n.ukis) :
    ∃ u, UkiEntry.fromStr b.id = .ok u ∧ b.version = some u.version := by
  obtain ⟨u, _, hu, hk⟩ := mem_ukis.mp h
  exact ⟨u, hu, by simp [BootEntry.version, BootEntry.uki, hk]⟩

theorem nodup_ukis (n : Names) : n.ukis.Nodup := by
  refine List.Nodup.filter _ (List.pairwise_filterMap.mpr ?_)
  refine (List.pairwise_map.mp n.esp.ids_nodup).imp ?_
  rintro x y hne b hb c hc rfl
  exact hne ((BootEntry.ofItem_id hb).symm.trans (BootEntry.ofItem_id hc))

theorem ukis_congr {n' : Names} (h : n'.esp = n.esp) : n'.ukis = n.ukis := by
  rw [ukis, h, ukis]

theorem mem_ukis_of_items {n' : Names} {p : String → Prop}
    (h : ∀ item, item ∈ n'.esp.items ↔ item ∈ n.esp.items ∧ p item.id) :
    b ∈ n'.ukis ↔ b ∈ n.ukis ∧ p b.id := by
  simp only [mem_ukis, h]
  constructor
  · rintro ⟨u, ⟨hi, hp⟩, h⟩
    exact ⟨⟨u, hi, h⟩, hp⟩
  · rintro ⟨⟨u, hi, h⟩, hp⟩
    exact ⟨u, ⟨hi, hp⟩, h⟩

theorem mem_ukis_unlink {n' : Names} (hesp : n'.esp = n.esp.unlink id) :
    b ∈ n'.ukis ↔ b ∈ n.ukis ∧ b.id ≠ id :=
  mem_ukis_of_items (p := (· ≠ id)) fun item => by simp [hesp, Esp.unlink]

variable {s : Status} {u : UkiEntry}

theorem mem_ukis_install {n' : Names} (hesp : n'.esp = n.esp.install name)
    (hname : UkiEntry.fromStr name = .ok u) :
    b ∈ n'.ukis ↔ b = ⟨name, .managed u⟩ ∨ (b ∈ n.ukis ∧ b.id ≠ name) := by
  have hunlink : b ∈ ukis ⟨n.ids, n.esp.unlink name⟩ ↔ b ∈ n.ukis ∧ b.id ≠ name :=
    mem_ukis_unlink rfl
  rw [← hunlink]
  simp only [mem_ukis, hesp, Esp.install, List.mem_append, List.mem_singleton,
    BootctlItem.mk.injEq, true_and]
  constructor
  · rintro ⟨u', hi | hi, hu, hk⟩
    · exact Or.inr ⟨u', hi, hu, hk⟩
    · rw [hi, hname] at hu
      cases hu
      obtain ⟨id, kind⟩ := b
      exact Or.inl (by simp_all)
  · rintro (rfl | ⟨u', hi, h⟩)
    · exact ⟨u, Or.inr rfl, hname, rfl⟩
    · exact ⟨u', Or.inl hi, h⟩

theorem id_ne_of_version_ne (hb : b ∈ n.ukis) (hname : UkiEntry.fromStr name = .ok u)
    (hne : b.version ≠ some u.version) : b.id ≠ name := by
  intro e
  obtain ⟨x, hx, hbx⟩ := version_of_mem_ukis hb
  rw [e, hname] at hx
  cases hx
  exact hne hbx

theorem mem_ukis_install_new {n' : Names} (hesp : n'.esp = n.esp.install name)
    (hname : UkiEntry.fromStr name = .ok u) (unclaimed : ∀ c ∈ n.ukis, c.version ≠ some u.version) :
    b ∈ n'.ukis ↔ b = ⟨name, .managed u⟩ ∨ b ∈ n.ukis := by
  rw [mem_ukis_install hesp hname]
  refine or_congr_right (and_iff_left_of_imp ?_)
  intro hb
  exact id_ne_of_version_ne hb hname (unclaimed b hb)

theorem eq_of_ukis_id {n' : Names} (hb : b ∈ n.ukis) (hc : c ∈ n'.ukis) (h : b.id = c.id) :
    b = c := by
  obtain ⟨u, _, hu, hbk⟩ := mem_ukis.mp hb
  obtain ⟨u', _, hu', hck⟩ := mem_ukis.mp hc
  obtain ⟨bid, bkind⟩ := b
  obtain ⟨cid, ckind⟩ := c
  simp only at h hbk hck hu hu'
  subst h hbk hck
  rw [hu] at hu'
  cases hu'
  rfl

theorem legacy_id_ne (hb : b ∈ n.ukis) (hc : c ∈ BootEntry.fromBootctl n.esp.items)
    (hl : c.isLegacy = true) : b.id ≠ c.id := by
  intro e
  obtain ⟨u, hitem, _⟩ := mem_ukis.mp hb
  obtain ⟨item, hmem, hof⟩ := List.mem_filterMap.mp hc
  have hid : item.id = b.id := (BootEntry.ofItem_id hof).symm.trans e.symm
  have heq := List.inj_on_of_nodup_map n.esp.ids_nodup hmem hitem hid
  subst heq
  unfold BootEntry.ofItem at hof
  rw [if_pos rfl] at hof
  split at hof <;> cases hof <;> cases hl

theorem execAll_unlink (n : Names) (ids : List String) :
    ∃ n', n.execAll (ids.map Step.unlink) = some n' ∧ n'.ids = n.ids ∧
      ∀ b, b ∈ n'.ukis ↔ b ∈ n.ukis ∧ b.id ∉ ids := by
  induction ids generalizing n with
  | nil => exact ⟨n, rfl, rfl, by simp⟩
  | cons id ids ih =>
      obtain ⟨n', hrun, hids, hukis⟩ := ih { n with esp := n.esp.unlink id }
      refine ⟨n', hrun, hids, fun b => ?_⟩
      rw [hukis, mem_ukis_unlink rfl, List.mem_cons, not_or, and_assoc]

variable {k : Kind} {item : BootctlItem}

theorem items_unlink {n' : Names} {ids : List String}
    (h : n.execAll (ids.map Step.unlink) = some n') :
    item ∈ n'.esp.items ↔ item ∈ n.esp.items ∧ item.id ∉ ids := by
  induction ids generalizing n with
  | nil =>
      cases h
      simp
  | cons id ids ih =>
      have hrest : ({ n with esp := n.esp.unlink id } : Names).execAll (ids.map Step.unlink) =
        some n' := h
      rw [ih hrest]
      simp [Esp.unlink, and_assoc]

/-! ## Effects on keys -/

theorem key_mem_of_id {id : String × String} (hid : id ∈ n.ids) (hk : nameKey id = some (k, s)) :
    (k, s) ∈ n.keys :=
  List.mem_filterMap.mpr ⟨id, hid, hk⟩

theorem plain_of_key (h : (k, s) ∈ n.keys) : s.Plain := by
  obtain ⟨id, _, hk⟩ := List.mem_filterMap.mp h
  exact (nameKey_eq_some.mp hk).2

theorem displayName_notMem_ids (hs : s.Plain) (h : (k, s) ∉ n.keys) (vg : String) :
    (vg, Slot.displayName k s) ∉ n.ids :=
  fun hid => h (key_mem_of_id hid (nameKey_displayName hs))

theorem exec_lvcreate (vg : String) (size : Nat) (hs : s.Plain) (fresh : (k, s) ∉ n.keys) :
    ∃ n', n.exec (.lvcreate vg (Slot.displayName k s) size) = some n' ∧
      n'.ids = n.ids ++ [(vg, Slot.displayName k s)] ∧ n'.keys = n.keys ++ [(k, s)] ∧
      n'.esp = n.esp := by
  refine ⟨_, if_neg (displayName_notMem_ids hs fresh vg), rfl, ?_, rfl⟩
  simp [keys, nameKey_displayName hs]

theorem exec_lvrename_eq_some {vg lv target : String} {n' : Names} :
    n.exec (.lvrename vg lv target) = some n' ↔
      (vg, lv) ∈ n.ids ∧ (vg, target) ∉ n.ids ∧
        { n with ids := n.ids.map (trade (vg, lv) (vg, target)) } = n' := by
  simp only [exec]
  split <;> simp_all

theorem exec_lvrename {vg lv : String} {s t : Status} (nodup : n.keys.Nodup)
    (hid : (vg, lv) ∈ n.ids) (hkey : nameKey (vg, lv) = some (k, s)) (ht : t.Plain)
    (fresh : (k, t) ∉ n.keys) :
    ∃ n', n.exec (.lvrename vg lv (Slot.displayName k t)) = some n' ∧
      n'.ids = n.ids.map (trade (vg, lv) (vg, Slot.displayName k t)) ∧
      n'.keys.Nodup ∧ (∀ c, c ∈ n'.keys ↔ c = (k, t) ∨ (c ∈ n.keys ∧ c ≠ (k, s))) ∧
      n'.esp = n.esp := by
  refine ⟨_, if_pos ⟨hid, displayName_notMem_ids ht fresh vg⟩, rfl, ?_, ?_, rfl⟩
  · exact nodup_keys_trade nodup hkey (nameKey_displayName ht) fresh
  · exact fun c => mem_keys_trade nodup hid hkey (nameKey_displayName ht)

/-- The step needs a present volume at most and introduces no name. -/
def Keeps (n : Names) : Step → Prop
  | .lvresize volume _ | .installVolume volume _ _ | .finalizeFlush volume => volume.id ∈ n.ids
  | .loaderDefault _ | .removeSelection _ | .setDefault => True
  | _ => False

theorem exec_of_keeps {step : Step} (h : n.Keeps step) : n.exec step = some n := by
  cases step with
  | lvresize volume _ => exact if_pos h
  | installVolume volume _ _ | finalizeFlush volume =>
      exact if_pos (List.mem_map_of_mem (f := devicePath) h)
  | lvcreate _ _ _ | lvrename _ _ _ | installUki _ _ _ _ | unlink _ => exact h.elim
  | loaderDefault _ | removeSelection _ | setDefault => rfl

theorem execAll_of_keeps {steps : List Step} (h : ∀ step ∈ steps, n.Keeps step) :
    n.execAll steps = some n := by
  induction steps with
  | nil => rfl
  | cons step steps ih =>
      rw [execAll, run_cons_of_some _ (exec_of_keeps (h step (by simp)))]
      exact ih fun step' hstep => h step' (by simp [hstep])

/-! ## Frames -/

variable {n' : Names} {step : Step} {steps : List Step}

theorem mem_ids_exec {id : String × String} (h : n.exec step = some n') (hid : id ∈ n.ids)
    (hop : id ∉ step.lvOperands) : id ∈ n'.ids := by
  cases step with
  | lvcreate vg lv size =>
      simp only [exec] at h
      split at h
      · cases h
      · cases h
        exact List.mem_append_left _ hid
  | lvrename vg lv target =>
      simp only [exec] at h
      split at h
      · cases h
        have hne : id ≠ (vg, lv) := by
          rintro rfl
          simp [Step.lvOperands] at hop
        exact List.mem_map.mpr ⟨id, hid, if_neg hne⟩
      · cases h
  | lvresize _ _ | installVolume _ _ _ | finalizeFlush _ =>
      simp only [exec] at h
      split at h <;> cases h
      exact hid
  | installUki _ _ _ _ | unlink _ | loaderDefault _ | removeSelection _ | setDefault =>
      cases h
      exact hid

theorem mem_ids_execAll {id : String × String} (h : n.execAll steps = some n') (hid : id ∈ n.ids)
    (hop : ∀ step ∈ steps, id ∉ step.lvOperands) : id ∈ n'.ids :=
  run_preserves (P := fun n => id ∈ n.ids)
    (fun step hstep _ _ hid hexec => mem_ids_exec hexec hid (hop step hstep)) hid h

theorem item_of_exec (h : n.exec step = some n') (hitem : item ∈ n'.esp.items) :
    item ∈ n.esp.items ∨ item.id ∈ step.bootOperands := by
  cases step with
  | installUki _ _ _ name =>
      cases h
      rcases List.mem_append.mp hitem with hitem | hitem
      · exact Or.inl (List.mem_filter.mp hitem).1
      · rw [List.mem_singleton.mp hitem]
        exact Or.inr (by simp [Step.bootOperands])
  | unlink id =>
      cases h
      exact Or.inl (List.mem_filter.mp hitem).1
  | lvcreate _ _ _ | lvrename _ _ _ | lvresize _ _ | installVolume _ _ _ | finalizeFlush _ =>
      simp only [exec] at h
      split at h <;> cases h
      exact Or.inl hitem
  | loaderDefault _ | removeSelection _ | setDefault =>
      cases h
      exact Or.inl hitem

theorem item_of_execAll (h : n.execAll steps = some n') (hitem : item ∈ n'.esp.items) :
    item ∈ n.esp.items ∨ ∃ step ∈ steps, item.id ∈ step.bootOperands := by
  by_contra hnot
  rw [not_or] at hnot
  refine run_preserves (P := fun n => item ∉ n.esp.items) ?_ hnot.1 h hitem
  intro step hstep m m' hm hexec hmem
  rcases item_of_exec hexec hmem with hmem | hop
  · exact hm hmem
  · exact hnot.2 ⟨step, hstep, hop⟩

end Names

/-- What a step makes of a volume that is there. -/
def Step.onVolume : Step → Volume → Volume
  | .lvresize volume needed, v =>
      if v.id = volume.id then { v with lvSizeBytes := some needed } else v
  | .lvrename vg name target, v => if v.id = (vg, name) then { v with lvName := target } else v
  | _, v => v

def Volume.after (v : Volume) (steps : List Step) : Volume :=
  steps.foldl (fun v step => step.onVolume v) v

theorem Volume.after_append (v : Volume) (steps rest : List Step) :
    v.after (steps ++ rest) = (v.after steps).after rest := List.foldl_append

theorem Step.onVolume_of_notMem {step : Step} {v : Volume} (h : v.id ∉ step.lvOperands) :
    step.onVolume v = v := by
  cases step with
  | lvresize _ _ => exact if_neg fun e => h (by simp [e, Step.lvOperands])
  | lvrename vg name target => exact if_neg fun e => h (by simp [e, Step.lvOperands])
  | _ => rfl

theorem Volume.after_of_notMem {v : Volume} {steps : List Step}
    (h : ∀ step ∈ steps, v.id ∉ step.lvOperands) : v.after steps = v := by
  induction steps with
  | nil => rfl
  | cons step steps ih =>
      change (step.onVolume v).after steps = v
      rw [Step.onVolume_of_notMem (h step (by simp))]
      exact ih fun step' hstep => h step' (by simp [hstep])

namespace World

variable {w w' : World} {step : Step} {steps : List Step} {vg name target : String}

theorem volumes_updateLv (w : World) (id : String × String) {f : Lv → Lv} {g : Volume → Volume}
    (hf : ∀ lv, (f lv).volume = g lv.volume) :
    (w.updateLv id f).volumes = w.volumes.map fun v => if v.id = id then g v else v := by
  simp only [volumes, updateLv, List.map_map]
  apply List.map_congr_left
  intro lv _
  simp only [Function.comp_apply]
  split
  · exact hf lv
  · rfl

/-- A step works on each volume by itself and may add one at the end. -/
theorem volumes_exec (h : w.exec step = some w') :
    ∃ created, w'.volumes = w.volumes.map step.onVolume ++ created := by
  have hkept : w'.volumes = w.volumes → step.onVolume = id →
      ∃ created, w'.volumes = w.volumes.map step.onVolume ++ created := by
    intro hvolumes hid
    exact ⟨[], by rw [hvolumes, hid, List.map_id, List.append_nil]⟩
  cases step with
  | lvcreate vg name size =>
      simp only [exec] at h
      split at h
      · cases h
      · cases h
        exact ⟨[⟨name, vg, some size⟩], by simp [volumes, Step.onVolume]⟩
  | lvresize volume needed =>
      simp only [exec] at h
      split at h
      · cases h
        exact ⟨[], by rw [volumes_updateLv w _ (g := fun v => { v with lvSizeBytes := some needed })
          fun _ => rfl, List.append_nil]; rfl⟩
      · cases h
  | lvrename vg name target =>
      simp only [exec] at h
      split at h
      · cases h
        exact ⟨[], by rw [volumes_updateLv w _ (g := fun v => { v with lvName := target })
          fun _ => rfl, List.append_nil]; rfl⟩
      · cases h
  | installVolume volume file source =>
      simp only [exec] at h
      split at h
      · cases h
        exact hkept (volumes_write _ _ _) rfl
      · cases h
  | finalizeFlush _ =>
      simp only [exec] at h
      split at h <;> cases h
      exact hkept rfl rfl
  | installUki _ _ _ _ | unlink _ | loaderDefault _ | removeSelection _ | setDefault =>
      cases h
      exact hkept rfl rfl

theorem volumes_execAll (h : w.execAll steps = some w') :
    ∃ created, w'.volumes = w.volumes.map (·.after steps) ++ created := by
  induction steps generalizing w with
  | nil =>
      cases h
      exact ⟨[], by rw [List.append_nil]; exact (List.map_id' _).symm⟩
  | cons step steps ih =>
      obtain ⟨w₁, h₁, h⟩ := run_cons_eq_some.mp h
      obtain ⟨made, hmade⟩ := volumes_exec h₁
      obtain ⟨created, hcreated⟩ := ih h
      refine ⟨made.map (·.after steps) ++ created, ?_⟩
      rw [hcreated, hmade, List.map_append, List.map_map, List.append_assoc]
      rfl

theorem after_mem_execAll {v : Volume} (h : w.execAll steps = some w') (hv : v ∈ w.volumes) :
    v.after steps ∈ w'.volumes := by
  obtain ⟨created, hvolumes⟩ := volumes_execAll h
  rw [hvolumes]
  exact List.mem_append_left _ (List.mem_map_of_mem hv)

theorem lvs_rename (h : w.exec (.lvrename vg name target) = some w') :
    w'.lvs = w.lvs.map fun lv =>
      if lv.volume.id = (vg, name) then { lv with volume := { lv.volume with lvName := target } }
      else lv := by
  simp only [exec] at h
  split at h
  · cases h
    rfl
  · cases h

theorem lv_mem_rename {lv : Lv} (h : w.exec (.lvrename vg name target) = some w') (hlv : lv ∈ w.lvs)
    (hid : lv.volume.id = (vg, name)) :
    { lv with volume := { lv.volume with lvName := target } } ∈ w'.lvs := by
  rw [lvs_rename h]
  exact List.mem_map.mpr ⟨lv, hlv, if_pos hid⟩

theorem lv_mem_rename_of_ne {lv : Lv} (h : w.exec (.lvrename vg name target) = some w')
    (hlv : lv ∈ w.lvs) (hid : lv.volume.id ≠ (vg, name)) : lv ∈ w'.lvs := by
  rw [lvs_rename h]
  exact List.mem_map.mpr ⟨lv, hlv, if_neg hid⟩

theorem lvs_execAll_of_operands (hop : ∀ step ∈ steps, step.lvOperands = [])
    (h : w.execAll steps = some w') : w'.lvs = w.lvs := by
  refine run_preserves (P := fun x => x.lvs = w.lvs) ?_ rfl h
  intro step hstep x y hx hexec
  have hnil := hop step hstep
  cases step with
  | installUki _ _ _ _ | unlink _ | loaderDefault _ | removeSelection _ | setDefault =>
      cases hexec
      exact hx
  | _ => cases hnil

theorem lvs_unlink {ids : List String} (h : w.execAll (ids.map Step.unlink) = some w') :
    w'.lvs = w.lvs := by
  refine lvs_execAll_of_operands ?_ h
  intro step hstep
  obtain ⟨id, _, rfl⟩ := List.mem_map.mp hstep
  rfl

end World

end GhafGivc.Image
