import GhafGivc.Image.Invariant

/-! # Slots renamed to an empty identifier

A slot is read from the volume that carries its name, so a slot that no step names is
read back as it was. A removal renames the two volumes of a status, as far as they are
there; what that does to the slots and the names is stated once, for one rename and for
both.
-/

namespace GhafGivc.Image

open Core SlotGroup

namespace World

variable {w w' : World} {lv : Lv} {k : Kind} {s : Status} {b : BootEntry}

theorem keys_eq_lvs (w : World) :
    w.names.keys = w.lvs.filterMap fun lv => nameKey lv.volume.id := by
  simp only [Names.keys, names, volumes, List.map_map, List.filterMap_map]
  rfl

theorem slot_of_volume {volume : Volume} (nodup : w.names.keys.Nodup) (hv : volume ∈ w.volumes)
    (hkey : nameKey volume.id = some (k, s)) : w.slot k s = some ⟨k, s, volume⟩ := by
  rw [← map_key_slots] at nodup
  have hmem : (⟨k, s, volume⟩ : Slot) ∈ w.slots := mem_slots.mpr ⟨hv, hkey⟩
  exact slotFor_of_mem nodup hmem

theorem slot_of_lv (nodup : w.names.keys.Nodup) (hlv : lv ∈ w.lvs)
    (hkey : nameKey lv.volume.id = some (k, s)) : w.slot k s = some ⟨k, s, lv.volume⟩ :=
  slot_of_volume nodup (List.mem_map_of_mem hlv) hkey

theorem slot_eq_none (h : (k, s) ∉ w.names.keys) : w.slot k s = none :=
  Option.not_isSome_iff_eq_none.mp fun hsome => h (slot_isSome.mp hsome)

theorem keys_congr (h : w'.lvs = w.lvs) : w'.names.keys = w.names.keys := by
  rw [keys_eq_lvs, h, keys_eq_lvs]

theorem slot_congr (h : w'.lvs = w.lvs) (k : Kind) (s : Status) : w'.slot k s = w.slot k s := by
  rw [slot, slots, volumes, h]
  rfl

theorem lv_of_slot {r : Slot} (h : w.slot k s = some r) : ∃ lv ∈ w.lvs, lv.volume = r.volume :=
  List.mem_map.mp (slot_spec h).2.2.1

theorem slot_execAll {steps : List Step} (nodup : w'.names.keys.Nodup)
    (hrun : w.execAll steps = some w')
    (hkey : (k, s) ∈ w'.names.keys → (k, s) ∈ w.names.keys)
    (hop : ∀ step ∈ steps, ∀ id ∈ step.lvOperands, nameKey id ≠ some (k, s)) :
    w'.slot k s = w.slot k s := by
  cases hslot : w.slot k s with
  | none =>
      cases hslot' : w'.slot k s with
      | none => rfl
      | some x =>
          have hsome := slot_isSome.mpr (hkey (slot_isSome.mp (Option.isSome_of_mem hslot')))
          rw [hslot] at hsome
          cases hsome
  | some r =>
      obtain ⟨hkind, hstatus, hmem, hname⟩ := slot_spec hslot
      have hmem' := after_mem_execAll hrun hmem
      rw [Volume.after_of_notMem fun step hstep hid => hop step hstep _ hid hname] at hmem'
      rw [slot_of_volume nodup hmem' hname, ← hkind, ← hstatus]

theorem group_boot_iff {v : Version} (h : w.names.Readable) :
    (w.group (.used v)).boot = some b ↔
      b ∈ w.names.ukis ∧ b.version = some v ∧ (Kind.root, Status.used v) ∈ w.names.keys := by
  constructor
  · intro hb
    rcases bootFor_eq_some hb with ⟨hmem, hbv, hroot⟩
    exact ⟨hmem, hbv, slot_isSome.mp hroot⟩
  · intro hb
    exact group_boot_of_unique hb.1 hb.2.1 hb.2.2 fun c hc hcv =>
      h.single c hc b hb.1 v hcv hb.2.1 hb.2.2

theorem group_boot_of_isEmpty (h : s.isEmpty = true) : (w.group s).boot = none :=
  bootFor_eq_none_of_isEmpty Names.ukis_managed h

/-- A group is read back as it was when its slots and the UKIs of its version are. -/
theorem group_congr (h : w.names.Readable) (h' : w'.names.Readable)
    (hslot : ∀ k, w'.slot k s = w.slot k s)
    (hukis : ∀ b, b.version = s.version → (b ∈ w'.names.ukis ↔ b ∈ w.names.ukis)) :
    w'.group s = w.group s := by
  have hboot : (w'.group s).boot = (w.group s).boot := by
    cases s with
    | empty id => rw [group_boot_of_isEmpty rfl, group_boot_of_isEmpty rfl]
    | used v =>
        apply Option.ext
        intro b
        rw [group_boot_iff h', group_boot_iff h, ← slot_isSome, ← slot_isSome, hslot]
        constructor
        · intro hb
          exact ⟨(hukis b hb.2.1).mp hb.1, hb.2⟩
        · intro hb
          exact ⟨(hukis b hb.2.1).mpr hb.1, hb.2⟩
  change (⟨w'.slot .root s, w'.slot .verity s, (w'.group s).boot⟩ : SlotGroup) =
    ⟨w.slot .root s, w.slot .verity s, (w.group s).boot⟩
  rw [hslot, hslot, hboot]

theorem isOrphan_congr {v : Version} (hb : b.version = some v)
    (h : (Kind.root, Status.used v) ∈ w'.names.keys ↔ (Kind.root, Status.used v) ∈ w.names.keys) :
    isOrphan w'.slots b = isOrphan w.slots b := by
  rw [Bool.eq_iff_iff, ← not_iff_not, Bool.not_eq_true, Bool.not_eq_true,
    isOrphan_eq_false_iff_key hb, isOrphan_eq_false_iff_key hb, h]

end World

def Slot.emptied (r : Slot) (id : String) : Slot :=
  ⟨r.kind, .empty (.known id),
    { r.volume with lvName := Slot.displayName r.kind (.empty (.known id)) }⟩

/-- `w'` is `w` after the volume of kind `k` and status `s`, if there is one, was renamed
to the empty identifier. -/
structure World.Renamed (w w' : World) (k : Kind) (s : Status) (id : String) : Prop where
  esp : w'.esp = w.esp
  nodup : w'.names.keys.Nodup
  keys : ∀ c, c ∈ w'.names.keys ↔
    (c = (k, .empty (.known id)) ∧ (k, s) ∈ w.names.keys) ∨ (c ∈ w.names.keys ∧ c ≠ (k, s))
  moved : w'.slot k (.empty (.known id)) = (w.slot k s).map (·.emptied id)
  slots : ∀ k' u, (k', u) ≠ (k, s) → (k', u) ≠ (k, .empty (.known id)) →
    w'.slot k' u = w.slot k' u
  kept : ∀ lv ∈ w.lvs, nameKey lv.volume.id ≠ some (k, s) → lv ∈ w'.lvs

section Rename

variable {w w' : World} {k : Kind} {s : Status} {id : String} {r : Slot}

theorem World.Renamed.refl (nodup : w.names.keys.Nodup)
    (fresh : (k, .empty (.known id)) ∉ w.names.keys) (h : w.slot k s = none) :
    w.Renamed w k s id where
  esp := rfl
  nodup := nodup
  keys := by
    have hs : (k, s) ∉ w.names.keys := by
      intro hs
      have hsome := World.slot_isSome.mpr hs
      rw [h] at hsome
      cases hsome
    intro c
    constructor
    · intro hc
      exact Or.inr ⟨hc, fun e => hs (e ▸ hc)⟩
    · intro hc
      rcases hc with hc | hc
      · exact absurd hc.2 hs
      · exact hc.1
  moved := by rw [World.slot_eq_none fresh, h, Option.map_none]
  slots _ _ _ _ := rfl
  kept _ hlv _ := hlv

theorem World.Renamed.of_exec (nodup : w.names.keys.Nodup)
    (plain : (Status.empty (.known id)).Plain) (fresh : (k, .empty (.known id)) ∉ w.names.keys)
    (hr : w.slot k s = some r) (h : w.exec (renameStep k r (.empty (.known id))) = some w') :
    w.Renamed w' k s id := by
  rcases World.slot_spec hr with ⟨hkind, _, _, hkey⟩
  rcases Names.exec_lvrename nodup (World.slot_id_mem hr) hkey plain fresh with
    ⟨n, hn, _, hnodup, hkeys, hesp⟩
  have hnames : w'.names = n := by
    have hmap := World.names_exec w (renameStep k r (.empty (.known id)))
    rw [h] at hmap
    exact Option.some.inj (hmap.trans hn)
  rw [← hnames] at hnodup hkeys hesp
  have hold : (k, s) ∈ w.names.keys := World.slot_isSome.mp (Option.isSome_of_mem hr)
  have hrun : w.execAll [renameStep k r (.empty (.known id))] = some w' := run_cons_of_some _ h
  constructor
  · exact hesp
  · exact hnodup
  · intro c
    rw [hkeys]
    exact or_congr_left (and_iff_left hold).symm
  · rcases World.lv_of_slot hr with ⟨lv, hlv, hvol⟩
    have hmem := World.lv_mem_rename h hlv (by rw [hvol]; rfl)
    rw [World.slot_of_lv hnodup hmem (nameKey_displayName plain), hr, hvol, ← hkind]
    rfl
  · intro k' u hs hid
    refine World.slot_execAll hnodup hrun ?_ ?_
    · intro hu
      rcases (hkeys _).mp hu with hu | hu
      · exact absurd hu hid
      · exact hu.1
    · intro step hstep lv hop hlv
      rw [List.mem_singleton.mp hstep] at hop
      rcases operands_renameStep hkey plain lv hop with hu | hu
      · exact hs (Option.some.inj (hlv.symm.trans hu))
      · exact hid (Option.some.inj (hlv.symm.trans hu))
  · intro lv hlv hne
    refine World.lv_mem_rename_of_ne h hlv fun hid => hne ?_
    rw [hid]
    exact hkey

theorem World.Renamed.of_execAll (nodup : w.names.keys.Nodup)
    (plain : (Status.empty (.known id)).Plain) (fresh : (k, .empty (.known id)) ∉ w.names.keys)
    (h : w.execAll (Plan.renameToEmpty k.display id (w.slot k s)) = some w') :
    w.Renamed w' k s id := by
  cases hr : w.slot k s with
  | none =>
      rw [hr] at h
      cases h
      exact World.Renamed.refl nodup fresh hr
  | some r =>
      rw [hr, renameToEmpty_some] at h
      rcases run_cons_eq_some.mp h with ⟨w₁, h₁, hnil⟩
      cases hnil
      exact World.Renamed.of_exec nodup plain fresh hr h₁

end Rename

/-- `w'` is `w` after the volumes of status `s` were renamed to the empty identifier. -/
structure World.Emptied (w w' : World) (s : Status) (id : String) : Prop where
  nodup : w'.names.keys.Nodup
  keys : ∀ k u, (k, u) ∈ w'.names.keys ↔
    (u = .empty (.known id) ∧ (k, s) ∈ w.names.keys) ∨ ((k, u) ∈ w.names.keys ∧ u ≠ s)
  moved : ∀ k, w'.slot k (.empty (.known id)) = (w.slot k s).map (·.emptied id)
  slots : ∀ k u, u ≠ s → u ≠ .empty (.known id) → w'.slot k u = w.slot k u
  kept : ∀ lv ∈ w.lvs, (∀ k, nameKey lv.volume.id ≠ some (k, s)) → lv ∈ w'.lvs

section Renames

variable {w w₁ w' : World} {s : Status} {id : String}

theorem World.Renamed.trans (first : w.Renamed w₁ .root s id)
    (second : w₁.Renamed w' .verity s id) : w.Emptied w' s id where
  nodup := second.nodup
  keys := by
    intro k u
    rw [second.keys, first.keys, first.keys]
    cases k <;> simp
  moved := by
    intro k
    cases k with
    | root => rw [second.slots .root _ (by simp) (by simp), first.moved]
    | verity => rw [second.moved, first.slots .verity s (by simp) (by simp)]
  slots := by
    intro k u hu hid
    rw [second.slots k u (by simp [hu]) (by simp [hid]),
      first.slots k u (by simp [hu]) (by simp [hid])]
  kept := by
    intro lv hlv hkey
    exact second.kept lv (first.kept lv hlv (hkey .root)) (hkey .verity)

theorem World.Emptied.of_lvs (hlvs : w₁.lvs = w.lvs) (h : w₁.Emptied w' s id) :
    w.Emptied w' s id := by
  have hkeys := World.keys_congr hlvs
  have hslot := World.slot_congr hlvs
  constructor
  · exact h.nodup
  · intro k u
    rw [h.keys, hkeys]
  · intro k
    rw [h.moved, hslot]
  · intro k u hu hid
    rw [h.slots k u hu hid, hslot]
  · intro lv hlv hkey
    exact h.kept lv (hlvs ▸ hlv) hkey

theorem World.Emptied.of_renames (nodup : w.names.keys.Nodup)
    (plain : (Status.empty (.known id)).Plain)
    (fresh : ∀ k, (k, .empty (.known id)) ∉ w.names.keys)
    (h : w.execAll (Plan.renameSlotToEmpty (w.group s) id) = some w') :
    w.Emptied w' s id ∧ w'.esp = w.esp := by
  rw [World.execAll, Plan.renameSlotToEmpty, run_append] at h
  rcases Option.bind_eq_some_iff.mp h with ⟨w₁, h₁, h₂⟩
  have first : w.Renamed w₁ .root s id :=
    World.Renamed.of_execAll nodup plain (fresh .root) h₁
  have hfresh : (Kind.verity, Status.empty (.known id)) ∉ w₁.names.keys := by
    intro hk
    rcases (first.keys _).mp hk with hk | hk
    · cases hk.1
    · exact fresh .verity hk.1
  have hverity : w₁.slot .verity s = (w.group s).verity :=
    first.slots .verity s (by simp) (by simp)
  rw [← hverity] at h₂
  have second : w₁.Renamed w' .verity s id :=
    World.Renamed.of_execAll first.nodup plain hfresh h₂
  exact ⟨first.trans second, second.esp.trans first.esp⟩

theorem World.Emptied.of_removal {ids : List String} (nodup : w.names.keys.Nodup)
    (plain : (Status.empty (.known id)).Plain)
    (fresh : ∀ k, (k, .empty (.known id)) ∉ w.names.keys)
    (h : w.execAll (ids.map Step.unlink ++ Plan.renameSlotToEmpty (w.group s) id) = some w') :
    w.Emptied w' s id ∧
      ∀ item, item ∈ w'.esp.items ↔ item ∈ w.esp.items ∧ item.id ∉ ids := by
  rw [World.execAll, run_append] at h
  rcases Option.bind_eq_some_iff.mp h with ⟨w₁, h₁, h₂⟩
  have hlvs := World.lvs_unlink h₁
  have hkeys := World.keys_congr hlvs
  have hsteps : Plan.renameSlotToEmpty (w₁.group s) id = Plan.renameSlotToEmpty (w.group s) id :=
    congrArg₂ (fun r t => Plan.renameToEmpty "root" id r ++ Plan.renameToEmpty "verity" id t)
      (World.slot_congr hlvs .root s) (World.slot_congr hlvs .verity s)
  rw [← hsteps] at h₂
  rcases World.Emptied.of_renames (hkeys ▸ nodup) plain (hkeys ▸ fresh) h₂ with ⟨hemptied, hesp⟩
  refine ⟨hemptied.of_lvs hlvs, fun item => ?_⟩
  rw [hesp]
  exact Names.items_unlink (World.names_of_execAll h₁)

end Renames

end GhafGivc.Image
