import GhafGivc.Image.Group

/-! # What grouping computes

The loops of `groupVolumes` are replaced by a table: one row for every status in
order of first appearance, then one group for every UKI that no root volume
carries the version of. Grouping fails exactly when two slots agree in kind and
status or two UKIs belong to one row.
-/

namespace GhafGivc.Image

open Core

/-- What a slot name stores. -/
def Slot.key (s : Slot) : Kind × Status := (s.kind, s.status)

/-- Activity of a group, read from the status of its volumes. -/
def Status.isActive (s : Status) (kernel : KernelParams) : Bool :=
  match s.version, kernel.toVersion with
  | some slotV, some kernelV => slotV = kernelV
  | some _, none => s.isLegacy
  | none, _ => false

variable {s : Status}

theorem Status.eq_used_of_version {v : Version} (h : s.version = some v) : s = .used v := by
  cases s with
  | used w => simpa [version] using h
  | empty e => simp [version] at h

theorem Status.eq_empty_of_emptyId {id : String} (h : s.emptyId = some id) :
    s = .empty (.known id) := by
  cases s with
  | used v => cases h
  | empty e =>
      cases e with
      | known i => rw [Option.some.inj h]
      | legacy => cases h

theorem Status.version_of_isEmpty (h : s.isEmpty = true) : s.version = none := by
  cases s with
  | used v => simp [isEmpty] at h
  | empty e => rfl

theorem Status.isActive_of_isEmpty {kernel : KernelParams} (h : s.isEmpty = true) :
    s.isActive kernel = false := by
  cases s with
  | used v => simp [isEmpty] at h
  | empty e => rfl

namespace SlotGroup

def slotFor (slots : List Slot) (k : Kind) (s : Status) : Option Slot :=
  slots.find? fun t => t.key = (k, s)

def statuses (slots : List Slot) : List Status := (slots.map Slot.status).eraseDups

def bootFor (slots : List Slot) (boots : List BootEntry) (s : Status) : Option BootEntry :=
  if (slotFor slots .root s).isSome then boots.find? fun b => b.version = s.version else none

def row (slots : List Slot) (boots : List BootEntry) (s : Status) : SlotGroup :=
  ⟨slotFor slots .root s, slotFor slots .verity s, bootFor slots boots s⟩

/-- No root volume carries the version of the UKI. -/
def isOrphan (slots : List Slot) (b : BootEntry) : Bool :=
  !slots.any fun s => s.kind = .root && s.version = b.version

def orphan (b : BootEntry) : SlotGroup := ⟨none, none, some b⟩

/-- The groups of a volume list and a UKI list, without the loops. -/
def view (slots : List Slot) (boots : List BootEntry) : List SlotGroup :=
  (statuses slots).map (row slots boots) ++ (boots.filter (isOrphan slots)).map orphan

section Rows

variable {slots : List Slot} {boots : List BootEntry} {k : Kind} {s : Status} {t : Slot}

theorem slotFor_spec (h : slotFor slots k s = some t) :
    t ∈ slots ∧ t.kind = k ∧ t.status = s := by
  have hkey : t.key = (k, s) := by simpa using List.find?_some h
  exact ⟨List.mem_of_find?_eq_some h, congrArg Prod.fst hkey, congrArg Prod.snd hkey⟩

theorem slotFor_isSome_of_mem (h : t ∈ slots) : (slotFor slots t.kind t.status).isSome := by
  rw [slotFor, List.find?_isSome]
  exact ⟨t, h, by simp [Slot.key]⟩

theorem slotFor_eq_none (h : (k, s) ∉ slots.map Slot.key) : slotFor slots k s = none := by
  rw [slotFor, List.find?_eq_none]
  intro t ht hk
  exact h (List.mem_map.mpr ⟨t, ht, by simpa using hk⟩)

theorem slotFor_isSome_iff :
    (slotFor slots k s).isSome = true ↔ (k, s) ∈ slots.map Slot.key := by
  rw [slotFor, List.find?_isSome, List.mem_map]
  simp

theorem slotFor_of_mem (nodup : (slots.map Slot.key).Nodup) (h : t ∈ slots) :
    slotFor slots t.kind t.status = some t :=
  (find?_key_eq_some_iff nodup).mpr ⟨h, rfl⟩

theorem slotFor_concat (u : Slot) :
    slotFor (slots ++ [u]) k s =
      (slotFor slots k s).or (if u.key = (k, s) then some u else none) := by
  rw [slotFor, List.find?_append]
  congr 1
  by_cases h : u.key = (k, s) <;> simp [h]

theorem mem_statuses : s ∈ statuses slots ↔ ∃ t ∈ slots, t.status = s := by
  simp [statuses]

theorem nodup_statuses (slots : List Slot) : (statuses slots).Nodup := nodup_eraseDups _

theorem mem_statuses_iff_key : s ∈ statuses slots ↔ ∃ k, (k, s) ∈ slots.map Slot.key := by
  rw [mem_statuses]
  constructor
  · rintro ⟨t, ht, rfl⟩
    exact ⟨t.kind, List.mem_map.mpr ⟨t, ht, rfl⟩⟩
  · rintro ⟨k, hk⟩
    obtain ⟨t, ht, htk⟩ := List.mem_map.mp hk
    exact ⟨t, ht, congrArg Prod.snd htk⟩

@[simp] theorem bootFor_nil : bootFor slots [] s = none := by
  simp [bootFor]

end Rows

section Slots

variable {done : List Slot} {slot : Slot} {groups : List SlotGroup}

theorem matchesSlot_row {j : Status} (boots : List BootEntry) (hj : j ∈ statuses done) :
    (row done boots j).matchesSlot slot = decide (j = slot.status) := by
  have hany : ∀ k, (slotFor done k j).any (·.matchesSlot slot) =
      ((slotFor done k j).isSome && decide (j = slot.status)) := by
    intro k
    cases h : slotFor done k j with
    | none => rfl
    | some t => simp [Slot.matchesSlot, (slotFor_spec h).2.2]
  obtain ⟨t, ht, rfl⟩ := mem_statuses.mp hj
  have hsome := slotFor_isSome_of_mem ht
  simp only [matchesSlot, row, hany]
  cases hk : t.kind <;> simp [hk] at hsome <;> simp [hsome]

theorem row_eq_empty (h : slot.status ∉ statuses done) :
    row done [] slot.status = ⟨none, none, none⟩ := by
  have hnone : ∀ k, slotFor done k slot.status = none := fun k =>
    slotFor_eq_none fun hk => h (mem_statuses_iff_key.mpr ⟨k, hk⟩)
  simp [row, hnone]

theorem attachSlot_row (h : slot.key ∉ done.map Slot.key) :
    (row done [] slot.status).attachSlot slot = .ok (row (done ++ [slot]) [] slot.status) := by
  have hnone := slotFor_eq_none h
  cases hk : slot.kind with
  | root =>
      rw [hk] at hnone
      simp [attachSlot, hk, row, hnone, Outcome.ensure, slotFor_concat, Slot.key]
  | verity =>
      rw [hk] at hnone
      simp [attachSlot, hk, row, hnone, Outcome.ensure, slotFor_concat, Slot.key]

theorem row_concat_of_ne {j : Status} (h : j ≠ slot.status) :
    row (done ++ [slot]) [] j = row done [] j := by
  have hne : ∀ k, slot.key ≠ (k, j) := fun k e => h (congrArg Prod.snd e).symm
  simp [row, slotFor_concat, hne]

theorem placeSlot_view (h : slot.key ∉ done.map Slot.key) :
    placeSlot (view done []) slot = .ok (view (done ++ [slot]) []) := by
  simp only [view, List.filter_nil, List.map_nil, List.append_nil]
  by_cases hs : slot.status ∈ statuses done
  · have hst : statuses (done ++ [slot]) = statuses done := by
      have : slot.status ∈ done.map Slot.status := by simpa [statuses] using hs
      simp [statuses, eraseDups_concat_of_mem this]
    rw [placeSlot, upsert_map_of_mem (nodup_statuses done) hs
      (fun j hj => matchesSlot_row [] hj), attachSlot_row h, hst]
    simp only [Outcome.ok_bind, Outcome.pure_eq, Outcome.ok.injEq]
    apply List.map_congr_left
    intro j _
    by_cases hj : j = slot.status
    · simp [hj]
    · simp [Function.update, hj, row_concat_of_ne hj]
  · have hst : statuses (done ++ [slot]) = statuses done ++ [slot.status] := by
      have : slot.status ∉ done.map Slot.status := by simpa [statuses] using hs
      simp [statuses, eraseDups_concat_of_notMem this]
    have hnew := attachSlot_row h
    rw [row_eq_empty hs] at hnew
    rw [placeSlot, upsert_of_forall_not _ hnew, hst]
    · simp only [List.map_append, List.map_cons, List.map_nil, Outcome.ok.injEq,
        List.append_cancel_right_eq]
      apply List.map_congr_left
      intro j hj
      exact (row_concat_of_ne fun e => hs (e ▸ hj)).symm
    · intro g hg
      obtain ⟨j, hj, rfl⟩ := List.mem_map.mp hg
      rw [matchesSlot_row [] hj]
      exact decide_eq_false fun e => hs (e ▸ hj)

theorem placeSlot_view_clash (h : placeSlot (view done []) slot = .ok groups) :
    slot.key ∉ done.map Slot.key := by
  intro hmem
  have hs : slot.status ∈ statuses done := mem_statuses_iff_key.mpr ⟨slot.kind, hmem⟩
  have hsome := slotFor_isSome_iff.mpr hmem
  rw [view, List.filter_nil, List.map_nil, List.append_nil, placeSlot,
    upsert_map_of_mem (nodup_statuses done) hs (fun j hj => matchesSlot_row [] hj)] at h
  obtain ⟨g, hg, _⟩ := Outcome.bind_eq_ok.mp h
  obtain ⟨u, hu⟩ := Option.isSome_iff_exists.mp hsome
  cases hk : slot.kind with
  | root =>
      rw [hk] at hu
      simp [attachSlot, hk, row, hu, Outcome.ensure] at hg
  | verity =>
      rw [hk] at hu
      simp [attachSlot, hk, row, hu, Outcome.ensure] at hg

theorem foldlM_placeSlot {slots : List Slot} :
    slots.foldlM placeSlot [] = .ok groups ↔
      (slots.map Slot.key).Nodup ∧ groups = view slots [] := by
  refine Outcome.foldlM_eq_ok_iff (fun l => view l []) (fun l => (l.map Slot.key).Nodup)
    (fun _ => True) ?_ ?_ ?_ [] List.nodup_nil (fun _ _ => trivial)
  · intro done rest h
    rw [List.map_append] at h
    exact h.of_append_left
  · intro done a _ h
    apply placeSlot_view
    rw [List.map_append, List.nodup_append] at h
    exact fun hm => h.2.2 _ hm _ (by simp) rfl
  · intro done a groups _ hdone h
    have hnew := placeSlot_view_clash h
    rw [List.map_append, List.nodup_append]
    refine ⟨hdone, by simp, ?_⟩
    rintro x hx y hy rfl
    rw [List.map_cons, List.map_nil, List.mem_singleton] at hy
    exact hnew (hy ▸ hx)

end Slots

section Boots

variable {slots : List Slot} {done : List BootEntry} {b : BootEntry} {v : Version}
  {groups : List SlotGroup}

theorem isOrphan_eq_false_iff (hb : b.version = some v) :
    isOrphan slots b = false ↔ (Kind.root, Status.used v) ∈ slots.map Slot.key := by
  simp only [isOrphan, Bool.not_eq_false', List.any_eq_true, List.mem_map, Bool.and_eq_true,
    decide_eq_true_eq, hb]
  constructor
  · rintro ⟨t, ht, hk, hv⟩
    exact ⟨t, ht, by simp [Slot.key, hk, Status.eq_used_of_version hv]⟩
  · rintro ⟨t, ht, hk⟩
    obtain ⟨hk, hs⟩ := Prod.mk.inj hk
    exact ⟨t, ht, hk, by simp [Slot.version, hs, Status.version]⟩

theorem matchesBoot_row (j : Status) :
    (row slots done j).matchesBoot b =
      ((slotFor slots .root j).isSome && decide (j.version = b.version)) := by
  cases hr : slotFor slots .root j with
  | none => simp [matchesBoot, row, hr]
  | some r =>
      have hrs := (slotFor_spec hr).2.2
      cases hv : slotFor slots .verity j with
      | none => simp [matchesBoot, row, hr, hv, Slot.version, hrs]
      | some w =>
          have hws := (slotFor_spec hv).2.2
          simp [matchesBoot, row, hr, hv, Slot.version, hrs, hws]

theorem row_concat_boot {j : Status}
    (h : (slotFor slots .root j).isSome = false ∨ j.version ≠ b.version) :
    row slots (done ++ [b]) j = row slots done j := by
  simp only [row, bootFor]
  rcases h with h | h
  · simp [h]
  · simp [List.find?_append, Ne.symm h]

theorem placeBoot_view_orphan (hb : b.version = some v) (ho : isOrphan slots b = true) :
    placeBoot (view slots done) b = .ok (view slots (done ++ [b])) := by
  have hroot : ∀ j, (slotFor slots .root j).isSome = false ∨ j.version ≠ b.version := by
    intro j
    by_cases hj : j.version = b.version
    · left
      rw [hb] at hj
      have hkey : (Kind.root, j) ∉ slots.map Slot.key := by
        rw [Status.eq_used_of_version hj]
        intro hm
        rw [(isOrphan_eq_false_iff hb).mpr hm] at ho
        cases ho
      rw [slotFor_eq_none hkey]
      rfl
    · exact Or.inr hj
  have hnew : (.ok ⟨none, none, some b⟩ : Outcome String SlotGroup) = .ok (orphan b) := rfl
  rw [placeBoot, upsert_of_forall_not _ hnew]
  · simp only [view, List.filter_append, List.map_append, ho, List.filter_cons, if_true,
      List.filter_nil, List.map_cons, List.map_nil, ← List.append_assoc, Outcome.ok.injEq]
    congr 2
    apply List.map_congr_left
    intro j _
    exact (row_concat_boot (hroot j)).symm
  · intro g hg
    rcases List.mem_append.mp hg with hg | hg
    · obtain ⟨j, _, rfl⟩ := List.mem_map.mp hg
      rw [matchesBoot_row]
      rcases hroot j with h | h <;> simp [h]
    · obtain ⟨c, _, rfl⟩ := List.mem_map.mp hg
      rfl

theorem matchesBoot_row_used {j : Status} (hb : b.version = some v)
    (ho : isOrphan slots b = false) :
    (row slots done j).matchesBoot b = decide (j = .used v) := by
  have hroot := slotFor_isSome_iff.mpr ((isOrphan_eq_false_iff hb).mp ho)
  rw [matchesBoot_row, hb]
  by_cases hj : j = .used v
  · subst hj
    simp [hroot, Status.version]
  · have hne : j.version ≠ some v := fun h => hj (Status.eq_used_of_version h)
    simp [hj, hne]

/-- With a root volume of its version present, a UKI goes to that row or fails. -/
theorem placeBoot_view_attach (hb : b.version = some v) (ho : isOrphan slots b = false) :
    placeBoot (view slots done) b =
      ((row slots done (.used v)).attachBoot b >>= fun g =>
        pure ((statuses slots).map (Function.update (row slots done) (.used v) g) ++
          (done.filter (isOrphan slots)).map orphan)) := by
  have hkey := (isOrphan_eq_false_iff hb).mp ho
  have hmem : Status.used v ∈ statuses slots := mem_statuses_iff_key.mpr ⟨_, hkey⟩
  have hhit : ∃ g ∈ (statuses slots).map (row slots done), g.matchesBoot b = true :=
    ⟨_, List.mem_map_of_mem hmem, by simp [matchesBoot_row_used hb ho]⟩
  rw [placeBoot, view, upsert_append_left hhit, upsert_map_of_mem (nodup_statuses slots) hmem
    (fun j _ => matchesBoot_row_used hb ho)]
  cases (row slots done (.used v)).attachBoot b <;> rfl

theorem bootFor_used (hb : b.version = some v) (ho : isOrphan slots b = false) :
    bootFor slots done (.used v) = done.find? fun c => c.version = some v := by
  rw [bootFor, if_pos (slotFor_isSome_iff.mpr ((isOrphan_eq_false_iff hb).mp ho))]
  rfl

theorem placeBoot_view_fresh (hb : b.version = some v) (ho : isOrphan slots b = false)
    (hfresh : some v ∉ done.map BootEntry.version) :
    placeBoot (view slots done) b = .ok (view slots (done ++ [b])) := by
  have hnone : (done.find? fun c => c.version = some v) = none := by
    rw [List.find?_eq_none]
    intro c hc hcv
    exact hfresh (List.mem_map.mpr ⟨c, hc, by simpa using hcv⟩)
  have hattach : (row slots done (.used v)).attachBoot b =
      .ok (row slots (done ++ [b]) (.used v)) := by
    simp [attachBoot, row, bootFor_used hb ho, hnone, List.find?_append, hb]
  rw [placeBoot_view_attach hb ho, hattach]
  simp only [Outcome.ok_bind, Outcome.pure_eq, view, List.filter_append, ho, List.filter_cons,
    Bool.false_eq_true, if_false, List.filter_nil, List.append_nil, Outcome.ok.injEq,
    List.append_cancel_right_eq]
  apply List.map_congr_left
  intro j _
  by_cases hj : j = .used v
  · simp [hj]
  · have hne : j.version ≠ b.version := by
      rw [hb]
      exact fun h => hj (Status.eq_used_of_version h)
    simp [Function.update, hj, row_concat_boot (Or.inr hne)]

theorem placeBoot_view_clash (hb : b.version = some v) (ho : isOrphan slots b = false)
    (h : placeBoot (view slots done) b = .ok groups) : some v ∉ done.map BootEntry.version := by
  intro hmem
  obtain ⟨c, hc, hcv⟩ := List.mem_map.mp hmem
  have hsome : (done.find? fun c => c.version = some v).isSome = true :=
    List.find?_isSome.mpr ⟨c, hc, by simp [hcv]⟩
  rw [placeBoot_view_attach hb ho] at h
  simp [attachBoot, row, bootFor_used hb ho, hsome, hb] at h

/-- The UKIs that belong to a row. -/
def claimed (slots : List Slot) (boots : List BootEntry) : List BootEntry :=
  boots.filter fun b => !isOrphan slots b

theorem version_mem_claimed (hb : b.version = some v) (ho : isOrphan slots b = false) :
    some v ∈ (claimed slots done).map BootEntry.version ↔
      some v ∈ done.map BootEntry.version := by
  simp only [claimed, List.mem_map, List.mem_filter, Bool.not_eq_true']
  constructor
  · rintro ⟨c, ⟨hc, _⟩, hcv⟩
    exact ⟨c, hc, hcv⟩
  · rintro ⟨c, hc, hcv⟩
    exact ⟨c, ⟨hc, (isOrphan_eq_false_iff hcv).mpr ((isOrphan_eq_false_iff hb).mp ho)⟩, hcv⟩

theorem claimed_concat_nodup_iff (hb : b.version = some v) (ho : isOrphan slots b = false) :
    ((claimed slots (done ++ [b])).map BootEntry.version).Nodup ↔
      ((claimed slots done).map BootEntry.version).Nodup ∧
        some v ∉ done.map BootEntry.version := by
  rw [← version_mem_claimed hb ho]
  simp only [claimed, List.filter_append, List.filter_cons, ho, Bool.not_false, if_true,
    List.filter_nil, List.map_append, List.map_cons, List.map_nil, hb]
  rw [List.nodup_append]
  simp only [List.nodup_singleton, List.mem_singleton, true_and]
  constructor
  · rintro ⟨hn, hd⟩
    exact ⟨hn, fun hm => hd _ hm _ rfl rfl⟩
  · rintro ⟨hn, hd⟩
    refine ⟨hn, ?_⟩
    rintro x hx y rfl rfl
    exact hd hx

theorem claimed_concat_orphan (ho : isOrphan slots b = true) :
    claimed slots (done ++ [b]) = claimed slots done := by
  simp [claimed, ho]

theorem foldlM_placeBoot {boots : List BootEntry} (managed : ∀ b ∈ boots, b.isManaged = true) :
    boots.foldlM placeBoot (view slots []) = .ok groups ↔
      ((claimed slots boots).map BootEntry.version).Nodup ∧ groups = view slots boots := by
  refine Outcome.foldlM_eq_ok_iff (view slots)
    (fun l => ((claimed slots l).map BootEntry.version).Nodup)
    (fun b => b.isManaged = true) ?_ ?_ ?_ [] List.nodup_nil managed
  · intro done rest h
    simp only [claimed, List.filter_append, List.map_append] at h
    exact h.of_append_left
  · intro done b hb h
    obtain ⟨v, hv⟩ := BootEntry.version_isSome_of_isManaged hb
    cases ho : isOrphan slots b with
    | true => exact placeBoot_view_orphan hv ho
    | false => exact placeBoot_view_fresh hv ho ((claimed_concat_nodup_iff hv ho).mp h).2
  · intro done b groups hb hdone h
    obtain ⟨v, hv⟩ := BootEntry.version_isSome_of_isManaged hb
    cases ho : isOrphan slots b with
    | true => simpa [claimed_concat_orphan ho] using hdone
    | false =>
        exact (claimed_concat_nodup_iff hv ho).mpr ⟨hdone, placeBoot_view_clash hv ho h⟩

end Boots

/-- Grouping succeeds exactly on clash-free slots with at most one UKI a row, and
then computes the table. -/
theorem groupVolumes_eq_ok_iff {slots : List Slot} {boots : List BootEntry}
    {groups : List SlotGroup} (managed : ∀ b ∈ boots, b.isManaged = true) :
    groupVolumes slots boots = .ok groups ↔
      (slots.map Slot.key).Nodup ∧ ((claimed slots boots).map BootEntry.version).Nodup ∧
        groups = view slots boots := by
  rw [groupVolumes, Outcome.bind_eq_ok]
  constructor
  · rintro ⟨gs, hs, hb⟩
    obtain ⟨hnodup, rfl⟩ := foldlM_placeSlot.mp hs
    exact ⟨hnodup, (foldlM_placeBoot managed).mp hb⟩
  · rintro ⟨hnodup, h⟩
    exact ⟨view slots [], foldlM_placeSlot.mpr ⟨hnodup, rfl⟩, (foldlM_placeBoot managed).mpr h⟩

/-! ## Reading a group off its status -/

theorem mem_view {slots : List Slot} {boots : List BootEntry} {g : SlotGroup} :
    g ∈ view slots boots ↔
      (∃ s ∈ statuses slots, row slots boots s = g) ∨
        ∃ b ∈ boots, isOrphan slots b = true ∧ orphan b = g := by
  simp [view, and_assoc]

section Reading

variable {slots : List Slot} {boots : List BootEntry} {s : Status}

theorem row_cases (hs : s ∈ statuses slots) :
    (∃ r, slotFor slots .root s = some r ∧ r.status = s) ∨
      (slotFor slots .root s = none ∧ ∃ t, slotFor slots .verity s = some t ∧ t.status = s) := by
  cases hr : slotFor slots .root s with
  | some r => exact Or.inl ⟨r, rfl, (slotFor_spec hr).2.2⟩
  | none =>
      right
      refine ⟨rfl, ?_⟩
      obtain ⟨k, hk⟩ := mem_statuses_iff_key.mp hs
      have hsome := slotFor_isSome_iff.mpr hk
      cases k with
      | root => simp [hr] at hsome
      | verity =>
          obtain ⟨t, ht⟩ := Option.isSome_iff_exists.mp hsome
          exact ⟨t, ht, (slotFor_spec ht).2.2⟩

theorem version_row (hs : s ∈ statuses slots) : (row slots boots s).version = s.version := by
  rcases row_cases hs with ⟨r, hr, rfl⟩ | ⟨hr, t, ht, rfl⟩
  · simp [version, row, hr, Slot.version]
  · simp [version, row, hr, ht, Slot.version]

theorem emptyId_row (hs : s ∈ statuses slots) : (row slots boots s).emptyId = s.emptyId := by
  rcases row_cases hs with ⟨r, hr, rfl⟩ | ⟨hr, t, ht, rfl⟩
  · simp [emptyId, row, hr, Slot.emptyId]
  · simp [emptyId, row, hr, ht, Slot.emptyId]

theorem isLegacy_row (hs : s ∈ statuses slots) : (row slots boots s).isLegacy = s.isLegacy := by
  rcases row_cases hs with ⟨r, hr, hrs⟩ | ⟨hr, t, ht, hts⟩
  · cases hv : slotFor slots .verity s with
    | none => simp [isLegacy, row, hr, hv, Slot.isLegacy, hrs]
    | some t => simp [isLegacy, row, hr, hv, Slot.isLegacy, hrs, (slotFor_spec hv).2.2]
  · simp [isLegacy, row, hr, ht, Slot.isLegacy, hts]

theorem isEmpty_row (hs : s ∈ statuses slots) : (row slots boots s).isEmpty = s.isEmpty := by
  rcases row_cases hs with ⟨r, hr, hrs⟩ | ⟨hr, t, ht, hts⟩
  · cases hv : slotFor slots .verity s with
    | none => simp [isEmpty, row, hr, hv, Slot.isEmpty, hrs]
    | some t => simp [isEmpty, row, hr, hv, Slot.isEmpty, hrs, (slotFor_spec hv).2.2]
  · simp [isEmpty, row, hr, ht, Slot.isEmpty, hts]

theorem isActive_row (kernel : KernelParams) (hs : s ∈ statuses slots) :
    (row slots boots s).isActive kernel = s.isActive kernel := by
  have hversion : (row slots boots s).version = s.version := version_row hs
  have hlegacy : (row slots boots s).isLegacy = s.isLegacy := isLegacy_row hs
  unfold isActive Status.isActive
  cases hv : s.version <;> cases kernel.toVersion <;> simp only [hversion, hlegacy, hv]

theorem isComplete_row :
    (row slots boots s).isComplete = true ↔
      (Kind.root, s) ∈ slots.map Slot.key ∧ (Kind.verity, s) ∈ slots.map Slot.key := by
  simp only [isComplete, row, Bool.and_eq_true, slotFor_isSome_iff]

theorem bootFor_eq_none_of_isEmpty (managed : ∀ b ∈ boots, b.isManaged = true)
    (hs : s.isEmpty = true) : bootFor slots boots s = none := by
  unfold bootFor
  split
  · rw [List.find?_eq_none]
    intro b hb hv
    obtain ⟨v, hbv⟩ := BootEntry.version_isSome_of_isManaged (managed b hb)
    cases s with
    | used w => simp [Status.isEmpty] at hs
    | empty e => simp [hbv, Status.version] at hv
  · rfl

theorem isUsed_row_of_version {v : Version} (hs : s ∈ statuses slots)
    (hv : s.version = some v) : (row slots boots s).isUsed = true := by
  obtain rfl := Status.eq_used_of_version hv
  rcases row_cases hs with ⟨r, hr, hrs⟩ | ⟨hr, t, ht, hts⟩
  · simp [isUsed, row, hr, Slot.isEmpty, hrs, Status.isEmpty]
  · simp [isUsed, row, hr, ht, Slot.isEmpty, hts, Status.isEmpty]

theorem row_inj {t : Status} (hs : s ∈ statuses slots)
    (h : row slots boots s = row slots boots t) : s = t := by
  have hroot : slotFor slots .root s = slotFor slots .root t := congrArg SlotGroup.root h
  have hverity : slotFor slots .verity s = slotFor slots .verity t := congrArg SlotGroup.verity h
  rcases row_cases hs with ⟨r, hr, rfl⟩ | ⟨_, u, hu, rfl⟩
  · exact (slotFor_spec (hroot ▸ hr)).2.2
  · exact (slotFor_spec (hverity ▸ hu)).2.2

theorem row_ne_orphan {b : BootEntry} : row slots boots s ≠ orphan b := by
  intro h
  have hroot : slotFor slots .root s = none := congrArg SlotGroup.root h
  have hboot : bootFor slots boots s = some b := congrArg SlotGroup.boot h
  simp [bootFor, hroot] at hboot

theorem nodup_view (nodup : boots.Nodup) : (view slots boots).Nodup := by
  rw [view, List.nodup_append]
  refine ⟨?_, ?_, ?_⟩
  · exact (List.nodup_map_iff_inj_on (nodup_statuses slots)).mpr fun a ha b _ => row_inj ha
  · apply (nodup.filter _).map
    intro a b h
    exact Option.some.inj (congrArg SlotGroup.boot h)
  · intro g hg h hh e
    obtain ⟨a, ha, rfl⟩ := List.mem_map.mp hg
    obtain ⟨b, _, rfl⟩ := List.mem_map.mp hh
    exact row_ne_orphan e

end Reading

end SlotGroup

end GhafGivc.Image
