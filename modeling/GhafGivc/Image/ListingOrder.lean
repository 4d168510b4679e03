import GhafGivc.Image.Listing

/-! # The order of a listing

`lvs` and `bootctl` promise no order. A slot opens the group that the next slot of its
status joins, and the second UKI of a row is the one that fails, so the order decides
which branch each entry takes. What the runtime answers does not depend on it.
-/

namespace GhafGivc.Image

open Core SlotGroup

namespace SlotGroup

variable {slots slots' : List Slot} {boots boots' : List BootEntry}

theorem slotFor_of_perm (nodup : (slots.map Slot.key).Nodup) (h : slots.Perm slots') (k : Kind)
    (s : Status) : slotFor slots' k s = slotFor slots k s :=
  find?_key_of_perm nodup h.symm (k, s)

theorem isOrphan_of_perm (h : slots.Perm slots') : isOrphan slots' = isOrphan slots := by
  funext b
  rw [isOrphan, isOrphan, h.any_eq]

theorem claimed_of_perm (h : slots.Perm slots') (hb : boots.Perm boots') :
    (claimed slots boots).Perm (claimed slots' boots') := by
  rw [claimed, claimed, isOrphan_of_perm h]
  exact hb.filter _

theorem clashing_iff_of_perm (h : slots.Perm slots') (hb : boots.Perm boots') :
    Clashing slots boots ↔ Clashing slots' boots' := by
  rw [← not_iff_not, not_clashing_iff, not_clashing_iff, (h.map Slot.key).nodup_iff,
    ((claimed_of_perm h hb).map BootEntry.version).nodup_iff]

theorem statuses_of_perm (h : slots.Perm slots') :
    (statuses slots).Perm (statuses slots') := by
  apply (List.perm_ext_iff_of_nodup (nodup_statuses slots) (nodup_statuses slots')).mpr
  intro s
  simp only [mem_statuses, h.mem_iff]

theorem bootFor_of_perm (managed : ∀ b ∈ boots, b.isManaged = true)
    (nodup : ((claimed slots boots).map BootEntry.version).Nodup) (h : slots.Perm slots')
    (hb : boots.Perm boots') (s : Status) : bootFor slots' boots' s = bootFor slots boots s := by
  have hclaimed := claimed_of_perm h hb
  have managed' : ∀ b ∈ boots', b.isManaged = true := fun b hm => managed b (hb.mem_iff.mpr hm)
  have nodup' := (hclaimed.map BootEntry.version).nodup_iff.mp nodup
  apply Option.ext
  intro b
  rw [bootFor_eq_some_iff managed' nodup', bootFor_eq_some_iff managed nodup, hclaimed.mem_iff]

theorem view_of_perm (managed : ∀ b ∈ boots, b.isManaged = true) (hclash : ¬ Clashing slots boots)
    (h : slots.Perm slots') (hb : boots.Perm boots') :
    (view slots boots).Perm (view slots' boots') := by
  have hnodup := not_clashing_iff.mp hclash
  have hrow : row slots' boots' = row slots boots := by
    funext s
    rw [row, row, slotFor_of_perm hnodup.1 h, slotFor_of_perm hnodup.1 h,
      bootFor_of_perm managed hnodup.2 h hb]
  rw [view, view, hrow, isOrphan_of_perm h]
  exact ((statuses_of_perm h).map _).append ((hb.filter _).map _)

end SlotGroup

namespace Runtime

variable {rt rt' : Runtime}

theorem findExactOneGroup_of_perm (h : rt.slotgroups.Perm rt'.slotgroups) (p : SlotGroup → Bool)
    (reason : String) : rt.findExactOneGroup p reason = rt'.findExactOneGroup p reason := by
  have hfilter := h.filter p
  unfold findExactOneGroup
  split
  · rename_i hnil
    rw [hnil] at hfilter
    rw [hfilter.symm.eq_nil]
  · rename_i g hone
    rw [hone] at hfilter
    rw [List.perm_singleton.mp hfilter.symm]
  · rename_i hmany
    rw [hmany] at hfilter
    have hlength := hfilter.length_eq
    split
    · rename_i hnil
      simp [hnil] at hlength
    · rename_i g hone
      simp [hone] at hlength
    · rfl

theorem findSlotGroup_of_perm (h : rt.slotgroups.Perm rt'.slotgroups) (v : Version) :
    rt.findSlotGroup v = rt'.findSlotGroup v := by
  unfold findSlotGroup
  simp only [findExactOneGroup_of_perm h]

theorem activeSlot_of_perm (h : rt.slotgroups.Perm rt'.slotgroups) (hk : rt.kernel = rt'.kernel) :
    rt.activeSlot = rt'.activeSlot := by
  unfold activeSlot
  rw [hk, findExactOneGroup_of_perm h]

theorem hasEmptyWithHash_of_perm (h : rt.slotgroups.Perm rt'.slotgroups) (hash : String) :
    rt.hasEmptyWithHash hash = rt'.hasEmptyWithHash hash :=
  h.any_eq

theorem allocateEmptyIdentifier_of_perm (h : rt.slotgroups.Perm rt'.slotgroups) :
    rt.allocateEmptyIdentifier = rt'.allocateEmptyIdentifier := by
  have hused := h.filterMap SlotGroup.emptyId
  have hcontains : ∀ c : String, (rt.slotgroups.filterMap SlotGroup.emptyId).contains c =
      (rt'.slotgroups.filterMap SlotGroup.emptyId).contains c := by
    intro c
    rw [Bool.eq_iff_iff, List.contains_iff_mem, List.contains_iff_mem, hused.mem_iff]
  unfold allocateEmptyIdentifier
  simp only [hcontains]

end Runtime

/-- The runtime answers alike for every order of the two listings. -/
theorem runtime_of_perm {volumes volumes' : List Volume} {items items' : List BootctlItem}
    (hv : volumes.Perm volumes') (hi : items.Perm items') (cmdline : String) :
    ((∃ rt, Runtime.new volumes cmdline items = .ok rt) ↔
        ∃ rt', Runtime.new volumes' cmdline items' = .ok rt') ∧
      ∀ rt rt', Runtime.new volumes cmdline items = .ok rt →
        Runtime.new volumes' cmdline items' = .ok rt' →
          rt.slotgroups.Perm rt'.slotgroups ∧ rt.activeSlot = rt'.activeSlot ∧
            (∀ v, rt.findSlotGroup v = rt'.findSlotGroup v) ∧
            (∀ hash, rt.hasEmptyWithHash hash = rt'.hasEmptyWithHash hash) ∧
            rt.allocateEmptyIdentifier = rt'.allocateEmptyIdentifier := by
  have hslots := hv.filterMap Slot.ofVolume
  rw [← Slot.fromVolumes_fst, ← Slot.fromVolumes_fst] at hslots
  have hukis : (BootEntry.ukis items).Perm (BootEntry.ukis items') :=
    (hi.filterMap BootEntry.ofItem).filter BootEntry.isManaged
  constructor
  · simp only [Runtime.new_eq_ok_iff, clashing_iff_of_perm hslots hukis]
    constructor
    · intro h
      rcases h with ⟨_, hclash, kernel, hkernel, _⟩
      exact ⟨_, hclash, kernel, hkernel, rfl⟩
    · intro h
      rcases h with ⟨_, hclash, kernel, hkernel, _⟩
      exact ⟨_, hclash, kernel, hkernel, rfl⟩
  · intro rt rt' hrt hrt'
    rcases Runtime.new_eq_ok_iff.mp hrt with ⟨hclash, kernel, hkernel, rfl⟩
    rcases Runtime.new_eq_ok_iff.mp hrt' with ⟨_, kernel', hkernel', rfl⟩
    have hk : kernel = kernel' := Outcome.ok.inj (hkernel.symm.trans hkernel')
    have hgroups := view_of_perm (BootEntry.isManaged_of_mem_ukis items) hclash hslots hukis
    exact ⟨hgroups, Runtime.activeSlot_of_perm hgroups hk, Runtime.findSlotGroup_of_perm hgroups,
      Runtime.hasEmptyWithHash_of_perm hgroups, Runtime.allocateEmptyIdentifier_of_perm hgroups⟩

def mixedVolumes : List Volume :=
  ["persist", "root_0", "root_empty", "verity_0", "verity_empty"].map fun name =>
    ⟨name, "pool", some 5⟩

def mixedItems : List BootctlItem :=
  [⟨"type1", "nixos-generation-1.conf"⟩, ⟨"type2", "ghaf-25.12.1-44cc41b403a2d323.efi"⟩]

def mixedRuntime : Runtime := Runtime.listed mixedVolumes mixedItems legacyKernel

def reversedRuntime : Runtime :=
  Runtime.listed mixedVolumes.reverse mixedItems.reverse legacyKernel

theorem mixed_samples :
    Runtime.new mixedVolumes "quiet" mixedItems = .ok mixedRuntime ∧
      Runtime.new mixedVolumes.reverse "quiet" mixedItems.reverse = .ok reversedRuntime := by
  decide +kernel

theorem runtime_of_perm_mixed :
    mixedRuntime.slotgroups.Perm reversedRuntime.slotgroups ∧
      mixedRuntime.activeSlot = reversedRuntime.activeSlot := by
  have hperm := runtime_of_perm (List.reverse_perm mixedVolumes).symm
    (List.reverse_perm mixedItems).symm "quiet"
  rcases hperm.2 _ _ mixed_samples.1 mixed_samples.2 with ⟨hgroups, hactive, _⟩
  exact ⟨hgroups, hactive⟩

end GhafGivc.Image
