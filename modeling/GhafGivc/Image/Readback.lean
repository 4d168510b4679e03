import GhafGivc.Image.InstallCrash

/-! # Names that an install can read back

Version and verity hash of a manifest are free text. A plan writes them into two
volume names and a UKI file name, from which every later run recovers them.
-/

namespace GhafGivc.Image

open Core Delimited

namespace Step

def renameTarget : Step → Option String
  | lvrename _ _ target => some target
  | _ => none

def ukiTarget : Step → Option String
  | installUki _ boot _ name => some (boot ++ "/EFI/Linux/" ++ name)
  | _ => none

end Step

namespace Plan

/-- The two volume names and the UKI file name of the plan decode to the version. -/
def ReadsBack (plan : Plan) (v : Version) : Prop :=
  (∃ root verity, plan.steps.filterMap Step.renameTarget = [root, verity] ∧
      Slot.decodeStatus root = .ok (.root, .used v) ∧
      Slot.decodeStatus verity = .ok (.verity, .used v)) ∧
    ∃ path name uki, plan.steps.filterMap Step.ukiTarget = [path] ∧ fileName path = some name ∧
      UkiEntry.fromStr (String.ofList name) = .ok uki ∧ uki.version = v

end Plan

/-- Version and hash head are free of every separator, and the version is no
reserved word. -/
def Manifest.Nameable (m : Manifest) : Prop :=
  ∃ head rest, Text.splitAtBytes 16 m.rootVerityHash.toList = some (head, rest) ∧
    (∀ c ∈ ['_', '-', '+', '/'], c ∉ m.version.toList) ∧ m.version ≠ "empty" ∧
    ∀ c ∈ ['_', '+', '/'], c ∉ head

/-! ## File names -/

theorem slash_notMem_fileName {path : String} {name : List Char} (h : fileName path = some name) :
    '/' ∉ name := by
  unfold fileName at h
  split at h
  · cases h
  · rename_i last hlast
    split at h
    · cases h
    · have hmem := List.mem_of_getLast? hlast
      obtain rfl := Option.some.inj h
      exact notMem_of_mem_splitOnP (by simp) _ (List.mem_filter.mp hmem).1

theorem fileName_append (dir : String) {name : String} (hslash : '/' ∉ name.toList)
    (hlen : 2 < name.toList.length) : fileName (dir ++ "/" ++ name) = some name.toList := by
  have hne : name.toList ≠ [] ∧ name.toList ≠ ['.'] ∧ name.toList ≠ ['.', '.'] := by
    refine ⟨?_, ?_, ?_⟩ <;> intro h <;> simp [h] at hlen
  have hparts : (dir ++ "/" ++ name).toList.splitOnP (· = '/') =
      dir.toList.splitOnP (· = '/') ++ [name.toList] := by
    have hpath : (dir ++ "/" ++ name).toList = dir.toList ++ '/' :: name.toList := by simp
    have hname : name.toList.splitOnP (· = '/') = [name.toList] :=
      List.splitOnP_eq_singleton fun c hc => decide_eq_false fun e => hslash (e ▸ hc)
    rw [hpath, List.splitOnP_append_cons _ _ (by simp), hname]
  rw [fileName, hparts, List.filter_append]
  simp [hne]

theorem UkiEntry.mem_of_fromStr {name : String} {u : UkiEntry} (h : fromStr name = .ok u) {c : Char}
    (hc : c ∈ u.version.revision.toList ∨ ∃ x ∈ u.version.hash, c ∈ x.toList) :
    c ∈ name.toList := by
  obtain ⟨stem, core, version, hash, hname, hcore, hsplit, _, hv⟩ := fromStr_eq_ok.mp h
  have hmem : c ∈ core := by
    rw [(splitOnce_eq_some.mp hsplit).1]
    rw [hv] at hc
    simp at hc
    simp [hc.imp id Or.inr]
  have hstem : c ∈ stem := by
    unfold splitCounter at hcore
    split at hcore
    · rename_i left right hl
      obtain ⟨_, _, hp⟩ := Outcome.bind_eq_ok.mp hcore
      rw [(rsplitOnce_eq_some.mp hl).1]
      obtain rfl : left = core := (Prod.mk.inj (Outcome.ok.inj hp)).1
      simp [hmem]
    · obtain rfl : stem = core := (Prod.mk.inj (Outcome.ok.inj hcore)).1
      exact hmem
  unfold efiStem at hname
  split at hname
  · rename_i left ext hl
    rw [(Text.splitAtBytes_eq_some.mp hl).1]
    split at hname
    · rw [Option.some.inj hname]
      simp [hstem]
    · cases hname
  · cases hname

/-! ## The names an install writes -/

/-- The volumes of a group stand in their own columns. -/
def SlotGroup.Typed (g : SlotGroup) : Prop :=
  (∀ r ∈ g.root, r.kind = .root) ∧ ∀ t ∈ g.verity, t.kind = .verity

/-- The names that commit a version. -/
def Plan.Commits (plan : Plan) (boot : String) (v : Version) : Prop :=
  plan.steps.filterMap Step.renameTarget =
      [Slot.displayName .root (.used v), Slot.displayName .verity (.used v)] ∧
    plan.steps.filterMap Step.ukiTarget =
      [boot ++ "/EFI/Linux/" ++ UkiEntry.display ⟨v, none⟩]

section Install

variable {rt : Runtime} {m : Manifest} {v : Version} {source : String} {plan : Plan}
  {pre : List Step} {slot : SlotGroup}

theorem Runtime.typed_of_new {volumes : List Volume} {cmdline : String} {items : List BootctlItem}
    (h : Runtime.new volumes cmdline items = .ok rt) : ∀ g ∈ rt.slotgroups, g.Typed := by
  rcases Runtime.new_eq_ok_iff.mp h with ⟨_, kernel, _, rfl⟩
  intro g hmem
  rcases SlotGroup.mem_view.mp hmem with ⟨s, _, rfl⟩ | ⟨b, _, _, rfl⟩
  · exact ⟨fun r hr => (SlotGroup.slotFor_spec hr).2.1, fun t ht => (SlotGroup.slotFor_spec ht).2.1⟩
  · constructor <;> rintro _ ⟨⟩

theorem Runtime.createVolume_names {vg id : String} {k : Kind} {a b : Option Nat} {slot : Slot}
    {step : Step} (h : Runtime.createVolume vg id k.display a b = .ok (slot, step)) :
    slot.kind = k ∧ step.renameTarget = none ∧ step.ukiTarget = none := by
  obtain ⟨size, _, h⟩ := Outcome.bind_eq_ok.mp h
  obtain ⟨created, hslot, h⟩ := Outcome.bind_eq_ok.mp h
  obtain ⟨hcreated, rfl⟩ := Prod.mk.inj (Outcome.ok.inj h)
  rw [hcreated] at hslot
  have hmem := List.mem_of_head? (Outcome.context_eq_ok.mp hslot)
  obtain ⟨hvol, hdec⟩ := Slot.mem_fromVolumes.mp hmem
  rw [List.mem_singleton.mp hvol, emptyName_eq] at hdec
  have hname := (Slot.decodeStatus_eq_ok.mp hdec).1
  have hhead := congrArg (fun name => name.toList.head?) hname
  refine ⟨?_, rfl, rfl⟩
  cases k <;> cases hk : slot.kind <;> simp [hk, Slot.displayName, Kind.display] at hhead ⊢

theorem Runtime.createEmptySlot_names {g : SlotGroup} (h : rt.createEmptySlot m = .ok (g, pre)) :
    g.Typed ∧ pre.filterMap Step.renameTarget = [] ∧ pre.filterMap Step.ukiTarget = [] := by
  obtain ⟨_, _, h⟩ := Outcome.bind_eq_ok.mp h
  obtain ⟨_, _, h⟩ := Outcome.bind_eq_ok.mp h
  obtain ⟨_, _, h⟩ := Outcome.bind_eq_ok.mp h
  obtain ⟨_, _, h⟩ := Outcome.bind_eq_ok.mp h
  obtain ⟨⟨root, rootStep⟩, hroot, h⟩ := Outcome.bind_eq_ok.mp h
  obtain ⟨⟨verity, verityStep⟩, hverity, h⟩ := Outcome.bind_eq_ok.mp h
  obtain ⟨rfl, rfl⟩ := Prod.mk.inj (Outcome.ok.inj h)
  obtain ⟨hrk, hr, hr'⟩ := createVolume_names (k := .root) hroot
  obtain ⟨htk, ht, ht'⟩ := createVolume_names (k := .verity) hverity
  refine ⟨⟨?_, ?_⟩, ?_, ?_⟩
  · rintro r ⟨⟩
    exact hrk
  · rintro t ⟨⟩
    exact htk
  · simp [hr, ht]
  · simp [hr', ht']

theorem Runtime.resizeStep_names (slot : Option Slot) (needed : Option Nat) :
    (Runtime.resizeStep slot needed).filterMap Step.renameTarget = [] ∧
      (Runtime.resizeStep slot needed).filterMap Step.ukiTarget = [] := by
  unfold Runtime.resizeStep
  split
  · split <;> exact ⟨rfl, rfl⟩
  · exact ⟨rfl, rfl⟩

theorem Runtime.selectUpdateSlot_names (typed : ∀ g ∈ rt.slotgroups, g.Typed)
    (hv : m.toVersion = .ok v) (h : rt.selectUpdateSlot m = .ok (.selected slot pre)) :
    slot.Typed ∧ slot.boot = some (BootEntry.ofUki ⟨v, none⟩) ∧
      pre.filterMap Step.renameTarget = [] ∧ pre.filterMap Step.ukiTarget = [] := by
  have hattach : ∀ {g : SlotGroup}, g.Typed → g.attachUki ⟨v, none⟩ = .ok slot →
      slot.Typed ∧ slot.boot = some (BootEntry.ofUki ⟨v, none⟩) := by
    intro g hg ha
    obtain ⟨_, _, ha⟩ := Outcome.bind_eq_ok.mp ha
    obtain rfl := Outcome.ok.inj ha
    exact ⟨hg, rfl⟩
  rw [Runtime.selectUpdateSlot, hv, Outcome.ok_bind] at h
  split at h
  · cases h
  · split at h
    · rename_i g hspare
      obtain ⟨_, ha, h⟩ := Outcome.bind_eq_ok.mp h
      obtain ⟨rfl, rfl⟩ := SlotSelection.selected.inj (Outcome.ok.inj h)
      obtain ⟨htyped, hboot⟩ := hattach (typed g (List.mem_of_find?_eq_some hspare)) ha
      refine ⟨htyped, hboot, ?_⟩
      simp [Runtime.resizeStepsForSlot, Runtime.resizeStep_names]
    · obtain ⟨⟨g, steps⟩, hcreate, h⟩ := Outcome.bind_eq_ok.mp h
      obtain ⟨_, ha, h⟩ := Outcome.bind_eq_ok.mp h
      obtain ⟨rfl, rfl⟩ := SlotSelection.selected.inj (Outcome.ok.inj h)
      obtain ⟨hg, hpre⟩ := Runtime.createEmptySlot_names hcreate
      obtain ⟨htyped, hboot⟩ := hattach hg ha
      exact ⟨htyped, hboot, hpre⟩

theorem Plan.installIntoSlot_names (typed : slot.Typed)
    (hboot : slot.boot = some (BootEntry.ofUki ⟨v, none⟩)) (hv : m.toVersion = .ok v)
    (h : Plan.installIntoSlot rt m slot source = .ok plan) : plan.Commits rt.boot v := by
  have into : ∀ {s t : Slot}, s.intoVersion v = .ok t → t = { s with status := .used v } := by
    intro s t h
    obtain ⟨_, _, h⟩ := Outcome.bind_eq_ok.mp h
    exact (Outcome.ok.inj h).symm
  obtain ⟨root, hroot, h⟩ := Outcome.bind_eq_ok.mp h
  obtain ⟨verity, hverity, h⟩ := Outcome.bind_eq_ok.mp h
  rw [hv, Outcome.ok_bind] at h
  obtain ⟨usedRoot, hr, h⟩ := Outcome.bind_eq_ok.mp h
  obtain ⟨usedVerity, ht, h⟩ := Outcome.bind_eq_ok.mp h
  obtain ⟨uki, huki, h⟩ := Outcome.bind_eq_ok.mp h
  obtain ⟨active, _, h⟩ := Outcome.bind_eq_ok.mp h
  obtain rfl := Outcome.ok.inj h
  obtain rfl := into hr
  obtain rfl := into ht
  have hrk := typed.1 root (Outcome.context_eq_ok.mp hroot)
  have htk := typed.2 verity (Outcome.context_eq_ok.mp hverity)
  have huki' : uki = .installUki m.kernel rt.boot source (UkiEntry.display ⟨v, none⟩) := by
    rw [installUki, hboot] at huki
    exact (Outcome.ok.inj huki).symm
  subst huki'
  unfold Commits
  cases active.isLegacy <;>
    simp [List.filterMap_cons, Step.renameTarget, Step.ukiTarget, Slot.rename, Slot.display, hrk,
      htk, Plan.legacyBootloaderMigration]

theorem Plan.install_names (typed : ∀ g ∈ rt.slotgroups, g.Typed)
    (h : Plan.install rt m source = .ok plan) (hne : plan.steps ≠ []) :
    ∃ v, m.toVersion = .ok v ∧ plan.Commits rt.boot v := by
  obtain ⟨selection, hsel, h⟩ := Outcome.bind_eq_ok.mp h
  obtain ⟨v, hv, _⟩ := Outcome.bind_eq_ok.mp hsel
  cases selection with
  | alreadyInstalled =>
      obtain rfl := Outcome.ok.inj h
      exact absurd rfl hne
  | selected slot pre =>
      obtain ⟨htyped, hboot, hpre, hpre'⟩ := Runtime.selectUpdateSlot_names typed hv hsel
      obtain ⟨inner, hinner, h⟩ := Outcome.bind_eq_ok.mp h
      obtain rfl := Outcome.ok.inj h
      obtain ⟨hren, huki⟩ := installIntoSlot_names htyped hboot hv hinner
      exact ⟨v, hv, by rw [List.filterMap_append, hpre, hren, List.nil_append],
        by rw [List.filterMap_append, hpre', huki, List.nil_append]⟩

end Install

/-! ## Reading the names back -/

theorem Manifest.nameable_iff {m : Manifest} :
    m.Nameable ↔ ∃ v, m.toVersion = .ok v ∧ (Status.used v).Plain ∧ v.UkiPlain ∧
      '/' ∉ (UkiEntry.display ⟨v, none⟩).toList := by
  constructor
  · rintro ⟨head, rest, hcut, hver, hne, hhead⟩
    refine ⟨⟨m.version, some (String.ofList head)⟩, ?_, ?_, ?_, ?_⟩
    · exact toVersion_eq_ok.mpr ⟨_, by rw [hashFragment, hcut], rfl⟩
    · refine ⟨hver _ (by simp), hne, ?_⟩
      rintro h ⟨⟩
      simpa using hhead '_' (by simp)
    · exact ⟨hver _ (by simp), hver _ (by simp), hne, _, rfl, by simpa using hhead '+' (by simp)⟩
    · rw [UkiEntry.display_toList]
      have h₁ := hver '/' (by simp)
      have h₂ := hhead '/' (by simp)
      simp [h₁, h₂]
  · rintro ⟨v, hv, hplain, huki, hslash⟩
    obtain ⟨hash, hh, rfl⟩ := toVersion_eq_ok.mp hv
    unfold hashFragment at hh
    split at hh
    · rename_i head rest hcut
      obtain rfl := Outcome.ok.inj hh
      obtain ⟨hver, hne, hhead⟩ := hplain
      obtain ⟨hdash, hplus, _, x, hx, hxplus⟩ := huki
      obtain rfl := Option.some.inj hx
      have hunder : '_' ∉ head := by simpa using hhead _ rfl
      rw [UkiEntry.display_toList] at hslash
      simp at hslash hxplus
      refine ⟨head, rest, hcut, ?_, hne, ?_⟩
      · simpa using ⟨hver, hdash, hplus, hslash.1⟩
      · simpa using ⟨hunder, hxplus, hslash.2⟩
    · cases hh

theorem Plan.Commits.readsBack_iff {plan : Plan} {boot : String} {v : Version} {x : String}
    (h : plan.Commits boot v) (hx : v.hash = some x) :
    plan.ReadsBack v ↔ (Status.used v).Plain ∧ v.UkiPlain ∧
      '/' ∉ (UkiEntry.display ⟨v, none⟩).toList := by
  obtain ⟨hren, huki⟩ := h
  obtain ⟨revision, hash⟩ := v
  obtain rfl : hash = some x := hx
  have hpath : boot ++ "/EFI/Linux/" ++ UkiEntry.display ⟨⟨revision, some x⟩, none⟩ =
      (boot ++ "/EFI/Linux") ++ "/" ++ UkiEntry.display ⟨⟨revision, some x⟩, none⟩ := by
    simp [← String.toList_inj]
  constructor
  · rintro ⟨⟨root, verity, hr, hroot, _⟩, path, name, uki, hp, hname, hparse, hver⟩
    obtain ⟨rfl, _⟩ := List.cons.inj (hren.symm.trans hr)
    obtain ⟨rfl, _⟩ := List.cons.inj (huki.symm.trans hp)
    have hslash : '/' ∉ (UkiEntry.display ⟨⟨revision, some x⟩, none⟩).toList := by
      intro hmem
      rw [UkiEntry.display_toList] at hmem
      have hversion : '/' ∈ revision.toList ∨ '/' ∈ x.toList := by simpa using hmem
      -- a file name has no slash, and the parser invents none
      refine slash_notMem_fileName hname ?_
      have hc := UkiEntry.mem_of_fromStr hparse (c := '/') (by rw [hver]; simpa using hversion)
      simpa using hc
    rw [hpath, fileName_append _ hslash (by rw [UkiEntry.display_toList]; simp)] at hname
    obtain rfl := Option.some.inj hname
    rw [String.ofList_toList] at hparse
    exact ⟨(Slot.decodeStatus_eq_ok.mp hroot).2,
      (UkiEntry.fromStr_display_version_iff rfl).mp ⟨uki, hparse, hver⟩, hslash⟩
  · rintro ⟨hplain, hukiPlain, hslash⟩
    have hfile := fileName_append (boot ++ "/EFI/Linux") hslash
      (by rw [UkiEntry.display_toList]; simp)
    rw [← hpath] at hfile
    refine ⟨⟨_, _, hren, Slot.decodeStatus_displayName hplain,
      Slot.decodeStatus_displayName hplain⟩, _, _, ⟨⟨revision, some x⟩, none⟩, huki, hfile, ?_, rfl⟩
    rw [String.ofList_toList]
    exact UkiEntry.fromStr_display hukiPlain

theorem install_legacyWorld_of_toVersion {m : Manifest} {v : Version} (hv : m.toVersion = .ok v)
    (source : String) :
    ∃ plan, Plan.install (legacyWorld.runtimeOf legacyKernel) m source = .ok plan ∧
      plan.steps ≠ [] := by
  obtain ⟨hash, rfl⟩ := Manifest.toVersion_hash hv
  have hkeys : legacyWorld.names.keys = [(.root, .used ⟨"0", none⟩), (.root, .empty .legacy),
      (.verity, .used ⟨"0", none⟩), (.verity, .empty .legacy)] := by
    decide +kernel
  have hinst : ¬ legacyWorld.names.Installed ⟨m.version, some hash⟩ := by
    simp [Names.Installed, hkeys]
  refine ⟨⟨_⟩, install_eq_ok.mpr ⟨_, hv, Or.inr ⟨hinst, .empty .legacy, legacyEmptySlot .root,
    legacyEmptySlot .verity, _, legacyWorld.group (.used ⟨"0", none⟩),
    .reuse rfl (by decide +kernel) (by decide +kernel) (by decide +kernel), by decide +kernel,
    rfl⟩⟩, ?_⟩
  simp [writeSteps]

/-- The installer can read back the names it gives to an accepted manifest, on every
device, exactly when the manifest is nameable. -/
theorem install_readsBack_iff (deserialize : List UInt8 → Option Manifest)
    (content : List UInt8) :
    (∀ m, Manifest.fromSlice deserialize content = .ok m →
        ∀ volumes cmdline items rt source, Runtime.new volumes cmdline items = .ok rt →
          (Plan.install rt m source).Returns ∧
            ∀ plan, Plan.install rt m source = .ok plan → plan.steps ≠ [] →
              ∃ v, m.toVersion = .ok v ∧ plan.ReadsBack v) ↔
      ∀ m, Manifest.fromSlice deserialize content = .ok m → m.Nameable := by
  refine forall_congr' fun m => forall_congr' fun _ => ?_
  constructor
  · intro h
    have hlegacy := h _ _ _ _ "/sysupdate" legacyWorld_runtime
    have hv : ∃ v, m.toVersion = .ok v := by
      cases hver : m.toVersion with
      | ok v => exact ⟨v, rfl⟩
      | err e => exact absurd hver Manifest.toVersion_ne_err
      | panicked =>
          refine absurd ?_ hlegacy.1
          simp only [Plan.install, Runtime.selectUpdateSlot, hver]
          rfl
    obtain ⟨v, hv⟩ := hv
    obtain ⟨plan, hplan, hne⟩ := install_legacyWorld_of_toVersion hv "/sysupdate"
    obtain ⟨v', hv', hback⟩ := hlegacy.2 plan hplan hne
    obtain rfl := Outcome.ok.inj (hv.symm.trans hv')
    obtain ⟨w, hw, hcommits⟩ := Plan.install_names (Runtime.typed_of_new legacyWorld_runtime)
      hplan hne
    obtain rfl := Outcome.ok.inj (hv.symm.trans hw)
    obtain ⟨hash, hver⟩ := Manifest.toVersion_hash hv
    exact Manifest.nameable_iff.mpr
      ⟨v, hv, (hcommits.readsBack_iff (congrArg Version.hash hver)).mp hback⟩
  · intro h volumes cmdline items rt source hrt
    obtain ⟨v, hv, hplain⟩ := Manifest.nameable_iff.mp h
    refine ⟨Plan.install_returns (by rw [hv]; exact Outcome.returns_ok v), ?_⟩
    intro plan hplan hne
    obtain ⟨w, hw, hcommits⟩ := Plan.install_names (Runtime.typed_of_new hrt) hplan hne
    obtain rfl := Outcome.ok.inj (hv.symm.trans hw)
    obtain ⟨hash, hver⟩ := Manifest.toVersion_hash hv
    exact ⟨v, hv, (hcommits.readsBack_iff (congrArg Version.hash hver)).mpr hplain⟩

def shortHashManifest : Manifest := { sampleManifest with rootVerityHash := "44cc41b4" }

def underscoreManifest : Manifest := { sampleManifest with version := "25.12_1" }

/-- The short hash panics the planner; the underscore gives a root volume whose name
is no slot name any more. -/
theorem install_loses_names :
    legacyWorld.runtime "root=fstab" = .ok (legacyWorld.runtimeOf legacyKernel) ∧
      Manifest.fromSlice shortHashManifest.parse shortHashManifest.text.toUTF8.toList =
        .ok shortHashManifest ∧
      Plan.install (legacyWorld.runtimeOf legacyKernel) shortHashManifest "/sysupdate" =
        .panicked ∧
      Manifest.fromSlice underscoreManifest.parse underscoreManifest.text.toUTF8.toList =
        .ok underscoreManifest ∧
      ∃ plan, Plan.install (legacyWorld.runtimeOf legacyKernel) underscoreManifest "/sysupdate" =
          .ok plan ∧
        plan.steps.filterMap Step.renameTarget =
          ["root_25.12_1_44cc41b403a2d323", "verity_25.12_1_44cc41b403a2d323"] ∧
        Slot.decodeStatus "root_25.12_1_44cc41b403a2d323" = .err "Matching variant not found" := by
  have hparse (m : Manifest) : Manifest.fromSlice m.parse m.text.toUTF8.toList = .ok m :=
    congrArg (Outcome.context · _) m.parse_text
  refine ⟨legacyWorld_runtime, hparse _, by decide +kernel, hparse _, ?_⟩
  have hver : underscoreManifest.toVersion = .ok ⟨"25.12_1", some "44cc41b403a2d323"⟩ := by
    decide +kernel
  obtain ⟨plan, hplan, hne⟩ := install_legacyWorld_of_toVersion hver "/sysupdate"
  obtain ⟨v, hv, hcommits⟩ := Plan.install_names (Runtime.typed_of_new legacyWorld_runtime)
    hplan hne
  obtain rfl := Outcome.ok.inj (hver.symm.trans hv)
  exact ⟨plan, hplan, hcommits.1.trans (by decide +kernel), by decide +kernel⟩

end GhafGivc.Image
