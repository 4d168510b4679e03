import GhafGivc.Pull.Prune

/-! # What a removal of old downloads leaves

The loop visits the directories above which none has update directories of its own, and of
those it visits it prunes each that has some. A repository below a directory that has
update directories is never reached.
-/

namespace GhafGivc.Pull

open Core

/-- The directories that the loop comes to from `s`. -/
inductive Visited (disk : Disk) (s : Location) : Location → Prop where
  | start : Visited disk s s
  | child {r dir : Location} (hr : Visited disk s r) (hnone : updates disk r = [])
      (hdir : dir ∈ disk.subdirs r) : Visited disk s dir

section Visited

variable {disk disk' : Disk} {s r c dir : Location}

theorem not_concat_isPrefix {name : String} : ¬ r ++ [name] <+: r := by
  intro h
  have hlength := h.length_le
  rw [List.length_append, List.length_singleton] at hlength
  omega

theorem isPrefix_of_mem_subdirs (h : dir ∈ disk.subdirs r) : r <+: dir := by
  rcases Disk.mem_subdirs.mp h with ⟨name, _, rfl, -⟩
  exact List.prefix_append r _

namespace Visited

theorem isPrefix (h : Visited disk s r) : s <+: r := by
  induction h with
  | start => exact List.prefix_rfl
  | child _ _ hdir ih => exact ih.trans (isPrefix_of_mem_subdirs hdir)

theorem eq_of_updates (h : Visited disk s r) (hne : updates disk s ≠ []) : r = s := by
  induction h with
  | start => rfl
  | child _ hnone _ ih =>
      rw [ih] at hnone
      exact absurd hnone hne

theorem of_child (hnone : updates disk s = []) (hc : c ∈ disk.subdirs s)
    (h : Visited disk c r) : Visited disk s r := by
  induction h with
  | start => exact child start hnone hc
  | child _ hnone hdir ih => exact child ih hnone hdir

theorem eq_or_child (h : Visited disk s r) :
    r = s ∨ ∃ c ∈ disk.subdirs s, Visited disk c r := by
  induction h with
  | start => exact .inl rfl
  | child hr hnone hdir ih =>
      rcases ih with rfl | ⟨c, hc, hvisited⟩
      · exact .inr ⟨_, hdir, start⟩
      · exact .inr ⟨c, hc, child hvisited hnone hdir⟩

theorem of_below (hbelow : disk.below s = disk'.below s) (h : Visited disk s r) :
    Visited disk' s r := by
  induction h with
  | start => exact start
  | child hr hnone hdir ih =>
      rw [updates_eq_of_below hbelow hr.isPrefix] at hnone
      rw [Disk.subdirs_eq_of_below hbelow hr.isPrefix] at hdir
      exact child ih hnone hdir

theorem updates_eq_nil {q : Location} (h : Visited disk s r) (hs : s <+: q) (hq : q <+: r)
    (hne : q ≠ r) : updates disk q = [] := by
  induction h with
  | start => exact absurd (hq.eq_of_length_le hs.length_le) hne
  | @child r dir hr hnone hdir ih =>
      rcases Disk.mem_subdirs.mp hdir with ⟨name, _, rfl, -⟩
      rcases List.prefix_concat_iff.mp hq with heq | hup
      · exact absurd heq hne
      · by_cases heq : q = r
        · rw [heq]
          exact hnone
        · exact ih hup heq

end Visited

/-- The locations that the loop removes from a stack on. -/
def Gone (disk : Disk) (stack : List Location) (p : Location) : Prop :=
  ∃ s ∈ stack, ∃ r, Visited disk s r ∧ ∃ dir ∈ stale disk r, dir <+: p

end Visited

/-! ## The loop -/

/-- The stack holds directories, none of them inside another. -/
structure Pending (disk : Disk) (stack : List Location) : Prop where
  isDir : ∀ s ∈ stack, disk.isDir s = true
  beside : stack.Pairwise Disk.Beside

/-- How many entries are left to look at. -/
def reach (disk : Disk) (stack : List Location) : Nat :=
  (disk.entries.filter fun entry => stack.any fun s => s.isPrefixOf entry.1).length

section Loop

variable {disk disk' : Disk} {current : Location} {stack : List Location}

theorem Pending.below_eq (h : Pending disk (current :: stack)) {s : Location} (hs : s ∈ stack) :
    ((stale disk current).foldl Disk.removeDirAll disk).below s = disk.below s := by
  apply Disk.below_foldl_removeDirAll
  intro dir hdir
  have hbeside : Disk.Beside current s := (List.pairwise_cons.mp h.beside).1 s hs
  rcases mem_updates.mp (mem_updates_of_mem_stale hdir) with ⟨name, rfl, -⟩
  exact hbeside.mono_left (List.prefix_append current _)

theorem Pending.prune (h : Pending disk (current :: stack)) :
    Pending ((stale disk current).foldl Disk.removeDirAll disk) stack := by
  constructor
  · intro s hs
    rw [Disk.isDir_eq_of_below (h.below_eq hs) List.prefix_rfl]
    exact h.isDir s (List.mem_cons_of_mem _ hs)
  · exact (List.pairwise_cons.mp h.beside).2

theorem Pending.descend (h : Pending disk (current :: stack)) :
    Pending disk ((disk.subdirs current).reverse ++ stack) := by
  have hbeside := List.pairwise_cons.mp h.beside
  constructor
  · intro s hs
    rcases List.mem_append.mp hs with hs | hs
    · rcases Disk.mem_subdirs.mp (List.mem_reverse.mp hs) with ⟨_, modified, -, hin⟩
      exact Disk.isDir_iff.mpr ⟨modified, hin⟩
    · exact h.isDir s (List.mem_cons_of_mem _ hs)
  · rw [List.pairwise_append, List.pairwise_reverse]
    refine ⟨?_, hbeside.2, ?_⟩
    · apply List.Pairwise.imp_of_mem _ Disk.nodup_subdirs
      intro a b ha hb hne
      exact (Disk.beside_of_mem_subdirs ha hb hne).symm
    · intro dir hdir s hs
      have hle := isPrefix_of_mem_subdirs (List.mem_reverse.mp hdir)
      exact (hbeside.1 s hs).mono_left hle

/-- A round is done with the directory at the top. -/
theorem Pending.reach_lt {stack' : List Location} (h : Pending disk (current :: stack))
    (hentries : disk'.entries.Sublist disk.entries)
    (hbelow : ∀ s ∈ stack', ∃ s' ∈ current :: stack, s' <+: s)
    (hcurrent : ∀ s ∈ stack', ¬ s <+: current) :
    reach disk' stack' < reach disk (current :: stack) := by
  rcases Disk.isDir_iff.mp (h.isDir current List.mem_cons_self) with ⟨modified, hin⟩
  have hmono : (disk'.entries.filter fun entry => stack'.any fun s => s.isPrefixOf entry.1).Sublist
      (disk.entries.filter fun entry =>
        (current :: stack).any fun s => s.isPrefixOf entry.1) := by
    apply (hentries.filter _).trans
    apply List.monotone_filter_right
    intro entry hsome
    rcases List.any_eq_true.mp hsome with ⟨s, hs, hle⟩
    rcases hbelow s hs with ⟨s', hs', hle'⟩
    have hup := hle'.trans (List.isPrefixOf_iff_prefix.mp hle)
    exact List.any_eq_true.mpr ⟨s', hs', List.isPrefixOf_iff_prefix.mpr hup⟩
  apply Nat.lt_of_not_le
  intro hle
  have heq := hmono.eq_of_length_le hle
  have hleft : (current, DiskNode.dir modified) ∈ disk'.entries.filter fun entry =>
      stack'.any fun s => s.isPrefixOf entry.1 := by
    rw [heq]
    exact List.mem_filter.mpr ⟨hin, by simp⟩
  rcases List.any_eq_true.mp (List.mem_filter.mp hleft).2 with ⟨s, hs, hle⟩
  exact hcurrent s hs (List.isPrefixOf_iff_prefix.mp hle)

theorem not_gone_nil (disk : Disk) (p : Location) : ¬ Gone disk [] p := by
  intro hgone
  rcases hgone with ⟨s, hs, -⟩
  exact List.not_mem_nil hs

theorem gone_of_updates (h : Pending disk (current :: stack)) (hne : updates disk current ≠ [])
    (p : Location) :
    ((∃ dir ∈ stale disk current, dir <+: p) ∨
        Gone ((stale disk current).foldl Disk.removeDirAll disk) stack p) ↔
      Gone disk (current :: stack) p := by
  constructor
  · intro hgone
    rcases hgone with hgone | ⟨s, hs, r, hr, dir, hdir, hle⟩
    · exact ⟨current, List.mem_cons_self, current, .start, hgone⟩
    · have hbelow := h.below_eq hs
      rw [stale_eq_of_below hbelow hr.isPrefix] at hdir
      exact ⟨s, List.mem_cons_of_mem _ hs, r, hr.of_below hbelow, dir, hdir, hle⟩
  · intro hgone
    rcases hgone with ⟨s, hs, r, hr, dir, hdir, hle⟩
    rcases List.mem_cons.mp hs with rfl | hs
    · rw [hr.eq_of_updates hne] at hdir
      exact .inl ⟨dir, hdir, hle⟩
    · have hbelow := (h.below_eq hs).symm
      rw [stale_eq_of_below hbelow hr.isPrefix] at hdir
      exact .inr ⟨s, hs, r, hr.of_below hbelow, dir, hdir, hle⟩

theorem gone_of_no_updates (hnone : updates disk current = []) (p : Location) :
    Gone disk ((disk.subdirs current).reverse ++ stack) p ↔ Gone disk (current :: stack) p := by
  constructor
  · intro hgone
    rcases hgone with ⟨s, hs, r, hr, hdir⟩
    rcases List.mem_append.mp hs with hs | hs
    · have hc := List.mem_reverse.mp hs
      exact ⟨current, List.mem_cons_self, r, hr.of_child hnone hc, hdir⟩
    · exact ⟨s, List.mem_cons_of_mem _ hs, r, hr, hdir⟩
  · intro hgone
    rcases hgone with ⟨s, hs, r, hr, dir, hdir, hle⟩
    rcases List.mem_cons.mp hs with rfl | hs
    · rcases hr.eq_or_child with rfl | ⟨c, hc, hvisited⟩
      · have hin := mem_updates_of_mem_stale hdir
        rw [hnone] at hin
        exact absurd hin List.not_mem_nil
      · have hin := List.mem_append_left stack (List.mem_reverse.mpr hc)
        exact ⟨c, hin, r, hvisited, dir, hdir, hle⟩
    · exact ⟨s, List.mem_append_right _ hs, r, hr, dir, hdir, hle⟩

theorem Pending.reach_prune (h : Pending disk (current :: stack)) :
    reach ((stale disk current).foldl Disk.removeDirAll disk) stack <
      reach disk (current :: stack) := by
  apply h.reach_lt (Disk.removal_foldl_removeDirAll disk _).sublist
  · intro s hs
    exact ⟨s, List.mem_cons_of_mem _ hs, List.prefix_rfl⟩
  · intro s hs
    exact ((List.pairwise_cons.mp h.beside).1 s hs).2

theorem Pending.reach_descend (h : Pending disk (current :: stack)) :
    reach disk ((disk.subdirs current).reverse ++ stack) < reach disk (current :: stack) := by
  apply h.reach_lt (List.Sublist.refl _)
  · intro s hs
    rcases List.mem_append.mp hs with hs | hs
    · have hle := isPrefix_of_mem_subdirs (List.mem_reverse.mp hs)
      exact ⟨current, List.mem_cons_self, hle⟩
    · exact ⟨s, List.mem_cons_of_mem _ hs, List.prefix_rfl⟩
  · intro s hs hle
    rcases List.mem_append.mp hs with hs | hs
    · rcases Disk.mem_subdirs.mp (List.mem_reverse.mp hs) with ⟨name, _, rfl, -⟩
      exact not_concat_isPrefix hle
    · exact ((List.pairwise_cons.mp h.beside).1 s hs).2 hle

/-- With enough fuel the loop ends, and has removed what is stale in the directories it
visits. -/
theorem Pending.pruneLoop_yields (answers : PruneAnswers) (fuel : Nat) (h : Pending disk stack)
    (hfuel : reach disk stack ≤ fuel) :
    ∃ disk', Yields answers (pruneLoop answers fuel disk stack) disk' ∧
      Disk.Removal disk disk' (Gone disk stack) := by
  induction fuel generalizing disk stack with
  | zero =>
      cases stack with
      | nil => exact ⟨disk, yields_pure disk, .of_none disk (not_gone_nil disk)⟩
      | cons current stack => exact absurd h.reach_descend (by omega)
  | succ fuel ih =>
      cases stack with
      | nil => exact ⟨disk, yields_pure disk, .of_none disk (not_gone_nil disk)⟩
      | cons current stack =>
          have hdir := h.isDir current List.mem_cons_self
          by_cases hnone : updates disk current = []
          · have hless := h.reach_descend
            rcases ih h.descend (by omega) with ⟨disk', hyields, hremoval⟩
            refine ⟨disk', ?_, hremoval.congr (gone_of_no_updates hnone)⟩
            exact Pull.pruneLoop_yields hdir (fun hne => absurd hnone hne) fun _ => hyields
          · have hless := h.reach_prune
            rcases ih h.prune (by omega) with ⟨disk', hyields, hremoval⟩
            have hall := (Disk.removal_foldl_removeDirAll disk (stale disk current)).trans hremoval
            refine ⟨disk', ?_, hall.congr (gone_of_updates h hnone)⟩
            exact Pull.pruneLoop_yields hdir (fun _ => hyields) fun heq => absurd heq hnone

end Loop

/-! ## The whole run -/

theorem pending_root {disk : Disk} (h : disk.isDir [] = true) : Pending disk [[]] := by
  constructor
  · intro s hs
    rw [List.mem_singleton.mp hs]
    exact h
  · exact List.pairwise_singleton _ _

section Run

variable {answers : PruneAnswers} {disk disk' : Disk} {r : Location}

/-- A run under a directory ends, and fails only where a call is refused. -/
theorem pruneDownloadedUpdates_yields (answers : PruneAnswers) (h : disk.isDir [] = true) :
    ∃ disk', Yields answers (pruneDownloadedUpdates answers disk) disk' ∧
      Disk.Removal disk disk' (Gone disk [[]]) := by
  have hexists : disk.tryExists [] = true := by
    rcases Disk.isDir_iff.mp h with ⟨modified, hin⟩
    exact Disk.tryExists_iff.mpr ⟨_, hin⟩
  have hfuel : reach disk [[]] ≤ disk.entries.length := List.length_filter_le _ _
  rcases (pending_root h).pruneLoop_yields answers _ hfuel with ⟨disk', hyields, hremoval⟩
  refine ⟨disk', ?_, hremoval⟩
  unfold pruneDownloadedUpdates
  rw [if_pos hexists]
  apply Yields.answered_bind
  · intro cause hcause
    exact ⟨[], .inl hcause⟩
  · apply Yields.answered_bind
    · intro cause hcause
      exact hcause
    · exact hyields

theorem pruneDownloadedUpdates_of_missing (answers : PruneAnswers)
    (h : disk.tryExists [] = false) :
    Yields answers (pruneDownloadedUpdates answers disk) disk := by
  unfold pruneDownloadedUpdates
  rw [h]
  apply Yields.answered_bind
  · intro cause hcause
    exact ⟨[], .inl hcause⟩
  · exact yields_pure disk

theorem Yields.eq_of_ok {x : Except PruneError Disk} (h : Yields answers x disk)
    (hok : x = .ok disk') : disk' = disk := by
  rcases h with ⟨e, -, rfl⟩ | rfl
  · cases hok
  · exact (Except.ok.inj hok).symm

theorem isDir_of_prune (h : pruneDownloadedUpdates answers disk = .ok disk')
    (hexists : disk.tryExists [] = true) : disk.isDir [] = true := by
  rcases Fallible.bind_eq_ok.mp h with ⟨-, -, h⟩
  rw [if_pos hexists] at h
  rcases Fallible.bind_eq_ok.mp h with ⟨-, -, h⟩
  cases hfuel : disk.entries.length with
  | zero =>
      rw [hfuel] at h
      cases h
  | succ fuel =>
      rw [hfuel] at h
      rcases Fallible.bind_eq_ok.mp h with ⟨subdirs, hsubdirs, -⟩
      exact isDir_of_readSubdirs hsubdirs

theorem isUpdate_of_mem_stale {dir : Location} (h : dir ∈ stale disk r) : IsUpdate disk dir := by
  rcases mem_updates.mp (mem_updates_of_mem_stale h) with ⟨_, -, hupdate⟩
  exact hupdate

theorem not_gone_of_missing {p : Location} (h : disk.tryExists [] = false) :
    ¬ Gone disk [[]] p := by
  intro hgone
  rcases hgone with ⟨_, -, r, -, dir, hdir, -⟩
  have hroot := Disk.isDir_of_isPrefix (isUpdate_of_mem_stale hdir).1 List.nil_prefix
  rcases Disk.isDir_iff.mp hroot with ⟨modified, hin⟩
  rw [Disk.tryExists_iff.mpr ⟨_, hin⟩] at h
  cases h

theorem removal_of_prune (h : pruneDownloadedUpdates answers disk = .ok disk') :
    Disk.Removal disk disk' (Gone disk [[]]) := by
  cases hexists : disk.tryExists [] with
  | false =>
      rw [(pruneDownloadedUpdates_of_missing answers hexists).eq_of_ok h]
      exact .of_none disk fun _ => not_gone_of_missing hexists
  | true =>
      have hdir := isDir_of_prune h hexists
      rcases pruneDownloadedUpdates_yields answers hdir with ⟨disk₁, hyields, hremoval⟩
      rw [hyields.eq_of_ok h]
      exact hremoval

end Run

/-! ## Repositories -/

/-- A directory that is in no update directory and has one. -/
structure Repository (disk : Disk) (r : Location) : Prop where
  isDir : disk.isDir r = true
  outside : ∀ dir, dir <+: r → ¬ IsUpdate disk dir
  updates_ne_nil : updates disk r ≠ []

/-- A directory above has update directories too. -/
def Nested (disk : Disk) (r : Location) : Prop :=
  ∃ q, q <+: r ∧ q ≠ r ∧ updates disk q ≠ []

structure KeepsNewest (disk disk' : Disk) (r : Location) : Prop where
  subset : updates disk' r ⊆ updates disk r
  length : (updates disk' r).length = min 2 (updates disk r).length
  newest : ∀ old ∈ updates disk r, old ∉ updates disk' r →
    ∀ new ∈ updates disk' r, AtLeastAsNew (disk.modified new) (disk.modified old)

/-- Each repository keeps its two newest update directories, nothing outside the removed
ones has changed, and there is nothing left for another run. -/
structure Pruned (disk disk' : Disk) : Prop where
  keeps : ∀ r, Repository disk r → KeepsNewest disk disk' r
  frame : ∀ p, (∀ dir, dir <+: p → IsUpdate disk dir → disk'.tryExists dir = true) →
    disk'.node p = disk.node p
  again : ∀ answers, Yields answers (pruneDownloadedUpdates answers disk') disk'

section Repositories

variable {disk disk' : Disk} {r dir : Location}

theorem gone_concat_iff {name : String} : Gone disk [[]] (r ++ [name]) ↔
    Gone disk [[]] r ∨ Visited disk [] r ∧ r ++ [name] ∈ stale disk r := by
  constructor
  · intro hgone
    rcases hgone with ⟨s, hs, q, hq, dir, hdir, hle⟩
    rcases List.prefix_concat_iff.mp hle with rfl | hup
    · rcases mem_updates.mp (mem_updates_of_mem_stale hdir) with ⟨name', heq, -⟩
      rcases List.append_inj' heq rfl with ⟨rfl, -⟩
      rw [List.mem_singleton.mp hs] at hq
      exact .inr ⟨hq, hdir⟩
    · exact .inl ⟨s, hs, q, hq, dir, hdir, hup⟩
  · intro hgone
    rcases hgone with ⟨s, hs, q, hq, dir, hdir, hle⟩ | ⟨hr, hdir⟩
    · exact ⟨s, hs, q, hq, dir, hdir, hle.trans (List.prefix_append _ _)⟩
    · exact ⟨[], List.mem_singleton.mpr rfl, r, hr, _, hdir, List.prefix_rfl⟩

theorem Visited.not_gone (h : Visited disk [] r) : ¬ Gone disk [[]] r := by
  intro hgone
  rcases hgone with ⟨_, -, q, -, dir, hdir, hle⟩
  have hupdates := mem_updates_of_mem_stale hdir
  rcases mem_updates.mp hupdates with ⟨name, rfl, -⟩
  have hup : q <+: r := (List.prefix_append q _).trans hle
  have hne : q ≠ r := by
    intro heq
    rw [heq] at hle
    exact not_concat_isPrefix hle
  rw [h.updates_eq_nil List.nil_prefix hup hne] at hupdates
  exact List.not_mem_nil hupdates

theorem not_gone_of_outside (h : ∀ dir, dir <+: r → ¬ IsUpdate disk dir) :
    ¬ Gone disk [[]] r := by
  intro hgone
  rcases hgone with ⟨_, -, q, -, dir, hdir, hle⟩
  exact h dir hle (isUpdate_of_mem_stale hdir)

theorem not_gone_manifestIn (hdir : dir ∈ updates disk r) (h : ¬ Gone disk [[]] dir) :
    ¬ Gone disk [[]] (manifestIn dir) := by
  intro hgone
  rcases gone_concat_iff.mp hgone with hup | ⟨hvisited, -⟩
  · exact h hup
  · rcases mem_updates.mp hdir with ⟨name, rfl, -⟩
    have hnone := hvisited.updates_eq_nil List.nil_prefix (List.prefix_append r _) (by simp)
    rw [hnone] at hdir
    exact List.not_mem_nil hdir

theorem mem_updates_of_removal (h : Disk.Removal disk disk' (Gone disk [[]])) :
    dir ∈ updates disk' r ↔ dir ∈ updates disk r ∧ ¬ Gone disk [[]] dir := by
  have hmem : dir ∈ updates disk' r ↔ (dir ∈ disk.subdirs r ∧ ¬ Gone disk [[]] dir) ∧
      disk.tryExists (manifestIn dir) = true ∧ ¬ Gone disk [[]] (manifestIn dir) := by
    rw [updates, List.mem_filter, h.mem_subdirs_iff, h.tryExists_iff]
  rw [hmem]
  constructor
  · intro hin
    rcases hin with ⟨⟨hdir, hkept⟩, hmanifest, -⟩
    exact ⟨List.mem_filter.mpr ⟨hdir, hmanifest⟩, hkept⟩
  · intro hin
    rcases hin with ⟨hdir, hkept⟩
    have hboth := List.mem_filter.mp hdir
    exact ⟨⟨hboth.1, hkept⟩, hboth.2, not_gone_manifestIn hdir hkept⟩

theorem Visited.mem_updates_iff (hr : Visited disk [] r)
    (h : Disk.Removal disk disk' (Gone disk [[]])) :
    dir ∈ updates disk' r ↔ dir ∈ recent disk r := by
  rw [mem_updates_of_removal h, mem_recent]
  apply and_congr_right
  intro hdir
  rcases mem_updates.mp hdir with ⟨name, rfl, -⟩
  rw [gone_concat_iff]
  simp [hr, hr.not_gone]

theorem Visited.keepsNewest (hr : Visited disk [] r)
    (h : Disk.Removal disk disk' (Gone disk [[]])) : KeepsNewest disk disk' r := by
  have hmem : ∀ dir, dir ∈ updates disk' r ↔ dir ∈ recent disk r := fun _ => hr.mem_updates_iff h
  constructor
  · intro dir hdir
    exact (mem_recent.mp ((hmem dir).mp hdir)).1
  · rw [((List.perm_ext_iff_of_nodup nodup_updates nodup_recent).mpr hmem).length_eq]
    exact length_recent
  · intro old hold hgone new hnew
    have hstale : old ∈ stale disk r := by
      rcases List.mem_append.mp (perm_updates.mem_iff.mpr hold) with hkept | hstale
      · exact absurd ((hmem old).mpr hkept) hgone
      · exact hstale
    exact atLeastAsNew_of_mem ((hmem new).mp hnew) hstale

theorem visited_of_not_nested (hdir : disk.isDir r = true) (h : ¬ Nested disk r) :
    Visited disk [] r := by
  induction r using List.reverseRecOn with
  | nil => exact .start
  | append_singleton r name ih =>
      have hnone : ∀ q, q <+: r → updates disk q = [] := by
        intro q hq
        by_contra hne
        have hup := hq.trans (List.prefix_append r [name])
        refine h ⟨q, hup, ?_, hne⟩
        intro heq
        rw [heq] at hq
        exact not_concat_isPrefix hq
      have hvisited : Visited disk [] r := by
        apply ih (Disk.isDir_of_concat hdir)
        intro hnested
        rcases hnested with ⟨q, hq, -, hne⟩
        exact hne (hnone q hq)
      rcases Disk.isDir_iff.mp hdir with ⟨modified, hin⟩
      exact .child hvisited (hnone r List.prefix_rfl)
        (Disk.mem_subdirs.mpr ⟨name, modified, rfl, hin⟩)

/-- A nested repository keeps all it has. -/
theorem Repository.keepsNewest_iff_of_nested (hr : Repository disk r) (hnested : Nested disk r)
    (h : Disk.Removal disk disk' (Gone disk [[]])) :
    KeepsNewest disk disk' r ↔ (updates disk r).length ≤ 2 := by
  have hunvisited : ¬ Visited disk [] r := by
    intro hvisited
    rcases hnested with ⟨q, hq, hne, hupdates⟩
    exact hupdates (hvisited.updates_eq_nil List.nil_prefix hq hne)
  have hmem : ∀ dir, dir ∈ updates disk' r ↔ dir ∈ updates disk r := by
    intro dir
    rw [mem_updates_of_removal h]
    apply and_iff_left_of_imp
    intro hdir hgone
    rcases mem_updates.mp hdir with ⟨name, rfl, -⟩
    rcases gone_concat_iff.mp hgone with hup | ⟨hvisited, -⟩
    · exact not_gone_of_outside hr.outside hup
    · exact hunvisited hvisited
  have hlength : (updates disk' r).length = (updates disk r).length :=
    ((List.perm_ext_iff_of_nodup nodup_updates nodup_updates).mpr hmem).length_eq
  constructor
  · intro hkeeps
    have hmin := hkeeps.length
    omega
  · intro hle
    constructor
    · intro dir hdir
      exact (hmem dir).mp hdir
    · omega
    · intro old hold hgone
      exact absurd ((hmem old).mpr hold) hgone

theorem Visited.of_removal (h : Disk.Removal disk disk' (Gone disk [[]]))
    (hr : Visited disk' [] r) : Visited disk [] r := by
  induction hr with
  | start => exact .start
  | @child r _ hr hnone hdir ih =>
      -- a pruned directory keeps an update directory, and is no way down in the next run
      have hlength := (ih.keepsNewest h).length
      rw [hnone, List.length_nil] at hlength
      have hzero : (updates disk r).length = 0 := by omega
      exact .child ih (List.length_eq_zero_iff.mp hzero) (h.mem_subdirs_iff.mp hdir).1

theorem not_gone_again (h : Disk.Removal disk disk' (Gone disk [[]])) (p : Location) :
    ¬ Gone disk' [[]] p := by
  intro hgone
  rcases hgone with ⟨s, hs, r, hr, dir, hdir, -⟩
  rw [List.mem_singleton.mp hs] at hr
  have hlength := ((Visited.of_removal h hr).keepsNewest h).length
  rw [stale_eq_nil (by omega)] at hdir
  exact List.not_mem_nil hdir

theorem frame_of_removal {p : Location} (h : Disk.Removal disk disk' (Gone disk [[]]))
    (hp : ∀ dir, dir <+: p → IsUpdate disk dir → disk'.tryExists dir = true) :
    disk'.node p = disk.node p := by
  apply h.node_eq
  intro hgone
  rcases hgone with ⟨s, hs, r, hr, dir, hdir, hle⟩
  have hleft := hp dir hle (isUpdate_of_mem_stale hdir)
  exact (h.tryExists_iff.mp hleft).2 ⟨s, hs, r, hr, dir, hdir, List.prefix_rfl⟩

theorem again_of_prune {answers : PruneAnswers}
    (h : pruneDownloadedUpdates answers disk = .ok disk') (answers' : PruneAnswers) :
    Yields answers' (pruneDownloadedUpdates answers' disk') disk' := by
  have hremoval := removal_of_prune h
  cases hexists : disk'.tryExists [] with
  | false => exact pruneDownloadedUpdates_of_missing answers' hexists
  | true =>
      have hdir : disk'.isDir [] = true := by
        have hbefore := isDir_of_prune h (hremoval.tryExists_iff.mp hexists).1
        rw [Disk.isDir, hremoval.node_eq Visited.start.not_gone]
        exact hbefore
      rcases pruneDownloadedUpdates_yields answers' hdir with ⟨disk₁, hyields, hremoval'⟩
      rw [hremoval'.eq_of_none (not_gone_again hremoval)] at hyields
      exact hyields

end Repositories

/-- A run prunes every repository exactly when the nested ones have nothing to prune. -/
theorem pruneDownloadedUpdates_pruned_iff (answers : PruneAnswers) (disk disk' : Disk)
    (h : pruneDownloadedUpdates answers disk = .ok disk') :
    Pruned disk disk' ↔
      ∀ r, Repository disk r → Nested disk r → (updates disk r).length ≤ 2 := by
  have hremoval := removal_of_prune h
  constructor
  · intro hpruned r hr hnested
    exact (hr.keepsNewest_iff_of_nested hnested hremoval).mp (hpruned.keeps r hr)
  · intro hfew
    constructor
    · intro r hr
      by_cases hnested : Nested disk r
      · exact (hr.keepsNewest_iff_of_nested hnested hremoval).mpr (hfew r hr hnested)
      · exact (visited_of_not_nested hr.isDir hnested).keepsNewest hremoval
    · intro p hp
      exact frame_of_removal hremoval hp
    · exact again_of_prune h

def unrefused : PruneAnswers where
  lock := none
  tryExists := fun _ => none
  readDir := fun _ => none
  nextEntry := fun _ => none
  metadata := fun _ => none
  removeDirAll := fun _ => none

def downloaded (dir : Location) (modified : Nat) : List (Location × DiskNode) :=
  [(dir, .dir (some modified)), (manifestIn dir, .file [])]

def flatDisk : Disk where
  entries := [([], .dir none), (["ghaf"], .dir none)] ++ downloaded ["ghaf", "v1"] 1 ++
    downloaded ["ghaf", "v3"] 3 ++ downloaded ["ghaf", "v2"] 2
  nodup := by decide
  closed := by decide

theorem pruneDownloadedUpdates_pruned_iff_flat :
    pruneDownloadedUpdates unrefused flatDisk = .ok (flatDisk.removeDirAll ["ghaf", "v1"]) ∧
      Pruned flatDisk (flatDisk.removeDirAll ["ghaf", "v1"]) := by
  have hok : pruneDownloadedUpdates unrefused flatDisk =
      .ok (flatDisk.removeDirAll ["ghaf", "v1"]) := by
    rfl
  have hflat : ∀ entry ∈ flatDisk.entries, (updates flatDisk entry.1).length ≤ 2 ∨
      ∀ q ∈ entry.1.inits, q ≠ entry.1 → updates flatDisk q = [] := by
    decide +kernel
  refine ⟨hok, (pruneDownloadedUpdates_pruned_iff unrefused flatDisk _ hok).mpr ?_⟩
  intro r hr hnested
  rcases Disk.isDir_iff.mp hr.isDir with ⟨modified, hin⟩
  rcases hflat _ hin with hfew | hnone
  · exact hfew
  · rcases hnested with ⟨q, hq, hne, hupdates⟩
    exact absurd (hnone q ((List.mem_inits q r).mpr hq) hne) hupdates

/-- An update of the repository `ghaf`, and three of the repository `ghaf/tools`. -/
def nestedDisk : Disk where
  entries := [([], .dir none), (["ghaf"], .dir none)] ++ downloaded ["ghaf", "v1"] 1 ++
    [(["ghaf", "tools"], .dir none)] ++ downloaded ["ghaf", "tools", "v1"] 1 ++
    downloaded ["ghaf", "tools", "v2"] 2 ++ downloaded ["ghaf", "tools", "v3"] 3
  nodup := by decide
  closed := by decide

/-- The run succeeds and removes nothing: the loop stops at `ghaf`. -/
theorem pruneDownloadedUpdates_skips_nested :
    pruneDownloadedUpdates unrefused nestedDisk = .ok nestedDisk ∧
      Repository nestedDisk ["ghaf", "tools"] ∧
      (updates nestedDisk ["ghaf", "tools"]).length = 3 ∧
      ¬ Pruned nestedDisk nestedDisk := by
  have hlength : (updates nestedDisk ["ghaf", "tools"]).length = 3 := by decide
  have hrepository : Repository nestedDisk ["ghaf", "tools"] := by
    constructor
    · decide
    · intro dir hdir
      have hinits : ∀ dir ∈ ["ghaf", "tools"].inits, ¬ IsUpdate nestedDisk dir := by decide
      exact hinits dir ((List.mem_inits dir _).mpr hdir)
    · decide
  refine ⟨rfl, hrepository, hlength, ?_⟩
  intro hpruned
  have hkept := (hpruned.keeps _ hrepository).length
  rw [hlength] at hkept
  exact absurd hkept (by decide)

end GhafGivc.Pull
