import GhafGivc.Core.Disk
import GhafGivc.Core.Fallible
import Mathlib.Data.List.Sort

/-! # Removal of old downloads

`prune_downloaded_updates` walks down from the destination root. In a directory that has
update directories it keeps the two newest, and goes no further down from there. The lock
file of the root is not among the entries, and neither is the time of a directory that
loses one: such a directory is no update directory that is looked at in the same run.
-/

namespace GhafGivc.Pull

open Core

/-- The calls that the file system refuses in one run, by the path they are for. -/
structure PruneAnswers where
  lock : Option String
  tryExists : Location → Option String
  readDir : Location → Option String
  nextEntry : Location → Option String
  metadata : Location → Option String
  removeDirAll : Location → Option String

inductive PruneError where
  | io (cause : String)
  | lock (cause : String)
  | readingDirectory (dir : Location) (cause : String)
  | removingStaleUpdateDir (dir : Location) (cause : String)
  | outOfFuel
deriving DecidableEq

def answered (refused : Option String) (error : String → PruneError) : Except PruneError Unit :=
  match refused with
  | none => .ok ()
  | some cause => .error (error cause)

def keepPerRepository : Nat := 2

def readSubdirs (answers : PruneAnswers) (disk : Disk) (current : Location) :
    Except PruneError (List Location) := do
  answered (answers.readDir current) (.readingDirectory current)
  if disk.isDir current then do
    answered (answers.nextEntry current) .io
    pure (disk.subdirs current)
  else throw (.readingDirectory current "Not a directory (os error 20)")

def manifestIn (dir : Location) : Location := dir ++ ["manifest.json"]

/-- The subdirectories with a `manifest.json`, and when they were modified. -/
def collectTags (answers : PruneAnswers) (disk : Disk) :
    List Location → Except PruneError (List (Location × Option Nat))
  | [] => pure []
  | subdir :: subdirs => do
      answered (answers.tryExists (manifestIn subdir)) .io
      if disk.tryExists (manifestIn subdir) then do
        answered (answers.metadata subdir) .io
        let tags ← collectTags answers disk subdirs
        pure ((subdir, disk.modified subdir) :: tags)
      else collectTags answers disk subdirs

/-- The order of `Option<SystemTime>`: without a time, a directory is older than any. -/
def AtLeastAsNew : Option Nat → Option Nat → Prop
  | _, none => True
  | none, some _ => False
  | some a, some b => b ≤ a

instance : DecidableRel AtLeastAsNew
  | _, none => .isTrue (by unfold AtLeastAsNew; split <;> trivial)
  | none, some _ => .isFalse id
  | some a, some b => inferInstanceAs (Decidable (b ≤ a))

def NewerFirst (a b : Location × Option Nat) : Prop := AtLeastAsNew a.2 b.2

instance : DecidableRel NewerFirst := fun a b => inferInstanceAs (Decidable (AtLeastAsNew a.2 b.2))

theorem AtLeastAsNew.total (a b : Option Nat) : AtLeastAsNew a b ∨ AtLeastAsNew b a := by
  cases a <;> cases b <;> simp [AtLeastAsNew, Nat.le_total]

theorem AtLeastAsNew.trans {a b c : Option Nat} (hab : AtLeastAsNew a b)
    (hbc : AtLeastAsNew b c) : AtLeastAsNew a c := by
  cases a <;> cases b <;> cases c <;> simp_all [AtLeastAsNew]
  exact Nat.le_trans hbc hab

instance : Std.Total NewerFirst := ⟨fun a b => AtLeastAsNew.total a.2 b.2⟩

instance : IsTrans (Location × Option Nat) NewerFirst := ⟨fun _ _ _ => AtLeastAsNew.trans⟩

def removeStale (answers : PruneAnswers) (disk : Disk) :
    List (Location × Option Nat) → Except PruneError Disk
  | [] => pure disk
  | (dir, _) :: tags => do
      answered (answers.removeDirAll dir) (.removingStaleUpdateDir dir)
      removeStale answers (disk.removeDirAll dir) tags

/-- The loop over the stack, whose top is the head of the list. -/
def pruneLoop (answers : PruneAnswers) : Nat → Disk → List Location → Except PruneError Disk
  | _, disk, [] => pure disk
  | 0, _, _ :: _ => throw .outOfFuel
  | fuel + 1, disk, current :: stack => do
      let subdirs ← readSubdirs answers disk current
      let tags ← collectTags answers disk subdirs
      if tags ≠ [] then do
        -- `sort_by` is stable, as the insertion sort is
        let sorted := tags.insertionSort NewerFirst
        let disk ← removeStale answers disk (sorted.drop keepPerRepository)
        pruneLoop answers fuel disk stack
      else pruneLoop answers fuel disk (subdirs.reverse ++ stack)

def pruneDownloadedUpdates (answers : PruneAnswers) (disk : Disk) : Except PruneError Disk := do
  answered (answers.tryExists []) .io
  if disk.tryExists [] then do
    answered answers.lock .lock
    pruneLoop answers disk.entries.length disk [[]]
  else pure disk

def IsUpdate (disk : Disk) (dir : Location) : Prop :=
  disk.isDir dir = true ∧ disk.tryExists (manifestIn dir) = true

instance (disk : Disk) (dir : Location) : Decidable (IsUpdate disk dir) :=
  inferInstanceAs (Decidable (_ ∧ _))

def updates (disk : Disk) (r : Location) : List Location :=
  (disk.subdirs r).filter fun dir => disk.tryExists (manifestIn dir)

def sortedUpdates (disk : Disk) (r : Location) : List (Location × Option Nat) :=
  ((updates disk r).map fun dir => (dir, disk.modified dir)).insertionSort NewerFirst

def recent (disk : Disk) (r : Location) : List Location :=
  ((sortedUpdates disk r).take keepPerRepository).map Prod.fst

def stale (disk : Disk) (r : Location) : List Location :=
  ((sortedUpdates disk r).drop keepPerRepository).map Prod.fst

section Updates

variable {disk disk' : Disk} {r s dir : Location}

theorem mem_updates : dir ∈ updates disk r ↔ ∃ name, dir = r ++ [name] ∧ IsUpdate disk dir := by
  unfold updates IsUpdate
  rw [List.mem_filter, Disk.mem_subdirs, Disk.isDir_iff]
  constructor
  · intro h
    rcases h with ⟨⟨name, modified, heq, hin⟩, hmanifest⟩
    exact ⟨name, heq, ⟨modified, hin⟩, hmanifest⟩
  · intro h
    rcases h with ⟨name, heq, ⟨modified, hin⟩, hmanifest⟩
    exact ⟨⟨name, modified, heq, hin⟩, hmanifest⟩

theorem nodup_updates : (updates disk r).Nodup := Disk.nodup_subdirs.filter _

theorem perm_updates : (recent disk r ++ stale disk r).Perm (updates disk r) := by
  unfold recent stale sortedUpdates
  rw [← List.map_append, List.take_append_drop]
  have hperm := (List.perm_insertionSort NewerFirst
    ((updates disk r).map fun dir => (dir, disk.modified dir))).map Prod.fst
  rw [List.map_map] at hperm
  simpa [Function.comp_def] using hperm

theorem nodup_recent_append_stale : (recent disk r ++ stale disk r).Nodup :=
  perm_updates.nodup_iff.mpr nodup_updates

theorem nodup_recent : (recent disk r).Nodup := nodup_recent_append_stale.of_append_left

theorem disjoint_recent_stale : (recent disk r).Disjoint (stale disk r) :=
  List.disjoint_of_nodup_append nodup_recent_append_stale

theorem mem_recent : dir ∈ recent disk r ↔ dir ∈ updates disk r ∧ dir ∉ stale disk r := by
  rw [← perm_updates.mem_iff, List.mem_append]
  constructor
  · intro h
    exact ⟨.inl h, fun hstale => disjoint_recent_stale h hstale⟩
  · intro h
    exact h.1.resolve_right h.2

theorem mem_updates_of_mem_stale (h : dir ∈ stale disk r) : dir ∈ updates disk r :=
  perm_updates.mem_iff.mp (List.mem_append_right _ h)

theorem length_recent : (recent disk r).length = min 2 (updates disk r).length := by
  simp [recent, sortedUpdates, keepPerRepository]

theorem stale_eq_nil (h : (updates disk r).length ≤ 2) : stale disk r = [] := by
  unfold stale
  rw [List.map_eq_nil_iff, List.drop_eq_nil_iff]
  simpa [sortedUpdates, keepPerRepository] using h

theorem atLeastAsNew_of_mem {new old : Location} (hnew : new ∈ recent disk r)
    (hold : old ∈ stale disk r) : AtLeastAsNew (disk.modified new) (disk.modified old) := by
  have hmodified : ∀ tag ∈ sortedUpdates disk r, tag.2 = disk.modified tag.1 := by
    intro tag hin
    rcases List.mem_map.mp ((List.mem_insertionSort NewerFirst).mp hin) with ⟨dir, -, rfl⟩
    rfl
  have hpairwise : (sortedUpdates disk r).Pairwise NewerFirst :=
    List.pairwise_insertionSort NewerFirst _
  rcases List.mem_map.mp hnew with ⟨kept, hkept, rfl⟩
  rcases List.mem_map.mp hold with ⟨gone, hgone, rfl⟩
  rw [← List.take_append_drop keepPerRepository (sortedUpdates disk r),
    List.pairwise_append] at hpairwise
  have hnewer : NewerFirst kept gone := hpairwise.2.2 kept hkept gone hgone
  rw [← hmodified kept (List.mem_of_mem_take hkept),
    ← hmodified gone (List.mem_of_mem_drop hgone)]
  exact hnewer

theorem updates_eq_of_below (h : disk.below s = disk'.below s) (hr : s <+: r) :
    updates disk r = updates disk' r := by
  unfold updates
  rw [Disk.subdirs_eq_of_below h hr]
  apply List.filter_congr
  intro dir hdir
  rcases Disk.mem_subdirs.mp hdir with ⟨name, _, rfl, -⟩
  have hmanifest : r <+: manifestIn (r ++ [name]) :=
    (List.prefix_append r _).trans (List.prefix_append _ _)
  rw [Disk.tryExists, Disk.tryExists, Disk.node_eq_of_below h (hr.trans hmanifest)]

theorem stale_eq_of_below (h : disk.below s = disk'.below s) (hr : s <+: r) :
    stale disk r = stale disk' r := by
  have htags : ((updates disk r).map fun dir => (dir, disk.modified dir)) =
      (updates disk' r).map fun dir => (dir, disk'.modified dir) := by
    rw [updates_eq_of_below h hr]
    apply List.map_congr_left
    intro dir hdir
    rcases mem_updates.mp hdir with ⟨name, rfl, -⟩
    rw [Disk.modified, Disk.modified, Disk.node_eq_of_below h (hr.trans (List.prefix_append r _))]
  unfold stale sortedUpdates
  rw [htags]

end Updates

/-- The errors that a refused call gives. -/
def Refused (answers : PruneAnswers) : PruneError → Prop
  | .io cause => ∃ p, answers.tryExists p = some cause ∨ answers.nextEntry p = some cause ∨
      answers.metadata p = some cause
  | .lock cause => answers.lock = some cause
  | .readingDirectory dir cause => answers.readDir dir = some cause
  | .removingStaleUpdateDir dir cause => answers.removeDirAll dir = some cause
  | .outOfFuel => False

/-- The result is `a`, unless a call is refused. -/
def Yields {α : Type} (answers : PruneAnswers) (x : Except PruneError α) (a : α) : Prop :=
  (∃ e, Refused answers e ∧ x = .error e) ∨ x = .ok a

section Yields

variable {α β : Type} {answers : PruneAnswers} {disk : Disk} {current : Location}

theorem yields_pure (a : α) : Yields answers (pure a) a := .inr rfl

theorem Yields.bind {x : Except PruneError α} {a : α} {f : α → Except PruneError β} {b : β}
    (hx : Yields answers x a) (hf : Yields answers (f a) b) : Yields answers (x >>= f) b := by
  rcases hx with ⟨e, hrefused, rfl⟩ | rfl
  · exact .inl ⟨e, hrefused, rfl⟩
  · exact hf

theorem Yields.answered_bind {refused : Option String} {error : String → PruneError}
    {f : Unit → Except PruneError β} {b : β}
    (h : ∀ cause, refused = some cause → Refused answers (error cause))
    (hf : Yields answers (f ()) b) : Yields answers (answered refused error >>= f) b := by
  cases refused with
  | none => exact hf
  | some cause => exact .inl ⟨error cause, h cause rfl, rfl⟩

theorem readSubdirs_yields (hdir : disk.isDir current = true) :
    Yields answers (readSubdirs answers disk current) (disk.subdirs current) := by
  unfold readSubdirs
  rw [if_pos hdir]
  apply Yields.answered_bind
  · intro cause h
    exact h
  · apply Yields.answered_bind
    · intro cause h
      exact ⟨current, .inr (.inl h)⟩
    · exact yields_pure _

theorem collectTags_yields (subdirs : List Location) :
    Yields answers (collectTags answers disk subdirs)
      ((subdirs.filter fun dir => disk.tryExists (manifestIn dir)).map
        fun dir => (dir, disk.modified dir)) := by
  induction subdirs with
  | nil => exact yields_pure _
  | cons subdir subdirs ih =>
      unfold collectTags
      rw [List.filter_cons]
      apply Yields.answered_bind
      · intro cause h
        exact ⟨_, .inl h⟩
      by_cases hmanifest : disk.tryExists (manifestIn subdir) = true
      · rw [if_pos hmanifest, if_pos hmanifest, List.map_cons]
        apply Yields.answered_bind
        · intro cause h
          exact ⟨_, .inr (.inr h)⟩
        · exact ih.bind (yields_pure _)
      · rw [if_neg hmanifest, if_neg hmanifest]
        exact ih

theorem removeStale_yields (disk : Disk) (tags : List (Location × Option Nat)) :
    Yields answers (removeStale answers disk tags)
      ((tags.map Prod.fst).foldl Disk.removeDirAll disk) := by
  induction tags generalizing disk with
  | nil => exact yields_pure _
  | cons tag tags ih =>
      apply Yields.answered_bind
      · intro cause h
        exact h
      · exact ih _

theorem isDir_of_readSubdirs {subdirs : List Location}
    (h : readSubdirs answers disk current = .ok subdirs) : disk.isDir current = true := by
  rcases Fallible.bind_eq_ok.mp h with ⟨-, -, h⟩
  by_cases hdir : disk.isDir current = true
  · exact hdir
  · rw [if_neg hdir] at h
    cases h

theorem pruneLoop_yields {fuel : Nat} {stack : List Location} {disk' : Disk}
    (hdir : disk.isDir current = true)
    (hprune : updates disk current ≠ [] → Yields answers
      (pruneLoop answers fuel ((stale disk current).foldl Disk.removeDirAll disk) stack) disk')
    (hdescend : updates disk current = [] → Yields answers
      (pruneLoop answers fuel disk ((disk.subdirs current).reverse ++ stack)) disk') :
    Yields answers (pruneLoop answers (fuel + 1) disk (current :: stack)) disk' := by
  unfold pruneLoop
  apply Yields.bind (readSubdirs_yields hdir)
  apply Yields.bind (collectTags_yields _)
  change Yields answers (if (updates disk current).map _ ≠ [] then _ else _) disk'
  by_cases hnone : updates disk current = []
  · rw [if_neg (by simp [hnone])]
    exact hdescend hnone
  · rw [if_pos (by simp [hnone])]
    exact Yields.bind (removeStale_yields disk _) (hprune hnone)

end Yields

end GhafGivc.Pull
