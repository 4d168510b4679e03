import Mathlib.Data.List.Nodup
import Mathlib.Algebra.Order.BigOperators.Group.List
import Mathlib.Data.List.Infix

/-! # A finite tree of files

Locations are relative to the root of the tree, which is the empty one. What a directory
has to say about its subdirectories is found at or below it, so that a removal elsewhere
does not change it.
-/

namespace Core

abbrev Location := List String

inductive DiskNode where
  | file (content : List UInt8)
  | dir (modified : Option Nat)
deriving DecidableEq

def DiskNode.isDir : DiskNode → Bool
  | .file _ => false
  | .dir _ => true

/-- Every location occurs once, and lies in a directory. -/
structure Disk where
  entries : List (Location × DiskNode)
  nodup : (entries.map Prod.fst).Nodup
  closed : ∀ entry ∈ entries, entry.1 ≠ [] →
    (entries.any fun up => up.1 = entry.1.dropLast ∧ up.2.isDir) = true

namespace Disk

@[ext] theorem ext {disk disk' : Disk} (h : disk.entries = disk'.entries) : disk = disk' := by
  cases disk
  cases disk'
  cases h
  rfl

def node (disk : Disk) (p : Location) : Option DiskNode :=
  (disk.entries.find? fun entry => entry.1 = p).map Prod.snd

def tryExists (disk : Disk) (p : Location) : Bool := (disk.node p).isSome

def isDir (disk : Disk) (p : Location) : Bool :=
  match disk.node p with
  | some (.dir _) => true
  | _ => false

def modified (disk : Disk) (p : Location) : Option Nat :=
  match disk.node p with
  | some (.dir modified) => modified
  | _ => none

def subdirs (disk : Disk) (p : Location) : List Location :=
  (disk.entries.filter fun entry =>
    entry.2.isDir ∧ entry.1 ≠ [] ∧ entry.1.dropLast = p).map Prod.fst

/-- What is left without the locations for which `gone` holds. -/
def without (disk : Disk) (gone : Location → Bool)
    (hgone : ∀ p, p ≠ [] → gone p.dropLast = true → gone p = true) : Disk where
  entries := disk.entries.filter fun entry => !gone entry.1
  nodup := (List.filter_sublist.map Prod.fst).nodup disk.nodup
  closed := by
    intro entry hin hne
    rw [List.mem_filter] at hin
    rcases List.any_eq_true.mp (disk.closed entry hin.1 hne) with ⟨up, hup, hdir⟩
    refine List.any_eq_true.mpr ⟨up, List.mem_filter.mpr ⟨hup, ?_⟩, hdir⟩
    have hparent : up.1 = entry.1.dropLast := (of_decide_eq_true hdir).1
    cases hgo : gone up.1 with
    | false => rfl
    | true =>
        rw [hparent] at hgo
        simp [hgone entry.1 hne hgo] at hin

def removeDirAll (disk : Disk) (dir : Location) : Disk :=
  disk.without (fun p => dir.isPrefixOf p) fun p _ h => by
    rw [List.isPrefixOf_iff_prefix] at h ⊢
    exact h.trans <| List.dropLast_prefix p

section Entries

variable {disk disk' : Disk} {p s : Location}

theorem mem_subdirs {dir : Location} : dir ∈ disk.subdirs p ↔
    ∃ name modified, dir = p ++ [name] ∧ (dir, .dir modified) ∈ disk.entries := by
  simp only [subdirs, List.mem_map, List.mem_filter, decide_eq_true_eq]
  constructor
  · intro h
    rcases h with ⟨⟨q, node⟩, ⟨hin, hdir, hne, hparent⟩, rfl⟩
    cases node with
    | file content => cases hdir
    | dir modified =>
        refine ⟨q.getLast hne, modified, ?_, hin⟩
        rw [← hparent]
        exact (List.dropLast_append_getLast hne).symm
  · intro h
    rcases h with ⟨name, modified, rfl, hin⟩
    exact ⟨(p ++ [name], .dir modified), ⟨hin, rfl, by simp, by simp⟩, rfl⟩

theorem nodup_subdirs : (disk.subdirs p).Nodup :=
  (List.filter_sublist.map Prod.fst).nodup disk.nodup

theorem node_eq_some {node : DiskNode} :
    disk.node p = some node ↔ (p, node) ∈ disk.entries := by
  unfold Disk.node
  rw [Option.map_eq_some_iff]
  constructor
  · intro h
    rcases h with ⟨⟨q, node⟩, hfind, rfl⟩
    have hkey := List.find?_some hfind
    cases of_decide_eq_true hkey
    exact List.mem_of_find?_eq_some hfind
  · intro hin
    have hsome : (disk.entries.find? fun entry => entry.1 = p).isSome = true := by
      rw [List.find?_isSome]
      exact ⟨(p, node), hin, by simp⟩
    rcases Option.isSome_iff_exists.mp hsome with ⟨entry, hfind⟩
    have hkey := List.find?_some hfind
    have heq := List.inj_on_of_nodup_map disk.nodup (List.mem_of_find?_eq_some hfind) hin
      (of_decide_eq_true hkey)
    exact ⟨entry, hfind, congrArg Prod.snd heq⟩

theorem tryExists_iff : disk.tryExists p = true ↔ ∃ node, (p, node) ∈ disk.entries := by
  unfold tryExists
  rw [Option.isSome_iff_exists]
  exact exists_congr fun _ => node_eq_some

theorem isDir_iff : disk.isDir p = true ↔ ∃ modified, (p, .dir modified) ∈ disk.entries := by
  unfold isDir
  simp only [← node_eq_some]
  cases disk.node p with
  | none => simp
  | some node => cases node <;> simp

theorem isDir_of_concat {name : String} (h : disk.isDir (p ++ [name]) = true) :
    disk.isDir p = true := by
  rcases isDir_iff.mp h with ⟨modified, hin⟩
  rcases List.any_eq_true.mp (disk.closed _ hin (by simp)) with ⟨⟨q, node⟩, hup, hdir⟩
  rcases of_decide_eq_true hdir with ⟨heq, hdir⟩
  rw [List.dropLast_concat] at heq
  cases node with
  | file content => cases hdir
  | dir modified => exact isDir_iff.mpr ⟨modified, heq ▸ hup⟩

theorem isDir_of_isPrefix {q : Location} (h : disk.isDir p = true) (hq : q <+: p) :
    disk.isDir q = true := by
  rcases hq with ⟨names, rfl⟩
  induction names using List.reverseRecOn with
  | nil => simpa using h
  | append_singleton names name ih =>
      rw [← List.append_assoc] at h
      exact ih (isDir_of_concat h)

def below (disk : Disk) (s : Location) : List (Location × DiskNode) :=
  disk.entries.filter fun entry => s.isPrefixOf entry.1

theorem node_eq_of_below (h : disk.below s = disk'.below s) (hp : s <+: p) :
    disk.node p = disk'.node p := by
  have hfind : ∀ disk : Disk, disk.node p =
      ((disk.below s).find? fun entry => entry.1 = p).map Prod.snd := by
    intro disk
    rw [below, List.find?_filter, node]
    congr 2
    funext entry
    by_cases heq : entry.1 = p
    · simp [heq, List.isPrefixOf_iff_prefix.mpr hp]
    · simp [heq]
  rw [hfind disk, hfind disk', h]

theorem subdirs_eq_of_below (h : disk.below s = disk'.below s) (hp : s <+: p) :
    disk.subdirs p = disk'.subdirs p := by
  have hfilter : ∀ disk : Disk, disk.subdirs p = ((disk.below s).filter fun entry =>
      entry.2.isDir ∧ entry.1 ≠ [] ∧ entry.1.dropLast = p).map Prod.fst := by
    intro disk
    rw [below, List.filter_filter, subdirs]
    congr 2
    funext entry
    by_cases hparent : entry.1.dropLast = p
    · have hbelow : s <+: entry.1 := by
        rw [← hparent] at hp
        exact hp.trans <| List.dropLast_prefix entry.1
      simp [List.isPrefixOf_iff_prefix.mpr hbelow]
    · simp [hparent]
  rw [hfilter disk, hfilter disk', h]

theorem isDir_eq_of_below (h : disk.below s = disk'.below s) (hp : s <+: p) :
    disk.isDir p = disk'.isDir p := by
  rw [isDir, isDir, node_eq_of_below h hp]

end Entries

/-- Neither location lies at or below the other. -/
def Beside (a b : Location) : Prop := ¬ a <+: b ∧ ¬ b <+: a

theorem Beside.symm {a b : Location} (h : Beside a b) : Beside b a := ⟨h.2, h.1⟩

theorem Beside.mono_left {a a' b : Location} (h : Beside a b) (ha : a <+: a') :
    Beside a' b := by
  constructor
  · intro hle
    exact h.1 (ha.trans hle)
  · intro hle
    rcases List.prefix_or_prefix_of_prefix ha hle with hup | hdown
    · exact h.1 hup
    · exact h.2 hdown

theorem beside_of_mem_subdirs {disk : Disk} {p a b : Location} (ha : a ∈ disk.subdirs p)
    (hb : b ∈ disk.subdirs p) (hne : a ≠ b) : Beside a b := by
  rcases mem_subdirs.mp ha with ⟨_, _, ha, -⟩
  rcases mem_subdirs.mp hb with ⟨_, _, hb, -⟩
  have hlength : a.length = b.length := by simp [ha, hb]
  constructor
  · intro hle
    exact hne (hle.eq_of_length hlength)
  · intro hle
    exact hne (hle.eq_of_length hlength.symm).symm

/-- `disk'` is `disk` without the locations for which `gone` holds. -/
structure Removal (disk disk' : Disk) (gone : Location → Prop) : Prop where
  sublist : disk'.entries.Sublist disk.entries
  mem_iff : ∀ entry, entry ∈ disk'.entries ↔ entry ∈ disk.entries ∧ ¬ gone entry.1

section Remove

variable {disk disk' disk'' : Disk} {gone gone' : Location → Prop} {p s : Location}

theorem removal_foldl_removeDirAll (disk : Disk) (dirs : List Location) :
    Removal disk (dirs.foldl removeDirAll disk) fun p => ∃ dir ∈ dirs, dir <+: p := by
  have hentries : (dirs.foldl removeDirAll disk).entries =
      disk.entries.filter fun entry => !dirs.any fun dir => dir.isPrefixOf entry.1 := by
    induction dirs generalizing disk with
    | nil => simp
    | cons dir dirs ih =>
        rw [List.foldl_cons, ih, removeDirAll, without, List.filter_filter]
        congr 1
        funext entry
        simp [Bool.and_comm]
  constructor
  · rw [hentries]
    exact List.filter_sublist
  · intro entry
    rw [hentries, List.mem_filter]
    simp [List.isPrefixOf_iff_prefix]

namespace Removal

theorem congr (h : Removal disk disk' gone) (hgone : ∀ p, gone p ↔ gone' p) :
    Removal disk disk' gone' := by
  have heq : gone = gone' := funext fun p => propext (hgone p)
  exact heq ▸ h

theorem of_none (disk : Disk) (hnone : ∀ p, ¬ gone p) : Removal disk disk gone := by
  constructor
  · exact List.Sublist.refl _
  · intro entry
    exact (and_iff_left (hnone entry.1)).symm

theorem trans (h : Removal disk disk' gone) (h' : Removal disk' disk'' gone') :
    Removal disk disk'' fun p => gone p ∨ gone' p := by
  constructor
  · exact h'.sublist.trans h.sublist
  · intro entry
    rw [h'.mem_iff, h.mem_iff, not_or, and_assoc]

theorem eq_of_none (h : Removal disk disk' gone) (hnone : ∀ p, ¬ gone p) : disk' = disk := by
  have hsubset : disk.entries ⊆ disk'.entries := by
    intro entry hin
    exact (h.mem_iff entry).mpr ⟨hin, hnone _⟩
  have hperm := List.subperm_of_subset disk.nodup.of_map hsubset
  exact ext (h.sublist.eq_of_length_le hperm.length_le)

theorem node_eq (h : Removal disk disk' gone) (hp : ¬ gone p) :
    disk'.node p = disk.node p := by
  ext node
  rw [node_eq_some, node_eq_some, h.mem_iff]
  exact and_iff_left hp

theorem tryExists_iff (h : Removal disk disk' gone) :
    disk'.tryExists p = true ↔ disk.tryExists p = true ∧ ¬ gone p := by
  rw [Disk.tryExists_iff, Disk.tryExists_iff, ← exists_and_right]
  exact exists_congr fun node => h.mem_iff (p, node)

theorem mem_subdirs_iff {dir : Location} (h : Removal disk disk' gone) :
    dir ∈ disk'.subdirs p ↔ dir ∈ disk.subdirs p ∧ ¬ gone dir := by
  rw [mem_subdirs, mem_subdirs]
  constructor
  · intro hin
    rcases hin with ⟨name, modified, hname, hin⟩
    have hkept := (h.mem_iff _).mp hin
    exact ⟨⟨name, modified, hname, hkept.1⟩, hkept.2⟩
  · intro hin
    rcases hin with ⟨⟨name, modified, hname, hin⟩, hkept⟩
    exact ⟨name, modified, hname, (h.mem_iff _).mpr ⟨hin, hkept⟩⟩

theorem below_eq (h : Removal disk disk' gone) (hs : ∀ p, s <+: p → ¬ gone p) :
    disk'.below s = disk.below s := by
  have hsublist : (disk'.below s).Sublist (disk.below s) := h.sublist.filter _
  have hsubset : disk.below s ⊆ disk'.below s := by
    intro entry hin
    rcases List.mem_filter.mp hin with ⟨hin, hbelow⟩
    have hkept := hs entry.1 (List.isPrefixOf_iff_prefix.mp hbelow)
    exact List.mem_filter.mpr ⟨(h.mem_iff entry).mpr ⟨hin, hkept⟩, hbelow⟩
  have hnodup : (disk.below s).Nodup := disk.nodup.of_map.filter _
  exact hsublist.eq_of_length_le (List.subperm_of_subset hnodup hsubset).length_le

end Removal

theorem below_foldl_removeDirAll {dirs : List Location} (h : ∀ dir ∈ dirs, Beside dir s) :
    (dirs.foldl removeDirAll disk).below s = disk.below s := by
  refine (removal_foldl_removeDirAll disk dirs).below_eq fun p hs hgone => ?_
  rcases hgone with ⟨dir, hdir, hle⟩
  have hbeside := (h dir hdir).mono_left hle
  exact hbeside.2 hs

end Remove

end Disk

end Core
