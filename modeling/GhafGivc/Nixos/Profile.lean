import GhafGivc.Core.Fallible
import GhafGivc.Core.Path
import GhafGivc.Image.Manifest
import Mathlib.Data.List.Nodup

/-! # Profiles and their generations

A directory of profiles has, for each of them, links to its generations and a link under the
name of the profile that names one of these. What the file system answers about the directory
is data.
-/

namespace GhafGivc.Nixos

open Core

def formatProfileLink (profile : String) (generation : Int) : String :=
  profile ++ "-" ++ toString generation ++ "-link"

def parseProfileLink (profile link : String) : Option Int := do
  let rest ← Text.stripLead profile.toList link.toList
  let rest ← Text.stripLead "-".toList rest
  let number ← Text.stripTrail "-link".toList rest
  Text.parseSigned 32 number

structure ProfileElement where
  num : Int
  storePath : String
  current : Bool
deriving DecidableEq

/-- An entry of the directory: its name, unless it is not text, and what it links to, if it is
a link. -/
structure DirEntry where
  name : Option String
  target : Option String
  targetExists : Bool
deriving DecidableEq

/-- What is read from a directory: the link under the name of a profile, whose target may not
be text, and the entries one by one. No name is listed twice. -/
structure ProfileDir where
  path : String
  readLink : String → Except String (Option String)
  readDir : Except String (List (Except String DirEntry))
  distinct : ∀ entries : List DirEntry, readDir = .ok (entries.map .ok) →
    (∀ entry ∈ entries, entry.name ≠ none) → (entries.map DirEntry.name).Nodup

def element (profile default : String) (entry : DirEntry) : Option ProfileElement := do
  let name ← entry.name
  let num ← parseProfileLink profile name
  let storePath ← entry.target
  guard (Path.isAbsolute storePath.toList ∧ entry.targetExists)
  return ⟨num, storePath, default = name⟩

def readEntries (profile default : String) :
    List (Except String DirEntry) → Except String (List ProfileElement)
  | [] => .ok []
  | .error e :: _ => .error e
  | .ok entry :: later =>
      if entry.name = none then .error "Decode UTF-8 string"
      else do
        let generations ← readEntries profile default later
        return (element profile default entry).toList ++ generations

/-- The message of the third error is not formatted. -/
def readProfileLinks (dir : ProfileDir) (profile : String) :
    Except String (Int × List ProfileElement) := do
  let target ← (dir.readLink profile).mapError fun _ =>
    "While read symlink " ++ Image.joinPath dir.path profile
  let default ← target.elim (throw "decode UTF-8 for default profile link") pure
  let generation ← (parseProfileLink profile default).elim
    (throw "Parsing \x7bdefault_target_str\x7d") pure
  let listing ← dir.readDir.mapError fun _ => "while read_dir() on " ++ dir.path
  let generations ← readEntries profile default listing
  return (generation, generations)

/-! ## Names of links -/

theorem parseProfileLink_eq_some {profile link : String} {generation : Int} :
    parseProfileLink profile link = some generation ↔
      ∃ number, link.toList = profile.toList ++ '-' :: (number ++ "-link".toList) ∧
        Text.parseSigned 32 number = some generation := by
  unfold parseProfileLink
  simp only [bind, Option.bind_eq_some_iff, Text.stripLead_eq_some, Text.stripTrail_eq_some]
  constructor
  · intro h
    rcases h with ⟨_, hlink, _, rfl, number, rfl, hnumber⟩
    exact ⟨number, hlink, hnumber⟩
  · intro h
    rcases h with ⟨number, hlink, hnumber⟩
    exact ⟨_, hlink, _, rfl, number, rfl, hnumber⟩

theorem toList_formatProfileLink (profile : String) (generation : Int) :
    (formatProfileLink profile generation).toList =
      profile.toList ++ '-' :: ((toString generation).toList ++ "-link".toList) := by
  simp [formatProfileLink]

theorem parseProfileLink_format {profile other : String} {generation read : Int} :
    parseProfileLink profile (formatProfileLink other generation) = some read ↔
      ∃ number, other.toList ++ '-' :: (toString generation).toList =
          profile.toList ++ '-' :: number ∧ Text.parseSigned 32 number = some read := by
  rw [parseProfileLink_eq_some, toList_formatProfileLink]
  constructor
  · intro h
    rcases h with ⟨number, hlink, hnumber⟩
    refine ⟨number, ?_, hnumber⟩
    have happend : (other.toList ++ '-' :: (toString generation).toList) ++ "-link".toList =
        (profile.toList ++ '-' :: number) ++ "-link".toList := by
      simpa using hlink
    exact List.append_cancel_right happend
  · intro h
    rcases h with ⟨number, hlink, hnumber⟩
    refine ⟨number, ?_, hnumber⟩
    have happend := congrArg (· ++ "-link".toList) hlink
    simpa using happend

/-- The number behind the last dash, with or without this dash as its sign. -/
theorem exists_number_iff {text profile : List Char} {n : Nat} (hn : n ≤ 2 ^ 31) {read : Int} :
    (∃ number, text ++ '-' :: (toString n).toList = profile ++ '-' :: number ∧
        Text.parseSigned 32 number = some read) ↔
      (text = profile ∧ n < 2 ^ 31 ∧ read = n) ∨
        (text = profile ++ ['-'] ∧ read = -(n : Int)) := by
  have hdash : '-' ∉ (toString n).toList := Text.notMem_toString (by decide) n
  have hneg : Text.parseSigned 32 ('-' :: (toString n).toList) = some (-n : Int) :=
    Text.parseSigned_neg_toString hn
  constructor
  · intro h
    rcases h with ⟨number, htext, hnumber⟩
    rcases Text.digits_of_parseSigned hnumber with ⟨digits, hdigits, hshape⟩
    have hnodash : '-' ∉ digits := fun hmem => absurd (hdigits _ hmem) (by decide)
    rcases hshape with rfl | rfl | rfl
    · rcases Delimited.append_cons_inj hdash hnodash htext with ⟨rfl, rfl⟩
      exact Or.inl ⟨rfl, Text.parseSigned_toString_eq_some.mp hnumber⟩
    · have hplus : '+' ∉ (toString n).toList := Text.notMem_toString (by decide) n
      have heq := (Delimited.append_cons_inj hdash (by simpa using hnodash) htext).2
      exact absurd (heq ▸ List.mem_cons_self) hplus
    · have htext' : text ++ '-' :: (toString n).toList = (profile ++ ['-']) ++ '-' :: digits := by
        simpa using htext
      rcases Delimited.append_cons_inj hdash hnodash htext' with ⟨rfl, rfl⟩
      rw [hneg, Option.some.injEq] at hnumber
      exact Or.inr ⟨rfl, hnumber.symm⟩
  · intro h
    rcases h with ⟨rfl, hlt, rfl⟩ | ⟨rfl, rfl⟩
    · exact ⟨_, rfl, Text.parseSigned_toString_eq_some.mpr ⟨hlt, rfl⟩⟩
    · exact ⟨_, by simp, hneg⟩

/-- A generation that is written after a profile is read back under the profile. Under another
one it is read only if the names differ by a dash at the end, and then with the other sign. -/
theorem link_names_generation {profile other : String} {generation read : Int}
    (hlow : -2 ^ 31 ≤ generation) (hhigh : generation < 2 ^ 31) :
    parseProfileLink profile (formatProfileLink other generation) = some read ↔
      (other = profile ∧ read = generation) ∨
      (other = profile ++ "-" ∧ 0 ≤ generation ∧ read = -generation) ∨
      (profile = other ++ "-" ∧ -2 ^ 31 < generation ∧ generation < 0 ∧ read = -generation) := by
  rw [parseProfileLink_format]
  cases generation with
  | ofNat n =>
      rw [Int.ofNat_eq_natCast] at hhigh ⊢
      have hn : n < 2 ^ 31 := by omega
      have hprinted : toString (n : Int) = toString n := rfl
      rw [hprinted, exists_number_iff hn.le, ← String.toList_inj, ← String.toList_inj,
        ← String.toList_inj]
      simp only [String.toList_append]
      constructor
      · intro h
        cases h with
        | inl h => exact Or.inl ⟨h.1, h.2.2⟩
        | inr h => exact Or.inr (Or.inl ⟨h.1, by omega, h.2⟩)
      · intro h
        rcases h with h | h | h
        · exact Or.inl ⟨h.1, hn, h.2⟩
        · exact Or.inr ⟨h.1, h.2.2⟩
        · omega
  | negSucc n =>
      rw [Int.negSucc_eq] at hlow ⊢
      have hn : n + 1 ≤ 2 ^ 31 := by omega
      have htext : other.toList ++ '-' :: (toString (-((n : Int) + 1))).toList =
          (other.toList ++ ['-']) ++ '-' :: (toString (n + 1)).toList := by
        rw [← Int.negSucc_eq, Text.toList_toString_negSucc]
        simp
      rw [htext, exists_number_iff hn, ← String.toList_inj, ← String.toList_inj,
        ← String.toList_inj]
      simp only [String.toList_append]
      constructor
      · intro h
        cases h with
        | inl h => exact Or.inr (Or.inr ⟨h.1.symm, by omega, by omega, by omega⟩)
        | inr h => exact Or.inl ⟨List.append_cancel_right h.1, by omega⟩
      · intro h
        rcases h with h | h | h
        · exact Or.inr ⟨by rw [h.1], by omega⟩
        · omega
        · exact Or.inl ⟨h.1.symm, by omega, by omega⟩

theorem link_names_generation_dash :
    parseProfileLink "system" (formatProfileLink "system-" 35) = some (-35) :=
  (link_names_generation (by decide) (by decide)).mpr
    (Or.inr (Or.inl ⟨by decide, by decide, by decide⟩))

/-! ## Listing -/

/-- The directory is read, and its link for the profile names this default. -/
structure ProfileDir.Reads (dir : ProfileDir) (profile default : String) (generation : Int)
    (entries : List DirEntry) : Prop where
  link : dir.readLink profile = .ok (some default)
  default : parseProfileLink profile default = some generation
  listing : dir.readDir = .ok (entries.map .ok)
  named : ∀ entry ∈ entries, entry.name ≠ none

theorem element_eq_some {profile default : String} {entry : DirEntry} {g : ProfileElement} :
    element profile default entry = some g ↔ ∃ name, entry.name = some name ∧
      parseProfileLink profile name = some g.num ∧ entry.target = some g.storePath ∧
      Path.isAbsolute g.storePath.toList = true ∧ entry.targetExists = true ∧
      g.current = decide (default = name) := by
  unfold element
  simp only [bind, Option.bind_eq_some_iff, Option.guard_eq_some', pure]
  constructor
  · intro h
    rcases h with ⟨name, hname, num, hnum, storePath, htarget, -, hguard, hg⟩
    cases hg
    exact ⟨name, hname, hnum, htarget, hguard.1, hguard.2, rfl⟩
  · intro h
    rcases h with ⟨name, hname, hnum, htarget, habsolute, hexists, hcurrent⟩
    refine ⟨name, hname, g.num, hnum, g.storePath, htarget, (), ⟨habsolute, hexists⟩, ?_⟩
    rw [← hcurrent]

variable {generations : List ProfileElement}

theorem readEntries_eq_ok {profile default : String} {listing : List (Except String DirEntry)} :
    readEntries profile default listing = .ok generations ↔ ∃ entries : List DirEntry,
      listing = entries.map .ok ∧ (∀ entry ∈ entries, entry.name ≠ none) ∧
        generations = entries.filterMap (element profile default) := by
  induction listing generalizing generations with
  | nil =>
      constructor
      · intro h
        cases h
        exact ⟨[], rfl, by simp, rfl⟩
      · intro h
        rcases h with ⟨entries, hnil, -, rfl⟩
        rw [List.map_eq_nil_iff.mp hnil.symm]
        rfl
  | cons first later ih =>
      cases first with
      | error e =>
          constructor
          · intro h
            cases h
          · intro h
            rcases h with ⟨entries, heq, -, -⟩
            cases entries <;> simp at heq
      | ok entry =>
          rw [readEntries]
          by_cases hname : entry.name = none
          · rw [if_pos hname]
            constructor
            · intro h
              cases h
            · intro h
              rcases h with ⟨entries, heq, hnamed, -⟩
              rcases List.map_eq_cons_iff.mp heq.symm with ⟨_, _, rfl, hfirst, -⟩
              cases hfirst
              exact absurd hname (hnamed entry List.mem_cons_self)
          · rw [if_neg hname, Fallible.bind_eq_ok]
            constructor
            · intro h
              rcases h with ⟨rest, hrest, hgenerations⟩
              rcases ih.mp hrest with ⟨entries, rfl, hnamed, rfl⟩
              cases hgenerations
              refine ⟨entry :: entries, rfl, List.forall_mem_cons.mpr ⟨hname, hnamed⟩, ?_⟩
              rw [List.filterMap_cons]
              cases element profile default entry <;> rfl
            · intro h
              rcases h with ⟨entries, heq, hnamed, rfl⟩
              rcases List.map_eq_cons_iff.mp heq.symm with ⟨_, rest, rfl, hfirst, hlater⟩
              cases hfirst
              have hrest := (List.forall_mem_cons.mp hnamed).2
              refine ⟨_, ih.mpr ⟨rest, hlater.symm, hrest, rfl⟩, ?_⟩
              rw [List.filterMap_cons]
              cases element profile default entry <;> rfl

theorem readProfileLinks_eq_ok {dir : ProfileDir} {profile : String} {generation : Int} :
    readProfileLinks dir profile = .ok (generation, generations) ↔ ∃ default entries,
      dir.Reads profile default generation entries ∧
        generations = entries.filterMap (element profile default) := by
  unfold readProfileLinks
  simp only [Fallible.bind_eq_ok, Fallible.mapError_eq_ok, Fallible.elim_eq_ok, readEntries_eq_ok,
    Fallible.pure_eq, Except.ok.injEq, Prod.mk.injEq]
  constructor
  · intro h
    rcases h with ⟨_, hlink, default, rfl, _, hdefault, _, hlisting, _, ⟨entries, rfl, hnamed, rfl⟩,
      rfl, rfl⟩
    exact ⟨default, entries, ⟨hlink, hdefault, hlisting, hnamed⟩, rfl⟩
  · intro h
    rcases h with ⟨default, entries, hreads, rfl⟩
    exact ⟨_, hreads.link, default, rfl, generation, hreads.default, _, hreads.listing, _,
      ⟨entries, rfl, hreads.named, rfl⟩, rfl, rfl⟩

/-- The link for the profile names a link to the path. -/
def ProfileDir.Points (dir : ProfileDir) (profile path : String) : Prop :=
  ∃ default generation entries, dir.Reads profile default generation entries ∧
    ∃ entry ∈ entries, entry.name = some default ∧ entry.target = some path ∧
      Path.isAbsolute path.toList = true ∧ entry.targetExists = true

section Current

variable {dir : ProfileDir} {profile default : String} {generation : Int}
  {entries : List DirEntry} {g : ProfileElement}

theorem find_current (h : dir.Reads profile default generation entries) :
    (entries.filterMap (element profile default)).find? ProfileElement.current = some g ↔
      ∃ entry ∈ entries, entry.name = some default ∧ element profile default entry = some g := by
  have hunique (a b : DirEntry) (ha : a ∈ entries) (hb : b ∈ entries)
      (hname : a.name = b.name) : a = b :=
    List.inj_on_of_nodup_map (dir.distinct entries h.listing h.named) ha hb hname
  have hcurrent {b : ProfileElement} (hb : b ∈ entries.filterMap (element profile default))
      (hset : b.current = true) : ∃ entry ∈ entries, entry.name = some default ∧
        element profile default entry = some b := by
    rcases List.mem_filterMap.mp hb with ⟨entry, hentry, helement⟩
    rcases element_eq_some.mp helement with ⟨name, hname, -, -, -, -, hcurrent⟩
    rw [hset, eq_comm, decide_eq_true_eq] at hcurrent
    exact ⟨entry, hentry, hcurrent ▸ hname, helement⟩
  constructor
  · intro hfind
    exact hcurrent (List.mem_of_find?_eq_some hfind) (List.find?_some hfind)
  · intro hentry
    rcases hentry with ⟨entry, hmem, hname, helement⟩
    have hg : g ∈ entries.filterMap (element profile default) :=
      List.mem_filterMap.mpr ⟨entry, hmem, helement⟩
    cases hfind : (entries.filterMap (element profile default)).find? ProfileElement.current with
    | none =>
        rcases element_eq_some.mp helement with ⟨name, hname', -, -, -, -, hset⟩
        rw [hname, Option.some.injEq] at hname'
        rw [decide_eq_true hname'] at hset
        exact absurd hset (List.find?_eq_none.mp hfind g hg)
    | some b =>
        rcases hcurrent (List.mem_of_find?_eq_some hfind) (List.find?_some hfind) with
          ⟨other, hother, hothername, hotherelement⟩
        rw [hunique other entry hother hmem (hothername.trans hname.symm), helement]
          at hotherelement
        exact hotherelement.symm

theorem find_current_storePath (h : dir.Reads profile default generation entries)
    {path : String} : (∃ g, (entries.filterMap (element profile default)).find?
        ProfileElement.current = some g ∧ g.storePath = path) ↔ dir.Points profile path := by
  constructor
  · intro hfind
    rcases hfind with ⟨g, hg, rfl⟩
    rcases (find_current h).mp hg with ⟨entry, hentry, hname, helement⟩
    rcases element_eq_some.mp helement with ⟨-, -, -, htarget, habsolute, hexists, -⟩
    exact ⟨default, generation, entries, h, entry, hentry, hname, htarget, habsolute, hexists⟩
  · intro hpoints
    rcases hpoints with ⟨default', generation', entries', h', entry, hentry, hname, htarget,
      habsolute, hexists⟩
    have hdefault : default' = default := by
      have hlink := h'.link.symm.trans h.link
      cases hlink
      rfl
    have hentries : entries' = entries := by
      have hlisting := h'.listing.symm.trans h.listing
      rw [Except.ok.injEq] at hlisting
      exact List.map_injective_iff.mpr (fun _ _ heq => by cases heq; rfl) hlisting
    subst hdefault hentries
    refine ⟨⟨generation, path, true⟩, (find_current h).mpr ⟨entry, hentry, hname, ?_⟩, rfl⟩
    rw [element_eq_some]
    exact ⟨_, hname, h.default, htarget, habsolute, hexists, by simp⟩

end Current

end GhafGivc.Nixos
