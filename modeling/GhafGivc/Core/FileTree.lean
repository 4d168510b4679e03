import GhafGivc.Core.Path
import Mathlib.Logic.Function.Basic

/-! # Changes to a tree of files

A tree has a directory or a file at some of its paths. A call that the system refuses may
have been carried out in part, if it stands for more than one request to the system, so it
determines the tree after it only up to what it has left undone.
-/

namespace Core

inductive Node where
  | dir
  | file (content : List UInt8)
deriving DecidableEq

abbrev FileTree := Path → Option Node

inductive FileEffect where
  | createDirAll (dir : Path)
  | create (file : Path)
  | write (file : Path) (content : List UInt8)
  | rename (source target : Path)
  | removeFile (file : Path)
  | removeDirAll (dir : Path)
deriving DecidableEq

namespace FileEffect

def apply (tree : FileTree) : FileEffect → FileTree
  | createDirAll dir => fun p => if p <+: dir ∧ tree p = none then some .dir else tree p
  | create file => Function.update tree file (some (.file []))
  | write file content => Function.update tree file (some (.file content))
  | rename source target =>
      Function.update (Function.update tree source none) target (tree source)
  | removeFile file => Function.update tree file none
  | removeDirAll dir => fun p => if dir <+: p then none else tree p

/-- What may stand at `p` when the call was refused. To open, rename or unlink a file is one
request, which is carried out or not. -/
def Leaves (effect : FileEffect) (tree : FileTree) (p : Path) (found : Option Node) : Prop :=
  found = tree p ∨
    match effect with
    | createDirAll _ | removeDirAll _ => found = effect.apply tree p
    | write file content =>
        p = file ∧ ∃ written, written <+: content ∧ found = some (.file written)
    | create _ | rename _ _ | removeFile _ => False

/-- The call may take away or replace what stands at `p`. -/
def Replaces (p : Path) : FileEffect → Prop
  | createDirAll _ => False
  | create file => p = file
  | write file _ => p = file
  | rename source target => p = source ∨ p = target
  | removeFile file => p = file
  | removeDirAll dir => dir <+: p

/-- The call may put `node` at `p`. -/
def Makes (p : Path) (node : Node) : FileEffect → Prop
  | createDirAll dir => p <+: dir ∧ node = .dir
  | create file => p = file
  | write file _ => p = file
  | rename _ target => p = target
  | removeFile _ => False
  | removeDirAll _ => False

/-- The call is about `dir` itself, as a directory, or about paths below it. -/
def Within (dir : Path) : FileEffect → Prop
  | createDirAll d => d = dir ∨ Path.Below dir d
  | create file => Path.Below dir file
  | write file _ => Path.Below dir file
  | rename source target => Path.Below dir source ∧ Path.Below dir target
  | removeFile file => Path.Below dir file
  | removeDirAll d => d = dir

section Paths

variable {effect : FileEffect} {tree : FileTree} {p dir : Path} {node : Node} {found : Option Node}

theorem eq_or_of_update {q : Path} (h : Function.update tree q found p = some node) :
    p = q ∨ tree p = some node := by
  by_cases hp : p = q
  · exact Or.inl hp
  · exact Or.inr ((Function.update_of_ne hp _ _).symm.trans h)

theorem eq_some_of_update_none {q : Path} (h : Function.update tree q none p = some node) :
    tree p = some node := by
  rcases eq_or_of_update h with hp | hkept
  · subst hp
    simp at h
  · exact hkept

theorem Leaves.cases (h : effect.Leaves tree p found) :
    found = tree p ∨ found = effect.apply tree p ∨ ∃ content, effect = write p content := by
  refine h.imp_right fun hpart => ?_
  cases effect with
  | createDirAll _ | removeDirAll _ => exact Or.inl hpart
  | write file content => exact Or.inr ⟨content, by rw [hpart.1]⟩
  | create _ | rename _ _ | removeFile _ => exact hpart.elim

theorem apply_of_not_replaces (h : ¬ effect.Replaces p) (hp : tree p = some node) :
    effect.apply tree p = some node := by
  cases effect with
  | createDirAll d => simp [apply, hp]
  | create file => exact (Function.update_of_ne h _ _).trans hp
  | write file content => exact (Function.update_of_ne h _ _).trans hp
  | rename source target =>
      have hne : p ≠ source ∧ p ≠ target := not_or.mp h
      exact (Function.update_of_ne hne.2 _ _).trans ((Function.update_of_ne hne.1 _ _).trans hp)
  | removeFile file => exact (Function.update_of_ne h _ _).trans hp
  | removeDirAll d => exact (if_neg h).trans hp

theorem makes_of_apply (h : effect.apply tree p = some node) :
    tree p = some node ∨ effect.Makes p node := by
  cases effect with
  | createDirAll d =>
      change (if p <+: d ∧ tree p = none then some .dir else tree p) = some node at h
      split at h
      · rename_i hcreated
        exact Or.inr ⟨hcreated.1, (Option.some.inj h).symm⟩
      · exact Or.inl h
  | create file => exact (eq_or_of_update h).symm
  | write file content => exact (eq_or_of_update h).symm
  | rename source target =>
      rcases eq_or_of_update h with hp | hkept
      · exact Or.inr hp
      · exact Or.inl (eq_some_of_update_none hkept)
  | removeFile file => exact Or.inl (eq_some_of_update_none h)
  | removeDirAll d =>
      change (if d <+: p then none else tree p) = some node at h
      split at h
      · cases h
      · exact Or.inl h

theorem Within.isPrefix_of_replaces (h : effect.Within dir) (hp : effect.Replaces p) :
    dir <+: p := by
  cases effect with
  | createDirAll d => exact hp.elim
  | create file => exact hp ▸ h.isPrefix
  | write file content => exact hp ▸ h.isPrefix
  | rename source target =>
      cases hp with
      | inl hs => exact hs ▸ h.1.isPrefix
      | inr ht => exact ht ▸ h.2.isPrefix
  | removeFile file => exact hp ▸ h.isPrefix
  | removeDirAll d => exact h ▸ hp

theorem Within.not_replaces (h : effect.Within dir) (hp : p <+: dir) (hne : p ≠ dir) :
    ¬ effect.Replaces p := by
  intro hrep
  exact hne (hp.eq_of_length_le (h.isPrefix_of_replaces hrep).length_le)

theorem Within.of_makes (h : effect.Within dir) (hp : effect.Makes p node) :
    p <+: dir ∧ node = .dir ∨ Path.Below dir p := by
  cases effect with
  | createDirAll d =>
      cases h with
      | inl heq => exact Or.inl (heq ▸ hp)
      | inr hbelow =>
          cases hbelow.of_isPrefix hp.1 with
          | inl hway => exact Or.inl ⟨hway, hp.2⟩
          | inr hp => exact Or.inr hp
  | create file => exact Or.inr (hp ▸ h)
  | write file content => exact Or.inr (hp ▸ h)
  | rename source target => exact Or.inr (hp ▸ h.2)
  | removeFile file => exact hp.elim
  | removeDirAll d => exact hp.elim

end Paths

end FileEffect

namespace FileTree

open FileEffect

/-- The tree after a call, which is marked when it was carried out. -/
def Step (tree : FileTree) (event : FileEffect × Bool) (tree' : FileTree) : Prop :=
  match event with
  | (effect, true) => tree' = effect.apply tree
  | (effect, false) => ∀ p, effect.Leaves tree p (tree' p)

def Steps : FileTree → List (FileEffect × Bool) → FileTree → Prop
  | tree, [], tree' => tree' = tree
  | tree, event :: events, tree' => ∃ mid, Step tree event mid ∧ Steps mid events tree'

/-- The tree when every call is carried out. -/
def after (tree : FileTree) (events : List (FileEffect × Bool)) : FileTree :=
  events.foldl (fun tree event => event.1.apply tree) tree

section Steps

variable {tree tree' : FileTree} {event : FileEffect × Bool} {events : List (FileEffect × Bool)}
  {p dir : Path} {node : Node}

theorem Step.keeps (h : Step tree event tree') (hp : ¬ event.1.Replaces p)
    (hnode : tree p = some node) : tree' p = some node := by
  rcases event with ⟨effect, done⟩
  cases done with
  | true =>
      cases h
      exact apply_of_not_replaces hp hnode
  | false =>
      rcases (h p).cases with hkept | hdone | ⟨content, rfl⟩
      · exact hkept.trans hnode
      · exact hdone.trans (apply_of_not_replaces hp hnode)
      · exact absurd rfl hp

theorem Step.makes (h : Step tree event tree') (hnode : tree' p = some node) :
    tree p = some node ∨ event.1.Makes p node := by
  rcases event with ⟨effect, done⟩
  cases done with
  | true =>
      cases h
      exact makes_of_apply hnode
  | false =>
      rcases (h p).cases with hkept | hdone | ⟨content, rfl⟩
      · exact Or.inl (hkept.symm.trans hnode)
      · exact makes_of_apply (hdone.symm.trans hnode)
      · exact Or.inr rfl

theorem Step.eq_of_refused_create {file : Path} (h : Step tree (.create file, false) tree') :
    tree' = tree :=
  funext fun p => (h p).resolve_right not_false

theorem steps_append {later : List (FileEffect × Bool)} : Steps tree (events ++ later) tree' ↔
    ∃ mid, Steps tree events mid ∧ Steps mid later tree' := by
  induction events generalizing tree with
  | nil => simp [Steps]
  | cons event events ih =>
      constructor
      · intro h
        rcases h with ⟨next, hstep, hrest⟩
        rcases ih.mp hrest with ⟨mid, hfirst, hlater⟩
        exact ⟨mid, ⟨next, hstep, hfirst⟩, hlater⟩
      · intro h
        rcases h with ⟨mid, ⟨next, hstep, hfirst⟩, hlater⟩
        exact ⟨next, hstep, ih.mpr ⟨mid, hfirst, hlater⟩⟩

theorem Steps.keeps (h : Steps tree events tree') (hp : ∀ event ∈ events, ¬ event.1.Replaces p)
    (hnode : tree p = some node) : tree' p = some node := by
  induction events generalizing tree with
  | nil =>
      cases h
      exact hnode
  | cons event events ih =>
      rw [List.forall_mem_cons] at hp
      rcases h with ⟨mid, hstep, hrest⟩
      exact ih hrest hp.2 (hstep.keeps hp.1 hnode)

theorem Steps.makes (h : Steps tree events tree') (hnode : tree' p = some node) :
    tree p = some node ∨ ∃ event ∈ events, event.1.Makes p node := by
  induction events generalizing tree with
  | nil =>
      cases h
      exact Or.inl hnode
  | cons event events ih =>
      rcases h with ⟨mid, hstep, hrest⟩
      cases ih hrest with
      | inr hlater =>
          rcases hlater with ⟨later, hin, hmakes⟩
          exact Or.inr ⟨later, List.mem_cons_of_mem event hin, hmakes⟩
      | inl hmid =>
          cases hstep.makes hmid with
          | inl hold => exact Or.inl hold
          | inr hmakes => exact Or.inr ⟨event, List.mem_cons_self, hmakes⟩

theorem steps_after (h : ∀ event ∈ events, event.2 = true) :
    Steps tree events (tree.after events) := by
  induction events generalizing tree with
  | nil => rfl
  | cons event events ih =>
      rcases event with ⟨effect, done⟩
      rw [List.forall_mem_cons] at h
      rcases h with ⟨rfl, hrest⟩
      exact ⟨effect.apply tree, rfl, ih hrest⟩

theorem exists_steps (tree : FileTree) (events : List (FileEffect × Bool)) :
    ∃ tree', Steps tree events tree' := by
  induction events generalizing tree with
  | nil => exact ⟨tree, rfl⟩
  | cons event events ih =>
      rcases event with ⟨effect, done⟩
      cases done with
      | true =>
          rcases ih (effect.apply tree) with ⟨tree', hrest⟩
          exact ⟨tree', effect.apply tree, rfl, hrest⟩
      | false =>
          rcases ih tree with ⟨tree', hrest⟩
          exact ⟨tree', tree, fun _ => Or.inl rfl, hrest⟩

def Above (tree : FileTree) (dir : Path) : Prop := ∀ q, q <+: dir → q ≠ dir → tree q ≠ none

/-- The tree that has nothing but the way to `dir`. -/
def only (dir : Path) : FileTree := fun p => if p <+: dir then some .dir else none

theorem above_only (dir : Path) : Above (only dir) dir := by
  intro q hq _
  simp [only, hq]

theorem Step.above (h : Step tree event tree') (hw : event.1.Within dir) (ha : Above tree dir) :
    Above tree' dir := by
  intro q hq hne
  rcases Option.ne_none_iff_exists'.mp (ha q hq hne) with ⟨node, hnode⟩
  rw [h.keeps (hw.not_replaces hq hne) hnode]
  exact Option.some_ne_none node

theorem Steps.within (h : Steps tree events tree') (hw : ∀ event ∈ events, event.1.Within dir)
    (ha : Above tree dir) (hnode : tree' p = some node) :
    tree p = some node ∨ (p = dir ∧ node = .dir) ∨ Path.Below dir p := by
  induction events generalizing tree with
  | nil =>
      cases h
      exact Or.inl hnode
  | cons event events ih =>
      rw [List.forall_mem_cons] at hw
      rcases h with ⟨mid, hstep, hrest⟩
      cases ih hrest hw.2 (hstep.above hw.1 ha) with
      | inr hnew => exact Or.inr hnew
      | inl hmid =>
          cases hstep.makes hmid with
          | inl hold => exact Or.inl hold
          | inr hmakes =>
              cases hw.1.of_makes hmakes with
              | inr hbelow => exact Or.inr (Or.inr hbelow)
              | inl hdir =>
                  by_cases hp : p = dir
                  · exact Or.inr (Or.inl ⟨hp, hdir.2⟩)
                  · rcases Option.ne_none_iff_exists'.mp (ha p hdir.1 hp) with ⟨old, hold⟩
                    have hsame : mid p = some old :=
                      hstep.keeps (hw.1.not_replaces hdir.1 hp) hold
                    rw [hold, ← hsame, hmid]
                    exact Or.inl rfl

end Steps

end FileTree

end Core
