import GhafGivc.Core.FileTree
import GhafGivc.Core.Traced
import Mathlib.Data.List.Infix

/-! # Calls that a healthy system carries out

A system without faults refuses a call only for what stands at its paths: a file where the
call needs a directory, or a directory where it needs a file. What a computation returns on
such a system is then a condition on the tree that it starts from.
-/

namespace Core

namespace FileTree

def IsFile (tree : FileTree) (p : Path) : Prop := ∃ content, tree p = some (.file content)

def isFile : Node → Bool
  | .dir => false
  | .file _ => true

theorem any_isFile_iff {tree : FileTree} {p : Path} :
    (tree p).any isFile = true ↔ tree.IsFile p := by
  unfold IsFile
  cases tree p with
  | none => simp
  | some node => cases node <;> simp [isFile]

instance (tree : FileTree) (p : Path) : Decidable (tree.IsFile p) :=
  decidable_of_iff _ any_isFile_iff

/-- Every directory on the way to the path is there. -/
def HasParents (tree : FileTree) (p : Path) : Prop := ∀ q ∈ p.dropLast.inits, tree q = some .dir

instance (tree : FileTree) (p : Path) : Decidable (tree.HasParents p) :=
  inferInstanceAs (Decidable (∀ q ∈ p.dropLast.inits, tree q = some .dir))

end FileTree

open FileTree

/-- Nothing stands in the way of the call. What is renamed is a file. -/
def FileEffect.Possible (tree : FileTree) : FileEffect → Prop
  | createDirAll dir => ∀ q ∈ dir.inits, ¬ tree.IsFile q
  | create file | write file _ => tree file ≠ some .dir ∧ tree.HasParents file
  | rename source target =>
      tree.IsFile source ∧ tree target ≠ some .dir ∧ tree.HasParents target
  | removeFile file => tree.IsFile file
  | removeDirAll dir => tree dir = some .dir

instance (tree : FileTree) : DecidablePred (FileEffect.Possible tree)
  | .createDirAll dir => inferInstanceAs (Decidable (∀ q ∈ dir.inits, ¬ tree.IsFile q))
  | .create _ | .write _ _ => inferInstanceAs (Decidable (_ ∧ _))
  | .rename _ _ => inferInstanceAs (Decidable (_ ∧ _ ∧ _))
  | .removeFile file => inferInstanceAs (Decidable (tree.IsFile file))
  | .removeDirAll dir => inferInstanceAs (Decidable (tree dir = some .dir))

section CreateDirAll

variable {tree : FileTree} {dir p : Path}

theorem isFile_createDirAll :
    IsFile ((FileEffect.createDirAll dir).apply tree) p ↔ tree.IsFile p := by
  unfold IsFile
  simp only [FileEffect.apply]
  split
  · rename_i hmade
    simp [hmade.2]
  · rfl

theorem eq_dir_of_createDirAll (hfile : ¬ tree.IsFile p) (hp : p <+: dir) :
    (FileEffect.createDirAll dir).apply tree p = some .dir := by
  cases hnode : tree p with
  | none => simp [FileEffect.apply, hnode, hp]
  | some node =>
      cases node with
      | dir => simp [FileEffect.apply, hnode]
      | file content => exact absurd ⟨content, hnode⟩ hfile

theorem createDirAll_of_not_isPrefix (hp : ¬ p <+: dir) :
    (FileEffect.createDirAll dir).apply tree p = tree p :=
  if_neg fun hmade => hp hmade.1

end CreateDirAll

namespace FileTree

/-- The calls are carried out exactly when nothing stands in their way. -/
def Served : FileTree → List (FileEffect × Bool) → FileTree → Prop
  | tree, [], tree' => tree' = tree
  | tree, event :: events, tree' =>
      (event.2 = true ↔ event.1.Possible tree) ∧
        ∃ mid, Step tree event mid ∧ Served mid events tree'

/-- The calls are all carried out, and nothing stands in their way. -/
def Granted : FileTree → List (FileEffect × Bool) → Prop
  | _, [] => True
  | tree, event :: events =>
      event.2 = true ∧ event.1.Possible tree ∧ Granted (event.1.apply tree) events

instance decidableGranted :
    (tree : FileTree) → (events : List (FileEffect × Bool)) → Decidable (Granted tree events)
  | _, [] => .isTrue trivial
  | tree, event :: events =>
      have := decidableGranted (event.1.apply tree) events
      inferInstanceAs (Decidable (_ ∧ _ ∧ _))

section Served

variable {tree tree' : FileTree} {events later : List (FileEffect × Bool)}

theorem served_append : Served tree (events ++ later) tree' ↔
    ∃ mid, Served tree events mid ∧ Served mid later tree' := by
  induction events generalizing tree with
  | nil => simp [Served]
  | cons event events ih =>
      constructor
      · rintro ⟨hpossible, next, hstep, hrest⟩
        rcases ih.mp hrest with ⟨mid, hfirst, hlater⟩
        exact ⟨mid, ⟨hpossible, next, hstep, hfirst⟩, hlater⟩
      · rintro ⟨mid, ⟨hpossible, next, hstep, hfirst⟩, hlater⟩
        exact ⟨hpossible, next, hstep, ih.mpr ⟨mid, hfirst, hlater⟩⟩

theorem Granted.served (h : Granted tree events) : Served tree events (tree.after events) := by
  induction events generalizing tree with
  | nil => rfl
  | cons event events ih =>
      rcases event with ⟨effect, done⟩
      rcases h with ⟨rfl, hpossible, hrest⟩
      exact ⟨iff_of_true rfl hpossible, effect.apply tree, rfl, ih hrest⟩

end Served

end FileTree

/-- From the tree, the computation returns a value exactly if `fits`, and then leaves a tree
with `Q`. -/
def Answers {ε α : Type} (x : Traced (FileEffect × Bool) ε α) (tree : FileTree) (fits : Prop)
    (Q : FileTree → Prop) : Prop :=
  ∀ tree', tree.Served x.trace tree' →
    ((∃ a, x.result = .ok a) ↔ fits) ∧ ((∃ a, x.result = .ok a) → Q tree')

namespace Answers

variable {ε α β : Type} {x : Traced (FileEffect × Bool) ε α} {tree : FileTree}
  {fits fits' : Prop} {Q R : FileTree → Prop}

theorem pure (a : α) (h : Q tree) :
    Answers (⟨[], .ok a⟩ : Traced (FileEffect × Bool) ε α) tree True Q := by
  rintro tree' rfl
  exact ⟨iff_of_true ⟨a, rfl⟩ trivial, fun _ => h⟩

theorem emit (effect : FileEffect) :
    Answers (⟨[(effect, true)], .ok ()⟩ : Traced (FileEffect × Bool) ε Unit) tree True
      (· = effect.apply tree) := by
  rintro tree' ⟨-, mid, hstep, rfl⟩
  exact ⟨iff_of_true ⟨(), rfl⟩ trivial, fun _ => hstep⟩

theorem request {effect : FileEffect} {x : Traced (FileEffect × Bool) ε Unit}
    (h : x = ⟨[(effect, true)], .ok ()⟩ ∨ ∃ e, x = ⟨[(effect, false)], .err e⟩) :
    Answers x tree (effect.Possible tree) (· = effect.apply tree) := by
  rcases h with rfl | ⟨e, rfl⟩
  · rintro tree' ⟨hpossible, mid, hstep, rfl⟩
    exact ⟨iff_of_true ⟨(), rfl⟩ (hpossible.mp rfl), fun _ => hstep⟩
  · rintro tree' ⟨hpossible, -⟩
    exact ⟨iff_of_false (by simp) fun h => by simpa using hpossible.mpr h, by simp⟩

/-- A computation that does not return ends the one that goes on from it. -/
theorem of_not_ok {y : Traced (FileEffect × Bool) ε β} (hx : Answers x tree fits Q)
    (htrace : y.trace = x.trace) (hresult : ∀ a, x.result ≠ .ok a)
    (hresult' : ∀ b, y.result ≠ .ok b) : Answers y tree (fits ∧ fits') R := by
  intro tree' hserved
  rw [htrace] at hserved
  have hnot : ¬ fits := by
    intro hfits
    rcases (hx tree' hserved).1.mpr hfits with ⟨a, ha⟩
    exact hresult a ha
  have hnone : ¬ ∃ b, y.result = .ok b := by
    rintro ⟨b, hb⟩
    exact hresult' b hb
  exact ⟨iff_of_false hnone fun h => hnot h.1, fun h => absurd h hnone⟩

theorem bind {f : α → Traced (FileEffect × Bool) ε β} (hx : Answers x tree fits Q)
    (hf : fits → ∀ mid, Q mid → ∀ a, Answers (f a) mid fits' R) :
    Answers (x >>= f) tree (fits ∧ fits') R := by
  cases hresult : x.result with
  | ok a =>
      intro tree' hserved
      rw [Traced.bind_of_ok hresult] at hserved ⊢
      rcases FileTree.served_append.mp hserved with ⟨mid, hfirst, hlater⟩
      rcases hx mid hfirst with ⟨hiff, hmid⟩
      have hfits := hiff.mp ⟨a, hresult⟩
      rcases hf hfits mid (hmid ⟨a, hresult⟩) a tree' hlater with ⟨hiff', hafter⟩
      exact ⟨by rw [hiff', and_iff_right hfits], hafter⟩
  | err e =>
      have hbind := Traced.bind_of_err hresult f
      refine hx.of_not_ok (congrArg Traced.trace hbind) (fun a => ?_) fun b => ?_
      · rw [hresult]
        simp
      · rw [hbind]
        simp
  | panicked =>
      have hbind : x >>= f = ⟨x.trace, .panicked⟩ := by
        simp [Bind.bind, Traced.bind, hresult]
      refine hx.of_not_ok (congrArg Traced.trace hbind) (fun a => ?_) fun b => ?_
      · rw [hresult]
        simp
      · rw [hbind]
        simp

theorem congr (h : Answers x tree fits Q) (hsame : fits ↔ fits') : Answers x tree fits' Q := by
  rw [propext hsame] at h
  exact h

theorem imp (h : Answers x tree fits Q) (himp : fits → ∀ tree', Q tree' → R tree') :
    Answers x tree fits R := by
  intro tree' hserved
  rcases h tree' hserved with ⟨hiff, hafter⟩
  exact ⟨hiff, fun hok => himp (hiff.mp hok) tree' (hafter hok)⟩

/-- A last call, however it ends, changes nothing in the answer. -/
theorem ensuring (h : Answers x tree fits Q) (last : FileEffect × Bool) :
    Answers (x.ensuring last) tree fits fun _ => True := by
  intro tree' hserved
  rcases FileTree.served_append.mp hserved with ⟨mid, hfirst, -⟩
  exact ⟨(h mid hfirst).1, fun _ => trivial⟩

end Answers

end Core
