import GhafGivc.Core.Outcome
import Mathlib.Data.List.Nodup
import Mathlib.Logic.Function.Basic

/-! # Maps that may be nil

A nil map can be read, but a write to it panics. `assignAll` is a loop that writes one
entry for each key of a list, with a value that may depend on the old one; where the keys
are distinct, every entry is written from the value the map had at the start.
-/

namespace Core

variable {κ α β ε : Type} [DecidableEq κ]

/-- A missing value is a panic. -/
def Outcome.orPanic : Option α → Outcome ε α
  | none => .panicked
  | some a => .ok a

inductive NilMap (κ β : Type) where
  | nil
  | of (entries : κ → Option β)

namespace NilMap

def empty : NilMap κ β := .of fun _ => none

def get (m : NilMap κ β) (k : κ) : Option β :=
  match m with
  | .nil => none
  | .of entries => entries k

def isNil : NilMap κ β → Bool
  | .nil => true
  | .of _ => false

def set (m : NilMap κ β) (k : κ) (b : β) : Outcome ε (NilMap κ β) :=
  match m with
  | .nil => .panicked
  | .of entries => .ok (.of (Function.update entries k (some b)))

omit [DecidableEq κ] in
@[simp] theorem get_nil : (nil : NilMap κ β).get = fun _ => none := rfl

omit [DecidableEq κ] in
@[simp] theorem get_of (entries : κ → Option β) : (of entries).get = entries := rfl

end NilMap

/-- Write `new (f k) a` at `k` for each entry `(k, a)` of the list. -/
def assignAll (new : Option β → α → Option β) :
    List (κ × α) → (κ → Option β) → Option (κ → Option β)
  | [], f => some f
  | (k, a) :: l, f =>
      match new (f k) a with
      | none => none
      | some b => assignAll new l (Function.update f k (some b))

section AssignAll

variable {new : Option β → α → Option β} {l : List (κ × α)} {f g : κ → Option β} {k : κ}

/-- The loop fails where one of the values does not exist. -/
theorem assignAll_isSome_iff (hkeys : (l.map Prod.fst).Nodup) :
    (assignAll new l f).isSome = true ↔ ∀ entry ∈ l, (new (f entry.1) entry.2).isSome = true := by
  induction l generalizing f with
  | nil => simp [assignAll]
  | cons entry l ih =>
      rcases entry with ⟨k, a⟩
      rw [List.map_cons, List.nodup_cons] at hkeys
      rw [List.forall_mem_cons, assignAll]
      cases hnew : new (f k) a with
      | none => simp
      | some b =>
          dsimp only
          rw [ih hkeys.2]
          simp only [Option.isSome_some, true_and]
          apply forall₂_congr
          intro entry hin
          have hne : entry.1 ≠ k := by
            intro heq
            exact hkeys.1 (List.mem_map.mpr ⟨entry, hin, heq⟩)
          rw [Function.update_of_ne hne]

theorem assignAll_of_notMem (h : assignAll new l f = some g) (hk : k ∉ l.map Prod.fst) :
    g k = f k := by
  induction l generalizing f with
  | nil =>
      cases h
      rfl
  | cons entry l ih =>
      rcases entry with ⟨j, a⟩
      rw [List.map_cons, List.mem_cons, not_or] at hk
      rw [assignAll] at h
      cases hnew : new (f j) a with
      | none =>
          rw [hnew] at h
          cases h
      | some b =>
          rw [hnew] at h
          rw [ih h hk.2, Function.update_of_ne hk.1]

theorem assignAll_of_mem {a : α} (hkeys : (l.map Prod.fst).Nodup) (h : assignAll new l f = some g)
    (hin : (k, a) ∈ l) : g k = new (f k) a := by
  induction l generalizing f with
  | nil => exact absurd hin List.not_mem_nil
  | cons entry l ih =>
      rcases entry with ⟨j, c⟩
      rw [List.map_cons, List.nodup_cons] at hkeys
      rw [assignAll] at h
      cases hnew : new (f j) c with
      | none =>
          rw [hnew] at h
          cases h
      | some b =>
          rw [hnew] at h
          rcases List.mem_cons.mp hin with heq | hin
          · cases heq
            rw [assignAll_of_notMem h hkeys.1, Function.update_self, hnew]
          · have hne : k ≠ j := by
              intro heq
              exact hkeys.1 (List.mem_map.mpr ⟨(k, a), hin, heq⟩)
            rw [ih hkeys.2 h hin, Function.update_of_ne hne]

/-- The loop with values that do not depend on the old ones. -/
def storeAll (f : κ → Option β) (l : List (κ × β)) : κ → Option β :=
  l.foldl (fun f entry => Function.update f entry.1 (some entry.2)) f

theorem assignAll_some (l : List (κ × β)) (f : κ → Option β) :
    assignAll (fun _ b => some b) l f = some (storeAll f l) := by
  induction l generalizing f with
  | nil => rfl
  | cons entry l ih => exact ih _

theorem storeAll_eq_some_iff {l : List (κ × β)} (hkeys : (l.map Prod.fst).Nodup) {b : β} :
    storeAll (fun _ => none) l k = some b ↔ (k, b) ∈ l := by
  have hassign := assignAll_some l fun _ => none
  constructor
  · intro hsome
    by_cases hin : k ∈ l.map Prod.fst
    · rcases List.mem_map.mp hin with ⟨entry, hmem, hk⟩
      subst hk
      rw [assignAll_of_mem hkeys hassign hmem] at hsome
      cases hsome
      exact hmem
    · rw [assignAll_of_notMem hassign hin] at hsome
      cases hsome
  · intro hmem
    exact assignAll_of_mem hkeys hassign hmem

/-- A loop whose body writes the entry of its own key, or panics. -/
theorem foldlM_assign {σ : Type} {body : σ → κ × α → Outcome ε σ} (view : (κ → Option β) → σ)
    (hbody : ∀ f k a, body (view f) (k, a) =
      .orPanic ((new (f k) a).map fun b => view (Function.update f k (some b))))
    (l : List (κ × α)) (f : κ → Option β) :
    l.foldlM body (view f) = .orPanic ((assignAll new l f).map view) := by
  induction l generalizing f with
  | nil => rfl
  | cons entry l ih =>
      rcases entry with ⟨k, a⟩
      rw [List.foldlM_cons, hbody, assignAll]
      cases hnew : new (f k) a with
      | none => rfl
      | some b => exact ih _

end AssignAll

/-- A later entry for a key replaces an earlier one. -/
def lastEntries : List (κ × α) → List (κ × α)
  | [] => []
  | entry :: l => if entry.1 ∈ l.map Prod.fst then lastEntries l else entry :: lastEntries l

theorem lastEntries_subset (l : List (κ × α)) : lastEntries l ⊆ l := by
  induction l with
  | nil => exact List.Subset.refl _
  | cons entry l ih =>
      unfold lastEntries
      split
      · exact List.subset_cons_of_subset entry ih
      · exact List.cons_subset_cons entry ih

theorem nodup_lastEntries (l : List (κ × α)) : ((lastEntries l).map Prod.fst).Nodup := by
  induction l with
  | nil => exact List.nodup_nil
  | cons entry l ih =>
      unfold lastEntries
      split
      · exact ih
      · rename_i hnew
        rw [List.map_cons, List.nodup_cons]
        refine ⟨fun hin => hnew ?_, ih⟩
        exact List.map_subset Prod.fst (lastEntries_subset l) hin

end Core
