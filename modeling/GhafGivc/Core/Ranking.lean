import Mathlib.Data.List.Sort

/-! # The largest elements by a key

A top list has as many elements as asked for, or all of them, largest first, and every
element that is left out has a key that is not larger. With equal keys there are several.
-/

namespace Core

variable {α κ : Type} [LinearOrder κ]

/-- A sort by a key, largest first, that need not be stable. -/
structure Sorter (α κ : Type) [LinearOrder κ] where
  sort : (α → κ) → List α → List α
  perm : ∀ key l, (sort key l).Perm l
  sorted : ∀ key l, (sort key l).Pairwise fun a b => key b ≤ key a

/-- Insertion sort, as a sort that can be evaluated. -/
def Sorter.insertion : Sorter α κ where
  sort key l := l.insertionSort fun a b => key b ≤ key a
  perm key l := List.perm_insertionSort _ l
  sorted key l := by
    have : Std.Total fun a b : α => key b ≤ key a := ⟨fun a b => le_total (key b) (key a)⟩
    have : IsTrans α fun a b => key b ≤ key a := ⟨fun a b c hab hbc => hbc.trans hab⟩
    exact List.pairwise_insertionSort _ l

structure IsTop (k : Nat) (key : α → κ) (l top : List α) : Prop where
  count : top.length = min k l.length
  ordered : top.Pairwise fun a b => key b ≤ key a
  chosen : ∃ rest, (top ++ rest).Perm l ∧ ∀ a ∈ top, ∀ b ∈ rest, key b ≤ key a

section IsTop

variable {k : Nat} {key : α → κ} {l top : List α}

theorem isTop_take {sorted : List α} (hperm : sorted.Perm l)
    (hsorted : sorted.Pairwise fun a b => key b ≤ key a) : IsTop k key l (sorted.take k) := by
  have hsplit := hsorted
  rw [← List.take_append_drop k sorted, List.pairwise_append] at hsplit
  refine ⟨?_, hsplit.1, sorted.drop k, ?_, hsplit.2.2⟩
  · rw [List.length_take, hperm.length_eq]
  · rw [List.take_append_drop]
    exact hperm

theorem IsTop.subset (h : IsTop k key l top) : top ⊆ l := by
  rcases h.chosen with ⟨rest, hperm, _⟩
  intro a ha
  exact hperm.subset (List.mem_append_left rest ha)

theorem IsTop.of_le_imp_le {κ' : Type} [LinearOrder κ'] {key' : α → κ'} (h : IsTop k key l top)
    (hkey : ∀ a ∈ l, ∀ b ∈ l, key b ≤ key a → key' b ≤ key' a) : IsTop k key' l top := by
  rcases h.chosen with ⟨rest, hperm, hrest⟩
  refine ⟨h.count, ?_, rest, hperm, ?_⟩
  · apply h.ordered.imp_of_mem
    intro a b ha hb
    exact hkey a (h.subset ha) b (h.subset hb)
  · intro a ha b hb
    exact hkey a (h.subset ha) b (hperm.subset (List.mem_append_right top hb)) (hrest a ha b hb)

end IsTop

end Core
