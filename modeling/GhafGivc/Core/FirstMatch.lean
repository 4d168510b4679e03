import GhafGivc.Core.Outcome
import Mathlib.Data.List.Nodup
import Mathlib.Data.List.Perm.Subperm

/-! # Update the first matching entry, or push a new one

The loop body `find`, else `push`, then update. A table whose entries are
`keys.map F` for duplicate-free `keys` stays of that form: an update at a known
key changes `F` at that key, and an unmatched entry is appended. A search for the
first name that is not taken ends after as many steps as there are taken names.
-/

namespace Core

variable {ε α : Type}

/-- Apply `f` to the first entry satisfying `p`; append `new` when there is none. -/
def upsert (p : α → Bool) (f : α → Outcome ε α) (new : Outcome ε α) :
    List α → Outcome ε (List α)
  | [] => do
      let a ← new
      pure [a]
  | a :: as =>
      if p a then do
        let b ← f a
        pure (b :: as)
      else do
        let bs ← upsert p f new as
        pure (a :: bs)

variable {p : α → Bool} {f : α → Outcome ε α} {new : Outcome ε α}

theorem upsert_returns (hf : ∀ a, (f a).Returns) (hnew : new.Returns) (l : List α) :
    (upsert p f new l).Returns := by
  induction l with
  | nil => exact hnew.bind fun a _ => Outcome.returns_ok [a]
  | cons a as ih =>
      unfold upsert
      split
      · exact (hf a).bind fun b _ => Outcome.returns_ok (b :: as)
      · exact ih.bind fun bs _ => Outcome.returns_ok (a :: bs)

theorem upsert_of_forall_not {l : List α} {a : α} (hp : ∀ b ∈ l, p b = false)
    (hnew : new = .ok a) : upsert p f new l = .ok (l ++ [a]) := by
  induction l with
  | nil => simp [upsert, hnew]
  | cons b bs ih =>
      have hb : p b = false := hp b (by simp)
      have hrest := ih fun c hc => hp c (by simp [hc])
      simp [upsert, hb, hrest]

theorem upsert_append_left {l l' : List α} (h : ∃ a ∈ l, p a = true) :
    upsert p f new (l ++ l') = (upsert p f new l >>= fun r => pure (r ++ l')) := by
  induction l with
  | nil => simp at h
  | cons a as ih =>
      by_cases ha : p a = true
      · cases hf : f a <;> simp [upsert, ha, hf]
      · have hrest : ∃ b ∈ as, p b = true := by
          obtain ⟨b, hb, hpb⟩ := h
          rcases List.mem_cons.mp hb with rfl | hb
          · exact absurd hpb ha
          · exact ⟨b, hb, hpb⟩
        simp only [List.cons_append, upsert, ha, ih hrest]
        cases hu : upsert p f new as <;> simp

theorem map_update_of_notMem {κ : Type} [DecidableEq κ] {keys : List κ} {F : κ → α} {k : κ}
    (b : α) (h : k ∉ keys) : keys.map (Function.update F k b) = keys.map F := by
  apply List.map_congr_left
  intro j hj
  have hne : j ≠ k := fun e => h (e ▸ hj)
  simp [Function.update, hne]

/-- On a keyed table the update at key `k` only changes the entry of `k`. -/
theorem upsert_map_of_mem {κ : Type} [DecidableEq κ] {keys : List κ} {F : κ → α} {k : κ}
    (nodup : keys.Nodup) (hk : k ∈ keys) (hp : ∀ j ∈ keys, p (F j) = decide (j = k)) :
    upsert p f new (keys.map F) =
      (f (F k) >>= fun b => pure (keys.map (Function.update F k b))) := by
  induction keys with
  | nil => simp at hk
  | cons j js ih =>
      obtain ⟨hj, hjs⟩ := List.nodup_cons.mp nodup
      have hpj := hp j (by simp)
      by_cases he : j = k
      · subst he
        simp only [List.map_cons, upsert, hpj, decide_true, if_true]
        cases hf : f (F j) with
        | ok b => simp [map_update_of_notMem b hj]
        | err e => rfl
        | panicked => rfl
      · have hkjs : k ∈ js := (List.mem_cons.mp hk).resolve_left (Ne.symm he)
        have hrest := ih hjs hkjs fun i hi => hp i (by simp [hi])
        simp only [List.map_cons, upsert, hpj, he, decide_false, Bool.false_eq_true, if_false,
          hrest]
        cases hf : f (F k) <;> simp [Function.update, he]

section Keys

variable {κ : Type} [DecidableEq κ]

theorem nodup_eraseDups (l : List κ) : l.eraseDups.Nodup := by
  induction hn : l.length using Nat.strongRecOn generalizing l with
  | ind n ih =>
      cases l with
      | nil => simp
      | cons a as =>
          rw [List.eraseDups_cons, List.nodup_cons]
          constructor
          · simp
          · have hlt : (as.filter fun b => !b == a).length < n := by
              rw [← hn, List.length_cons]
              exact Nat.lt_succ_of_le (List.length_filter_le _ _)
            exact ih _ hlt _ rfl

theorem eraseDups_concat_of_mem {l : List κ} {a : κ} (h : a ∈ l) :
    (l ++ [a]).eraseDups = l.eraseDups := by
  simp [List.eraseDups_append, List.removeAll, h]

theorem eraseDups_concat_of_notMem {l : List κ} {a : κ} (h : a ∉ l) :
    (l ++ [a]).eraseDups = l.eraseDups ++ [a] := by
  simp [List.eraseDups_append, List.removeAll, h, List.eraseDups_cons]

end Keys

/-- The first index from `i` on that is not used, when `fuel` of them are looked at. -/
def firstFree (used : Nat → Bool) : Nat → Nat → Nat
  | 0, i => i
  | fuel + 1, i => if used i then firstFree used fuel (i + 1) else i

/-- All indices that were passed over are used, and the search stops at a used one only when
its fuel is spent. -/
theorem firstFree_spec (used : Nat → Bool) (fuel i : Nat) :
    (∀ j, i ≤ j → j < firstFree used fuel i → used j = true) ∧
      (used (firstFree used fuel i) = true → firstFree used fuel i = i + fuel) := by
  induction fuel generalizing i with
  | zero =>
      refine ⟨fun j hij hj => ?_, fun _ => rfl⟩
      simp only [firstFree] at hj
      omega
  | succ fuel ih =>
      cases hused : used i with
      | false =>
          simp only [firstFree, hused, Bool.false_eq_true, if_false]
          exact ⟨fun j hij hj => by omega, fun h => by cases h⟩
      | true =>
          simp only [firstFree, hused, if_true]
          obtain ⟨hpassed, hend⟩ := ih (i + 1)
          refine ⟨fun j hij hj => ?_, fun h => by rw [hend h]; omega⟩
          rcases Nat.eq_or_lt_of_le hij with rfl | hlt
          · exact hused
          · exact hpassed j hlt hj

theorem firstFree_le (used : Nat → Bool) (fuel i : Nat) : firstFree used fuel i ≤ i + fuel := by
  induction fuel generalizing i with
  | zero => exact Nat.le_refl i
  | succ fuel ih =>
      unfold firstFree
      split
      · exact Nat.le_trans (ih (i + 1)) (by omega)
      · omega

theorem firstFree_notMem [DecidableEq α] {name : Nat → α} (hinj : Function.Injective name)
    (taken : List α) :
    name (firstFree (fun i => decide (name i ∈ taken)) taken.length 0) ∉ taken := by
  intro hmem
  obtain ⟨hpassed, hend⟩ := firstFree_spec (fun i => decide (name i ∈ taken)) taken.length 0
  have hlast := hend (by simpa using hmem)
  rw [hlast] at hmem hpassed
  have hsub : (List.range (taken.length + 1)).map name ⊆ taken := by
    intro a ha
    obtain ⟨i, hi, rfl⟩ := List.mem_map.mp ha
    rcases Nat.lt_or_ge i taken.length with hlt | hge
    · simpa using hpassed i (Nat.zero_le i) (by omega)
    · obtain rfl : i = 0 + taken.length := by
        have := List.mem_range.mp hi
        omega
      exact hmem
  have hnodup : ((List.range (taken.length + 1)).map name).Nodup :=
    List.nodup_range.map hinj
  have hle := (List.subperm_of_subset hnodup hsub).length_le
  rw [List.length_map, List.length_range] at hle
  omega

end Core
