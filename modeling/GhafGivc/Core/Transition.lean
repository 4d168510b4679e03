import Mathlib.Data.List.Induction
import Mathlib.Tactic.Common

/-! # Runs of partial transition functions

`run` folds a partial step function over a list of labels and stops with `none`
at the first disabled label. `Reach` collects the states of all runs whose steps
satisfy a side condition, and `Reach.invariant` is the induction rule for them.
-/

namespace Core

variable {σ ℓ : Type}

def run (step : σ → ℓ → Option σ) : σ → List ℓ → Option σ
  | s, [] => some s
  | s, l :: ls =>
      match step s l with
      | none => none
      | some t => run step t ls

section Run

variable {step : σ → ℓ → Option σ} {ls : List ℓ} {s t : σ}

theorem run_cons_of_some {l : ℓ} (ls : List ℓ) (h : step s l = some t) :
    run step s (l :: ls) = run step t ls := by
  simp [run, h]

theorem run_cons_eq_some {s u : σ} {l : ℓ} :
    run step s (l :: ls) = some u ↔ ∃ t, step s l = some t ∧ run step t ls = some u := by
  cases h : step s l with
  | none => simp [run, h]
  | some t => simp [run, h]

theorem run_append (s : σ) (ls ls' : List ℓ) :
    run step s (ls ++ ls') = (run step s ls).bind fun t => run step t ls' := by
  induction ls generalizing s with
  | nil => rfl
  | cons l ls ih =>
      cases h : step s l with
      | none => simp [run, h]
      | some t => simp [run, h, ih]

theorem run_append_of_some (ls' : List ℓ) (h : run step s ls = some t) :
    run step s (ls ++ ls') = run step t ls' := by
  simp [run_append, h]

/-- A property kept by every step of the list is kept by the run. -/
theorem run_preserves {P : σ → Prop} (hstep : ∀ l ∈ ls, ∀ a b, P a → step a l = some b → P b)
    (hs : P s) (h : run step s ls = some t) : P t := by
  induction ls generalizing s with
  | nil =>
      cases h
      exact hs
  | cons l ls ih =>
      cases hl : step s l with
      | none => simp [run, hl] at h
      | some u =>
          have hu : P u := hstep l (by simp) s u hs hl
          exact ih (fun l' hl' => hstep l' (by simp [hl'])) hu (by simpa [run, hl] using h)

/-- The rule for facts that relate a state to the labels that led to it. -/
theorem run_history {P : List ℓ → σ → Prop} (hs : P [] s)
    (hstep : ∀ ls l a b, P ls a → step a l = some b → P (ls ++ [l]) b)
    (h : run step s ls = some t) : P ls t := by
  induction ls using List.reverseRecOn generalizing t with
  | nil =>
      cases h
      exact hs
  | append_singleton ls l ih =>
      rw [run_append, Option.bind_eq_some_iff] at h
      obtain ⟨u, hu, h⟩ := h
      obtain ⟨v, hv, hvt⟩ := run_cons_eq_some.mp h
      cases hvt
      exact hstep ls l u t (ih hu) hv

/-- A functional simulation of single steps is one of whole runs. -/
theorem run_map {τ : Type} {step' : τ → ℓ → Option τ} {f : σ → τ}
    (hstep : ∀ s l, (step s l).map f = step' (f s) l) (s : σ) (ls : List ℓ) :
    (run step s ls).map f = run step' (f s) ls := by
  induction ls generalizing s with
  | nil => rfl
  | cons l ls ih =>
      have hl := hstep s l
      cases h : step s l with
      | none =>
          rw [h, Option.map_none] at hl
          simp [run, h, ← hl]
      | some t =>
          rw [h, Option.map_some] at hl
          simp [run, h, ← hl, ih]

end Run

/-- States reached by runs whose every step satisfies `ok`. -/
inductive Reach (step : σ → ℓ → Option σ) (ok : σ → ℓ → Prop) (start : σ → Prop) : σ → Prop
  | init {s : σ} (h : start s) : Reach step ok start s
  | step {s t : σ} {l : ℓ} (h : Reach step ok start s) (hok : ok s l)
      (hs : step s l = some t) : Reach step ok start t

section Reach

variable {step : σ → ℓ → Option σ} {ok : σ → ℓ → Prop} {start : σ → Prop}

theorem Reach.invariant {P : σ → Prop} (hinit : ∀ s, start s → P s)
    (hstep : ∀ s l t, P s → ok s l → step s l = some t → P t) {s : σ}
    (h : Reach step ok start s) : P s := by
  induction h with
  | init h => exact hinit _ h
  | step _ hok hs ih => exact hstep _ _ _ ih hok hs

/-- A run that checks the side condition before every step. -/
theorem Reach.of_run [∀ s l, Decidable (ok s l)] {s t : σ} {ls : List ℓ}
    (hs : Reach step ok start s)
    (h : run (fun s l => if ok s l then step s l else none) s ls = some t) :
    Reach step ok start t := by
  induction ls generalizing s with
  | nil =>
      cases h
      exact hs
  | cons l ls ih =>
      obtain ⟨u, hu, h⟩ := run_cons_eq_some.mp h
      by_cases hok : ok s l
      · rw [if_pos hok] at hu
        exact ih (hs.step hok hu) h
      · rw [if_neg hok] at hu
        cases hu

end Reach

end Core
