import Mathlib.Computability.RegularExpressions

/-! # Patterns

Character classes, literals and repetitions over the regular expressions of Mathlib. A
pattern anchored at both ends accepts the texts that `rmatch` accepts.
-/

namespace Core.Pattern

open RegularExpression

variable {α : Type}

def oneOf : List α → RegularExpression α
  | [] => 0
  | a :: as => char a + oneOf as

def literal : List α → RegularExpression α
  | [] => 1
  | a :: as => char a * literal as

def optional (P : RegularExpression α) : RegularExpression α := 1 + P

def many1 (P : RegularExpression α) : RegularExpression α := P * P.star

def range (a z : Char) : List Char :=
  (List.range' a.toNat (z.toNat + 1 - a.toNat)).map Char.ofNat

def lower : List Char := range 'a' 'z'

def upper : List Char := range 'A' 'Z'

def digit : List Char := range '0' '9'

def alnum : List Char := lower ++ upper ++ digit

theorem mem_range {a z c : Char} (ha : a.toNat ≤ c.toNat) (hz : c.toNat ≤ z.toNat) :
    c ∈ range a z := by
  refine List.mem_map.mpr ⟨c.toNat, List.mem_range'_1.mpr ⟨ha, by omega⟩, Char.ofNat_toNat c⟩

def symbols : RegularExpression α → List α
  | .char a => [a]
  | .plus P Q => symbols P ++ symbols Q
  | .comp P Q => symbols P ++ symbols Q
  | .star P => symbols P
  | .zero => []
  | .epsilon => []

theorem mem_symbols {P : RegularExpression α} {w : List α} (h : w ∈ P.matches') :
    ∀ a ∈ w, a ∈ symbols P := by
  induction P generalizing w with
  | zero => cases h
  | epsilon =>
      cases h
      simp
  | char b =>
      cases h
      simp [symbols]
  | plus P Q ihP ihQ =>
      intro a ha
      cases h with
      | inl h => exact List.mem_append_left _ (ihP h a ha)
      | inr h => exact List.mem_append_right _ (ihQ h a ha)
  | comp P Q ihP ihQ =>
      intro a ha
      rcases Language.mem_mul.mp h with ⟨u, hu, v, hv, heq⟩
      rw [← heq, List.mem_append] at ha
      cases ha with
      | inl ha => exact List.mem_append_left _ (ihP hu a ha)
      | inr ha => exact List.mem_append_right _ (ihQ hv a ha)
  | star P ih =>
      intro a ha
      rcases Language.mem_kstar.mp h with ⟨words, heq, hwords⟩
      rw [heq] at ha
      rcases List.mem_flatten.mp ha with ⟨word, hword, hin⟩
      exact ih (hwords word hword) a hin

section Matching

variable [DecidableEq α] {w : List α} {as : List α}

theorem rmatch_oneOf : (oneOf as).rmatch w = true ↔ ∃ a ∈ as, w = [a] := by
  induction as with
  | nil => simp [oneOf]
  | cons a as ih =>
      rw [oneOf, add_rmatch_iff, char_rmatch_iff, ih]
      simp

theorem rmatch_literal : (literal as).rmatch w = true ↔ w = as := by
  induction as generalizing w with
  | nil => simp [literal]
  | cons a as ih =>
      rw [literal, mul_rmatch_iff]
      constructor
      · intro h
        rcases h with ⟨u, v, heq, hu, hv⟩
        rw [heq, (char_rmatch_iff a u).mp hu, ih.mp hv]
        rfl
      · intro h
        exact ⟨[a], as, h, (char_rmatch_iff a [a]).mpr rfl, ih.mpr rfl⟩

theorem rmatch_star_oneOf : (oneOf as).star.rmatch w = true ↔ ∀ a ∈ w, a ∈ as := by
  rw [star_rmatch_iff]
  constructor
  · intro h a ha
    rcases h with ⟨words, heq, hwords⟩
    rw [heq] at ha
    rcases List.mem_flatten.mp ha with ⟨word, hword, hin⟩
    rcases rmatch_oneOf.mp (hwords word hword).2 with ⟨b, hb, hone⟩
    rw [hone, List.mem_singleton] at hin
    exact hin ▸ hb
  · intro h
    refine ⟨w.map fun a => [a], (List.flatMap_singleton' w).symm, ?_⟩
    intro word hword
    rcases List.mem_map.mp hword with ⟨a, ha, heq⟩
    rw [← heq]
    exact ⟨by simp, rmatch_oneOf.mpr ⟨a, h a ha, rfl⟩⟩

theorem rmatch_many1_oneOf : (many1 (oneOf as)).rmatch w = true ↔ w ≠ [] ∧ ∀ a ∈ w, a ∈ as := by
  rw [many1, mul_rmatch_iff]
  constructor
  · intro h
    rcases h with ⟨u, v, heq, hu, hv⟩
    rcases rmatch_oneOf.mp hu with ⟨a, ha, hone⟩
    rw [heq, hone]
    simpa using ⟨ha, rmatch_star_oneOf.mp hv⟩
  · intro h
    cases w with
    | nil => exact absurd rfl h.1
    | cons a w =>
        rw [List.forall_mem_cons] at h
        exact ⟨[a], w, rfl, rmatch_oneOf.mpr ⟨a, h.2.1, rfl⟩, rmatch_star_oneOf.mpr h.2.2⟩

theorem mem_symbols_of_rmatch {P : RegularExpression α} (h : P.rmatch w = true) :
    ∀ a ∈ w, a ∈ symbols P :=
  mem_symbols ((rmatch_iff_matches' P w).mp h)

end Matching

end Core.Pattern
