import Mathlib.Data.List.Basic

/-! # Splitting lists at separators

`splitOnce` cuts at the first occurrence of a separator and `rsplitOnce` at the
last one; `rsplitn` cuts repeatedly from the right, rightmost part first. Every
split is characterised by the reassembled list and by which part is free of the
separator, so a caller never unfolds the recursion.
-/

namespace Core.Delimited

variable {α : Type} [DecidableEq α] {sep : α} {l : List α} {a b c d : List α}

def splitOnce (sep : α) : List α → Option (List α × List α)
  | [] => none
  | a :: as =>
      if a = sep then some ([], as)
      else (splitOnce sep as).map fun p => (a :: p.1, p.2)

def rsplitOnce (sep : α) (l : List α) : Option (List α × List α) :=
  (splitOnce sep l.reverse).map fun p => (p.2.reverse, p.1.reverse)

/-- At most `n` parts, taken from the right; the last part keeps the rest. -/
def rsplitn (sep : α) : Nat → List α → List (List α)
  | 0, _ => []
  | 1, l => [l]
  | n + 2, l =>
      match rsplitOnce sep l with
      | none => [l]
      | some (rest, part) => part :: rsplitn sep (n + 1) rest

theorem splitOnce_eq_none : splitOnce sep l = none ↔ sep ∉ l := by
  induction l with
  | nil => simp [splitOnce]
  | cons a as ih =>
      by_cases h : a = sep
      · simp [splitOnce, h]
      · simp [splitOnce, h, ih, Ne.symm h]

theorem splitOnce_eq_some {l left right : List α} :
    splitOnce sep l = some (left, right) ↔ l = left ++ sep :: right ∧ sep ∉ left := by
  induction l generalizing left with
  | nil => simp [splitOnce]
  | cons a as ih =>
      by_cases h : a = sep
      · subst h
        cases left with
        | nil => simp [splitOnce, eq_comm]
        | cons b bs => simp [splitOnce]; intro hb _; simp [hb]
      · cases left with
        | nil => simp [splitOnce, h]
        | cons b bs =>
            simp only [splitOnce, if_neg h, Option.map_eq_some_iff, Prod.exists, Prod.mk.injEq,
              List.cons.injEq, List.cons_append, List.mem_cons, not_or]
            constructor
            · rintro ⟨x, y, hxy, ⟨rfl, rfl⟩, rfl⟩
              have hx := ih.mp hxy
              exact ⟨⟨rfl, hx.1⟩, Ne.symm h, hx.2⟩
            · rintro ⟨⟨rfl, has⟩, _, hbs⟩
              exact ⟨bs, right, ih.mpr ⟨has, hbs⟩, ⟨rfl, rfl⟩, rfl⟩

theorem rsplitOnce_eq_none : rsplitOnce sep l = none ↔ sep ∉ l := by
  simp [rsplitOnce, splitOnce_eq_none]

theorem rsplitOnce_eq_some {l left right : List α} :
    rsplitOnce sep l = some (left, right) ↔ l = left ++ sep :: right ∧ sep ∉ right := by
  simp only [rsplitOnce, Option.map_eq_some_iff, Prod.exists, Prod.mk.injEq]
  constructor
  · rintro ⟨x, y, hxy, rfl, rfl⟩
    obtain ⟨hl, hx⟩ := splitOnce_eq_some.mp hxy
    refine ⟨?_, by simpa using hx⟩
    simpa using congrArg List.reverse hl
  · rintro ⟨rfl, hr⟩
    refine ⟨right.reverse, left.reverse, splitOnce_eq_some.mpr ⟨by simp, by simpa using hr⟩, ?_⟩
    simp

theorem splitOnce_append_cons {left : List α} (right : List α) (h : sep ∉ left) :
    splitOnce sep (left ++ sep :: right) = some (left, right) :=
  splitOnce_eq_some.mpr ⟨rfl, h⟩

theorem rsplitOnce_append_cons (left : List α) {right : List α} (h : sep ∉ right) :
    rsplitOnce sep (left ++ sep :: right) = some (left, right) :=
  rsplitOnce_eq_some.mpr ⟨rfl, h⟩

theorem append_cons_inj (hb : sep ∉ b) (hd : sep ∉ d) (h : a ++ sep :: b = c ++ sep :: d) :
    a = c ∧ b = d := by
  have hsplit := congrArg (rsplitOnce sep) h
  rw [rsplitOnce_append_cons a hb, rsplitOnce_append_cons c hd] at hsplit
  cases hsplit
  exact ⟨rfl, rfl⟩

theorem rsplitn_of_notMem (n : Nat) (h : sep ∉ l) : rsplitn sep (n + 1) l = [l] := by
  cases n with
  | zero => rfl
  | succ n => simp [rsplitn, rsplitOnce_eq_none.mpr h]

theorem rsplitn_append_cons {left right : List α} (n : Nat) (h : sep ∉ right) :
    rsplitn sep (n + 2) (left ++ sep :: right) = right :: rsplitn sep (n + 1) left := by
  simp [rsplitn, rsplitOnce_append_cons left h]

theorem exists_of_dropInfix? {sep left right name rest : List α} (hinside : sep <:+: left)
    (h : (left ++ right).dropInfix? sep = some (name, rest)) :
    ∃ after, left = name ++ sep ++ after ∧ rest = after ++ right := by
  rcases List.dropInfix?_eq_some_iff.mp h with ⟨⟨sep', heq, hsep⟩, hfirst⟩
  cases eq_of_beq hsep
  rcases hinside with ⟨before, behind, hleft⟩
  have hle : name.length ≤ before.length :=
    hfirst before sep (behind ++ right) (by simp [← hleft]) (by simp)
  have hlead : name ++ sep <+: left := by
    have hwhole : name ++ sep <+: left ++ right := ⟨rest, heq.symm⟩
    refine List.prefix_of_prefix_length_le hwhole (List.prefix_append left right) ?_
    rw [← hleft]
    simp only [List.length_append]
    omega
  rcases hlead with ⟨after, rfl⟩
  have hrest : name ++ sep ++ rest = name ++ sep ++ (after ++ right) := by
    rw [← heq, List.append_assoc]
  exact ⟨after, rfl, List.append_cancel_left hrest⟩

/-- The first occurrence of `sep` is the one after `left`, unless an occurrence starts in
`left`, possibly with an end that overlaps this one. -/
theorem dropInfix?_append_iff {sep left right : List α} (hne : sep ≠ []) :
    (left ++ sep ++ right).dropInfix? sep = some (left, right) ↔
      ¬ sep <:+: left ++ sep.dropLast := by
  have hsep : sep.dropLast ++ [sep.getLast hne] = sep := List.dropLast_append_getLast hne
  have hlen : sep.dropLast.length + 1 = sep.length := by
    have hlength := congrArg List.length hsep
    rwa [List.length_append] at hlength
  have hwhole : left ++ sep ++ right =
      left ++ sep.dropLast ++ ([sep.getLast hne] ++ right) := by
    nth_rewrite 1 [← hsep]
    simp only [List.append_assoc]
  rw [List.dropInfix?_eq_some_iff]
  constructor
  · intro h hinside
    rcases hinside with ⟨before, after, heq⟩
    have hagain : left ++ sep ++ right =
        before ++ sep ++ (after ++ ([sep.getLast hne] ++ right)) := by
      rw [hwhole, ← heq]
      simp only [List.append_assoc]
    have hfirst := h.2 _ _ _ hagain (beq_self_eq_true sep)
    have hlength := congrArg List.length heq
    simp only [List.length_append] at hlength
    omega
  · intro hnot
    refine ⟨⟨sep, rfl, beq_self_eq_true sep⟩, ?_⟩
    intro before sep' after heq hsep'
    cases eq_of_beq hsep'
    by_contra hlt
    apply hnot
    have hin : before ++ sep <+: left ++ sep.dropLast := by
      apply List.prefix_of_prefix_length_le ⟨after, heq.symm⟩ ⟨_, hwhole.symm⟩
      simp only [List.length_append]
      omega
    exact (List.suffix_append before sep).isInfix.trans hin.isInfix

omit [DecidableEq α] in
/-- Two texts joined by a separator are the same when their parts are, or when the
separator of the one is inside a part of the other. -/
theorem append_cons_eq_append_cons_iff :
    a ++ sep :: b = c ++ sep :: d ↔
      (a = c ∧ b = d) ∨ (∃ mid, a = c ++ sep :: mid ∧ d = mid ++ sep :: b) ∨
        ∃ mid, c = a ++ sep :: mid ∧ b = mid ++ sep :: d := by
  constructor
  · intro h
    rcases List.append_eq_append_iff.mp h with ⟨l, hc, hb⟩ | ⟨l, ha, hd⟩
    · cases l with
      | nil =>
          rw [List.nil_append, List.cons.injEq] at hb
          exact Or.inl ⟨by simp [hc], hb.2⟩
      | cons x l =>
          rw [List.cons_append, List.cons.injEq] at hb
          exact Or.inr (Or.inr ⟨l, hb.1 ▸ hc, hb.2⟩)
    · cases l with
      | nil =>
          rw [List.nil_append, List.cons.injEq] at hd
          exact Or.inl ⟨by simp [ha], hd.2.symm⟩
      | cons x l =>
          rw [List.cons_append, List.cons.injEq] at hd
          exact Or.inr (Or.inl ⟨l, hd.1 ▸ ha, hd.2⟩)
  · intro h
    rcases h with ⟨rfl, rfl⟩ | ⟨mid, rfl, rfl⟩ | ⟨mid, rfl, rfl⟩
    · rfl
    · simp
    · simp

omit [DecidableEq α] in
theorem notMem_of_mem_splitOnP {p : α → Bool} {c : α} (hc : p c = true) {cs : List α} :
    ∀ part ∈ cs.splitOnP p, c ∉ part := by
  induction cs with
  | nil => simp
  | cons d cs ih =>
      rw [List.splitOnP_cons_eq_if_modifyHead]
      split
      · simpa using ih
      · rename_i hd
        obtain ⟨first, parts, hparts⟩ := List.exists_cons_of_ne_nil (List.splitOnP_ne_nil p cs)
        rw [hparts, List.forall_mem_cons] at ih
        rw [hparts, List.modifyHead_cons, List.forall_mem_cons, List.mem_cons, not_or]
        exact ⟨⟨fun h => hd (h ▸ hc), ih.1⟩, ih.2⟩

theorem of_splitOn_eq_cons_cons {cs a b : List α} {parts : List (List α)}
    (h : cs.splitOn sep = a :: b :: parts) :
    sep ∉ a ∧ sep ∉ b ∧ ∃ rest, cs = a ++ sep :: (b ++ rest) ∧
      (rest = [] ∨ ∃ tail, rest = sep :: tail) := by
  have hfree : ∀ part ∈ cs.splitOn sep, sep ∉ part :=
    notMem_of_mem_splitOnP (p := (· == sep)) (beq_self_eq_true sep)
  rw [h, List.forall_mem_cons, List.forall_mem_cons] at hfree
  have hwhole : [sep].intercalate (cs.splitOn sep) = cs := List.intercalate_splitOn sep
  rw [h, List.intercalate_cons_cons] at hwhole
  refine ⟨hfree.1, hfree.2.1, ?_⟩
  cases parts with
  | nil => exact ⟨[], by simpa using hwhole.symm, Or.inl rfl⟩
  | cons c parts =>
      rw [List.intercalate_cons_cons] at hwhole
      exact ⟨sep :: [sep].intercalate (c :: parts), by simpa using hwhole.symm, Or.inr ⟨_, rfl⟩⟩

end Core.Delimited
