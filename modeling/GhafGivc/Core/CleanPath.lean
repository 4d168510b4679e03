import GhafGivc.Core.Path

/-! # Clean paths

`clean` is the shortest text that is lexically the same path: repeated separators, dots and
parent directories are resolved. An absolute text is clean exactly when it is a separator
followed by joined names.
-/

namespace Core.Path

/-- One part of a path after the names `out`. The parent of the root is the root. -/
def cleanPart (rooted : Bool) (out : List (List Char)) (part : List Char) : List (List Char) :=
  if part = [] then out
  else if part = ['.'] then out
  else if part = ['.', '.'] then
    match out.getLast? with
    | none => if rooted then out else [['.', '.']]
    | some last => if last = ['.', '.'] then out ++ [['.', '.']] else out.dropLast
  else out ++ [part]

def clean (text : List Char) : List Char :=
  let out := (text.splitOn '/').foldl (cleanPart (isAbsolute text)) []
  if isAbsolute text then '/' :: joinNames out
  else if out = [] then ['.'] else joinNames out

section Rooted

variable {ns parts : List (List Char)} {text : List Char}

theorem cleanPart_of_isName {name : List Char} (h : IsName name) (rooted : Bool)
    (out : List (List Char)) : cleanPart rooted out name = out ++ [name] := by
  simp [cleanPart, h.1, h.2.2.1, h.2.2.2]

theorem foldl_cleanPart_of_isName (h : ∀ name ∈ ns, IsName name) (rooted : Bool)
    (out : List (List Char)) : ns.foldl (cleanPart rooted) out = out ++ ns := by
  induction ns generalizing out with
  | nil => simp
  | cons name ns ih =>
      rw [List.forall_mem_cons] at h
      rw [List.foldl_cons, cleanPart_of_isName h.1, ih h.2]
      simp

theorem isName_of_mem_foldl {out : List (List Char)} (hparts : ∀ part ∈ parts, '/' ∉ part)
    (hout : ∀ name ∈ out, IsName name) :
    ∀ name ∈ parts.foldl (cleanPart true) out, IsName name := by
  induction parts generalizing out with
  | nil => exact hout
  | cons part parts ih =>
      rw [List.forall_mem_cons] at hparts
      refine ih hparts.2 ?_
      unfold cleanPart
      split
      · exact hout
      · split
        · exact hout
        · split
          · cases hlast : out.getLast? with
            | none => exact hout
            | some last =>
                have hname := hout last (List.mem_of_getLast? hlast)
                dsimp only
                rw [if_neg hname.2.2.2]
                exact fun name hin => hout name ((List.dropLast_subset out) hin)
          · rename_i hempty hdot hdots
            intro name hin
            cases List.mem_append.mp hin with
            | inl hold => exact hout name hold
            | inr hnew =>
                rw [List.mem_singleton.mp hnew]
                exact ⟨hempty, hparts.1, hdot, hdots⟩

theorem splitOn_root (text : List Char) : ('/' :: text).splitOn '/' = [] :: text.splitOn '/' := by
  have hcut : ([] ++ '/' :: text).splitOn '/' = [].splitOn '/' ++ text.splitOn '/' :=
    List.splitOnP_append_cons _ _ (by simp)
  simpa using hcut

theorem splitOn_joinNames (hne : ns ≠ []) (h : ∀ name ∈ ns, IsName name) :
    (joinNames ns).splitOn '/' = ns :=
  List.splitOn_intercalate '/' (fun name hname => (h name hname).2.1) hne

theorem components_root (h : ∀ name ∈ ns, IsName name) :
    components ('/' :: joinNames ns) = .rootDir :: ns.map .normal := by
  have hparts : ((joinNames ns).splitOn '/').filterMap ofPart = ns.filterMap ofPart := by
    cases ns with
    | nil => rfl
    | cons name ns => rw [splitOn_joinNames (List.cons_ne_nil name ns) h]
  unfold components
  rw [splitOn_root]
  simp [isAbsolute, ofPart, hparts, filterMap_ofPart h]

theorem foldl_cleanPart_joinNames (h : ∀ name ∈ ns, IsName name) :
    (('/' :: joinNames ns).splitOn '/').foldl (cleanPart true) [] = ns := by
  have hroot : cleanPart true [] [] = [] := rfl
  rw [splitOn_root, List.foldl_cons, hroot]
  cases ns with
  | nil => rfl
  | cons name ns =>
      rw [splitOn_joinNames (List.cons_ne_nil name ns) h, foldl_cleanPart_of_isName h]
      rfl

/-- An absolute text is clean exactly when it consists of names. -/
theorem clean_eq_self_iff (habs : isAbsolute text = true) :
    clean text = text ↔ ∃ ns, (∀ name ∈ ns, IsName name) ∧ text = '/' :: joinNames ns := by
  unfold clean
  rw [habs]
  dsimp only
  rw [if_pos rfl]
  constructor
  · intro h
    have hparts : ∀ part ∈ text.splitOn '/', '/' ∉ part :=
      Delimited.notMem_of_mem_splitOnP (by decide)
    have hnone : ∀ name ∈ ([] : List (List Char)), IsName name :=
      fun name hin => absurd hin List.not_mem_nil
    exact ⟨_, isName_of_mem_foldl hparts hnone, h.symm⟩
  · intro h
    rcases h with ⟨ns, hnames, heq⟩
    rw [heq, foldl_cleanPart_joinNames hnames]

theorem of_isPrefix_joinNames {start : List Char} (hne : ns ≠ []) (h : start <+: joinNames ns) :
    ∃ front name back cut, ns = front ++ name :: back ∧ cut <+: name ∧
      start = joinNames (front ++ [cut]) := by
  induction ns generalizing start with
  | nil => exact absurd rfl hne
  | cons name ns ih =>
      have hwithin : start <+: name → ∃ front name' back cut,
          name :: ns = front ++ name' :: back ∧ cut <+: name' ∧
            start = joinNames (front ++ [cut]) :=
        fun hcut => ⟨[], name, ns, start, rfl, hcut, by simp [joinNames]⟩
      cases ns with
      | nil =>
          have hone : joinNames [name] = name := by simp [joinNames]
          exact hwithin (hone ▸ h)
      | cons next rest =>
          rw [joinNames_cons_of_ne_nil name (List.cons_ne_nil next rest)] at h
          cases List.prefix_or_prefix_of_prefix h (List.prefix_append name _) with
          | inl hcut => exact hwithin hcut
          | inr hpast =>
              rcases hpast with ⟨tail, htail⟩
              rw [← htail, List.prefix_append_right_inj] at h
              cases tail with
              | nil =>
                  apply hwithin
                  simp [← htail]
              | cons c tail =>
                  rcases List.cons_prefix_cons.mp h with ⟨hc, hrest⟩
                  rcases ih (List.cons_ne_nil next rest) hrest with
                    ⟨front, name', back, cut, hns, hcut, heq⟩
                  refine ⟨name :: front, name', back, cut, by rw [hns]; rfl, hcut, ?_⟩
                  rw [← htail, hc, heq, List.cons_append, joinNames_cons_of_ne_nil name (by simp)]

end Rooted

end Core.Path
