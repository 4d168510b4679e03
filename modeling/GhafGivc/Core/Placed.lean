import GhafGivc.Core.FileTree

/-! # Files put in place one after the other

A file is put in place by writing it under a temporary name and renaming it. What stands at
a path after several files were put in place is decided by the last of them that touched
the path.
-/

namespace Core

/-- A file put at `target`, by way of `temp` if it is written there first. -/
structure Put where
  temp : Option Path
  target : Path
  content : List UInt8
deriving DecidableEq

namespace Put

def Touches (put : Put) (p : Path) : Prop := put.target = p ∨ put.temp = some p

instance (put : Put) (p : Path) : Decidable (put.Touches p) :=
  inferInstanceAs (Decidable (_ ∨ _))

def lastTouch (puts : List Put) (p : Path) : Option Put :=
  (puts.filter fun put => put.Touches p).getLast?

/-- The last put that touches the target of `put` leaves the file of `put` there. -/
def Settled (puts : List Put) (put : Put) : Prop :=
  ∃ last, lastTouch puts put.target = some last ∧ last.target = put.target ∧
    last.content = put.content

/-- In `dir`, the files of `tree'` are those of `tree` and those that were put in place. -/
def After (dir : Path) (tree : FileTree) (puts : List Put) (tree' : FileTree) : Prop :=
  ∀ p content, dir <+: p → (tree' p = some (.file content) ↔
    match lastTouch puts p with
    | some put => put.target = p ∧ put.content = content
    | none => tree p = some (.file content))

section LastTouch

variable {puts before later : List Put} {put : Put} {p : Path}

theorem lastTouch_append : lastTouch (before ++ later) p =
    (lastTouch later p).or (lastTouch before p) := by
  simp [lastTouch, List.getLast?_append]

theorem lastTouch_eq_none : lastTouch puts p = none ↔ ∀ put ∈ puts, ¬ put.Touches p := by
  simp [lastTouch]

theorem lastTouch_eq_some {last : Put} (h : lastTouch puts p = some last) :
    last ∈ puts ∧ last.Touches p := by
  have hin : last ∈ puts.filter fun put => put.Touches p := List.mem_of_getLast? h
  simpa using hin

theorem lastTouch_self (put : Put) : lastTouch [put] put.target = some put := by
  simp [lastTouch, Touches]

theorem lastTouch_append_cons (hlater : ∀ other ∈ later, ¬ other.Touches put.target) :
    lastTouch (before ++ put :: later) put.target = some put := by
  have hsplit : before ++ put :: later = before ++ ([put] ++ later) := rfl
  rw [hsplit, lastTouch_append, lastTouch_append, lastTouch_eq_none.mpr hlater, lastTouch_self]
  rfl

theorem settled_of_untouched (before : List Put) (put : Put)
    (hlater : ∀ other ∈ later, ¬ other.Touches put.target) :
    Settled (before ++ put :: later) put :=
  ⟨put, lastTouch_append_cons hlater, rfl, rfl⟩

/-- A later put that touches the target leaves another file, or none. -/
theorem Settled.untouched (before : List Put) (h : Settled (before ++ put :: later) put)
    (hcontent : ∀ other ∈ later, other.content ≠ put.content) :
    ∀ other ∈ later, ¬ other.Touches put.target := by
  rcases h with ⟨last, hlast, -, hsame⟩
  have hsplit : before ++ put :: later = (before ++ [put]) ++ later := by simp
  rw [hsplit, lastTouch_append] at hlast
  rw [← lastTouch_eq_none]
  cases hlater : lastTouch later put.target with
  | none => rfl
  | some other =>
      rw [hlater] at hlast
      cases hlast
      exact absurd hsame (hcontent _ (lastTouch_eq_some hlater).1)

end LastTouch

section After

variable {dir part target : Path} {tree mid tree' : FileTree} {puts first later : List Put}
  {content : List UInt8}

theorem After.append (hfirst : After dir tree first mid) (hlater : After dir mid later tree') :
    After dir tree (first ++ later) tree' := by
  intro p content hp
  rw [hlater p content hp, lastTouch_append]
  cases lastTouch later p with
  | some put => rfl
  | none => exact hfirst p content hp

/-- A file that was put in place is there unless a later one touched its path. -/
theorem After.file_iff_settled (h : After dir tree puts tree') (put : Put) (hin : put ∈ puts)
    (hdir : dir <+: put.target) :
    tree' put.target = some (.file put.content) ↔ Settled puts put := by
  rw [h put.target put.content hdir]
  unfold Settled
  cases hlast : lastTouch puts put.target with
  | none => exact absurd (Or.inl rfl) (lastTouch_eq_none.mp hlast put hin)
  | some last => simp

theorem after_write (dir file : Path) (content : List UInt8) :
    After dir tree [⟨none, file, content⟩] ((FileEffect.write file content).apply tree) := by
  intro p found _
  change Function.update tree file _ p = some (.file found) ↔ _
  by_cases hp : p = file
  · subst hp
    simp [lastTouch, Touches]
  · rw [Function.update_of_ne hp]
    simp [lastTouch, Touches, Ne.symm hp]

theorem after_rename (dir : Path) (hne : part ≠ target) :
    After dir tree [⟨some part, target, content⟩] ((FileEffect.rename part target).apply
      ((FileEffect.write part content).apply ((FileEffect.create part).apply tree))) := by
  intro p found _
  simp only [FileEffect.apply, Function.update_idem, Function.update_self]
  by_cases hp : p = target
  · subst hp
    simp [lastTouch, Touches]
  · rw [Function.update_of_ne hp]
    by_cases hpart : p = part
    · subst hpart
      simp [lastTouch, Touches, Ne.symm hp]
    · rw [Function.update_of_ne hpart]
      simp [lastTouch, Touches, Ne.symm hp, Ne.symm hpart]

theorem after_nil_of_outside {events : List (FileEffect × Bool)}
    (hsteps : FileTree.Steps tree events tree')
    (hreplaces : ∀ event ∈ events, ∀ p, dir <+: p → ¬ event.1.Replaces p)
    (hmakes : ∀ event ∈ events, ∀ p content, dir <+: p → ¬ event.1.Makes p (.file content)) :
    After dir tree [] tree' := by
  intro p content hp
  constructor
  · intro hfound
    rcases hsteps.makes hfound with hold | ⟨event, hin, hmade⟩
    · exact hold
    · exact absurd hmade (hmakes event hin p content hp)
  · intro hfound
    exact hsteps.keeps (fun event hin => hreplaces event hin p hp) hfound

end After

end Put

end Core
