import GhafGivc.Core.Delimited

/-! # Unix paths

A path text is read as a list of components: repeated separators and inner dots are
skipped, a dot in front is kept. Paths are equal when their components are, so a path is
modelled by them.
-/

namespace Core

inductive Component where
  | rootDir
  | curDir
  | parentDir
  | normal (name : List Char)
deriving DecidableEq

def Component.name? : Component → Option (List Char)
  | .normal name => some name
  | _ => none

abbrev Path := List Component

namespace Path

def isAbsolute (text : List Char) : Bool := text.head? = some '/'

def ofPart (part : List Char) : Option Component :=
  if part = [] then none
  else if part = ['.'] then none
  else if part = ['.', '.'] then some .parentDir
  else some (.normal part)

def components (text : List Char) : Path :=
  let parts := text.splitOn '/'
  if isAbsolute text then .rootDir :: parts.filterMap ofPart
  else if parts.head? = some ['.'] then .curDir :: parts.filterMap ofPart
  else parts.filterMap ofPart

/-- An absolute text replaces the path. -/
def join (path : Path) (text : List Char) : Path :=
  if isAbsolute text then components text
  else if path = [] then components text
  else path ++ (components text).filter (· ≠ .curDir)

def parent (path : Path) : Option Path :=
  match path.getLast? with
  | none => none
  | some .rootDir => none
  | some _ => some path.dropLast

/-- A path that ends in no name stays as it is. -/
def withAddedExtension (path : Path) (extension : List Char) : Path :=
  match path.getLast? with
  | some (.normal name) =>
      if extension = [] then path else path.dropLast ++ [.normal (name ++ '.' :: extension)]
  | _ => path

/-- A name and what follows its last dot. A dot in front begins no extension. -/
def splitExtension (name : List Char) : List Char × Option (List Char) :=
  match Delimited.rsplitOnce '.' name with
  | none => (name, none)
  | some ([], _) => (name, none)
  | some (stem, extension) => (stem, some extension)

def addExtension (stem extension : List Char) : List Char :=
  if extension = [] then stem else stem ++ '.' :: extension

/-- The old extension is cut off before the stem is looked for, so that a stem `.` is taken
for the parent directory, which has none. -/
def withExtension (path : Path) (extension : List Char) : Path :=
  match path.getLast? with
  | some (.normal name) =>
      match splitExtension name with
      | (stem, none) => path.dropLast ++ [.normal (addExtension stem extension)]
      | (['.'], some _) => path.dropLast ++ [.parentDir]
      | (stem, some _) => path.dropLast ++ [.normal (addExtension stem extension)]
  | _ => path

/-- Appends a relative name to a text. -/
def push (text name : List Char) : List Char :=
  if text = [] ∨ text.getLast? = some '/' then text ++ name else text ++ '/' :: name

/-- A text that is a normal component on its own. -/
def IsName (name : List Char) : Prop :=
  name ≠ [] ∧ '/' ∉ name ∧ name ≠ ['.'] ∧ name ≠ ['.', '.']

instance : DecidablePred IsName := fun _ => inferInstanceAs (Decidable (_ ∧ _ ∧ _ ∧ _))

def names (path : Path) : List (List Char) := path.filterMap Component.name?

def joinNames (names : List (List Char)) : List Char := ['/'].intercalate names

section Names

variable {name : List Char} {ns : List (List Char)} {path : Path} {text : List Char}

theorem ofPart_of_isName (h : IsName name) : ofPart name = some (.normal name) := by
  rcases h with ⟨hne, -, hdot, hdots⟩
  simp [ofPart, hne, hdot, hdots]

theorem ofPart_eq_normal {part : List Char} (h : ofPart part = some (.normal name))
    (hslash : '/' ∉ part) : IsName name := by
  unfold ofPart at h
  split at h
  · cases h
  · split at h
    · cases h
    · split at h
      · cases h
      · rename_i hne hdot hdots
        cases Option.some.inj h
        exact ⟨hne, hslash, hdot, hdots⟩

theorem isName_of_mem_names (h : name ∈ names (components text)) : IsName name := by
  have hparts : ∀ name ∈ names ((text.splitOn '/').filterMap ofPart), IsName name := by
    intro name hname
    rcases List.mem_filterMap.mp hname with ⟨component, hcomponent, heq⟩
    rcases List.mem_filterMap.mp hcomponent with ⟨part, hpart, hof⟩
    cases component with
    | normal found =>
        cases Option.some.inj heq
        exact ofPart_eq_normal hof (Delimited.notMem_of_mem_splitOnP (by decide) part hpart)
    | rootDir => cases heq
    | curDir => cases heq
    | parentDir => cases heq
  refine hparts name ?_
  unfold components at h
  dsimp only at h
  split at h
  · exact h
  · split at h
    · exact h
    · exact h

@[simp] theorem names_normal_cons (name : List Char) (path : Path) :
    names (.normal name :: path) = name :: names path := rfl

@[simp] theorem names_curDir_cons (path : Path) : names (.curDir :: path) = names path := rfl

theorem names_map_normal (ns : List (List Char)) : names (ns.map .normal) = ns := by
  induction ns with
  | nil => rfl
  | cons name ns ih =>
      rw [List.map_cons, names_normal_cons, ih]

theorem joinNames_cons (name : List Char) (ns : List (List Char)) :
    joinNames (name :: ns) = name ++ ns.flatMap ('/' :: ·) := by
  induction ns generalizing name with
  | nil => simp [joinNames]
  | cons next ns ih =>
      have hnext := ih next
      unfold joinNames at hnext ⊢
      rw [List.intercalate_cons_cons, hnext]
      simp

theorem joinNames_cons_of_ne_nil (name : List Char) (hne : ns ≠ []) :
    joinNames (name :: ns) = name ++ '/' :: joinNames ns := by
  cases ns with
  | nil => exact absurd rfl hne
  | cons next rest => simp [joinNames, List.intercalate_cons_cons]

theorem joinNames_concat_append (front : List (List Char)) (last more : List Char) :
    joinNames (front ++ [last]) ++ more = joinNames (front ++ [last ++ more]) := by
  induction front with
  | nil => simp [joinNames]
  | cons name front ih =>
      rw [List.cons_append, List.cons_append, joinNames_cons_of_ne_nil name (by simp),
        joinNames_cons_of_ne_nil name (by simp), ← ih]
      simp

theorem joinNames_ne_nil (hne : ns ≠ []) (h : ∀ name ∈ ns, IsName name) : joinNames ns ≠ [] := by
  cases ns with
  | nil => exact absurd rfl hne
  | cons name ns =>
      rw [joinNames_cons]
      simp [(h name (by simp)).1]

theorem isAbsolute_joinNames (h : ∀ name ∈ ns, IsName name) :
    isAbsolute (joinNames ns) = false := by
  cases ns with
  | nil => rfl
  | cons name ns =>
      rcases h name (by simp) with ⟨hne, hslash, -⟩
      rw [joinNames_cons]
      cases name with
      | nil => exact absurd rfl hne
      | cons c name =>
          have hc : c ≠ '/' := fun heq => hslash (by simp [heq])
          simpa [isAbsolute] using hc

theorem filterMap_ofPart (h : ∀ name ∈ ns, IsName name) :
    ns.filterMap ofPart = ns.map .normal := by
  rw [← List.filterMap_eq_map]
  exact List.filterMap_congr fun name hname => ofPart_of_isName (h name hname)

theorem components_joinNames (hne : ns ≠ []) (h : ∀ name ∈ ns, IsName name) :
    components (joinNames ns) = ns.map .normal := by
  have hparts : (joinNames ns).splitOn '/' = ns :=
    List.splitOn_intercalate '/' (fun name hname => (h name hname).2.1) hne
  have hfirst : ns.head? ≠ some ['.'] := by
    intro hhead
    exact (h ['.'] (List.mem_of_mem_head? hhead)).2.2.1 rfl
  unfold components
  rw [hparts, isAbsolute_joinNames h]
  simp [hfirst, filterMap_ofPart h]

theorem join_joinNames (path : Path) (hne : ns ≠ []) (h : ∀ name ∈ ns, IsName name) :
    path.join (joinNames ns) = path ++ ns.map .normal := by
  unfold join
  rw [isAbsolute_joinNames h, components_joinNames hne h]
  by_cases hpath : path = [] <;> simp [hpath]

theorem foldl_push_append {acc : List Char} (hacc : acc ≠ []) (hend : acc.getLast? ≠ some '/')
    (h : ∀ name ∈ ns, IsName name) : ns.foldl push acc = acc ++ ns.flatMap ('/' :: ·) := by
  induction ns generalizing acc with
  | nil => simp
  | cons name ns ih =>
      rw [List.forall_mem_cons] at h
      have hpush : push acc name = acc ++ '/' :: name := by
        simp [push, hacc, hend]
      have hlast : (acc ++ '/' :: name).getLast? ≠ some '/' := by
        intro hslash
        have hname : name.getLast? = some '/' := by
          simpa [List.getLast?_append, List.getLast?_cons, List.getLast?_eq_some_getLast h.1.1]
            using hslash
        exact h.1.2.1 (List.mem_of_getLast? hname)
      rw [List.foldl_cons, hpush, ih (by simp) hlast h.2]
      simp

theorem foldl_push (h : ∀ name ∈ ns, IsName name) : ns.foldl push [] = joinNames ns := by
  cases ns with
  | nil => rfl
  | cons name ns =>
      rw [List.forall_mem_cons] at h
      have hend : name.getLast? ≠ some '/' := fun hlast => h.1.2.1 (List.mem_of_getLast? hlast)
      rw [joinNames_cons, ← foldl_push_append h.1.1 hend h.2]
      rfl

theorem isName_addExtension (h : IsName name) {extension : List Char} (hne : extension ≠ [])
    (hslash : '/' ∉ extension) : IsName (name ++ '.' :: extension) := by
  have hlength : 3 ≤ (name ++ '.' :: extension).length := by
    have hname := List.length_pos_iff.mpr h.1
    have hext := List.length_pos_iff.mpr hne
    simp only [List.length_append, List.length_cons]
    omega
  refine ⟨by simp, ?_, fun heq => ?_, fun heq => ?_⟩
  · simp [h.2.1, hslash]
  · rw [heq] at hlength
    exact absurd hlength (by decide)
  · rw [heq] at hlength
    exact absurd hlength (by decide)

end Names

/-- The path is `dir` followed by one or more normal components. -/
def Below (dir path : Path) : Prop :=
  ∃ ns : List (List Char), ns ≠ [] ∧ (∀ name ∈ ns, IsName name) ∧ path = dir ++ ns.map .normal

section Below

variable {dir path : Path} {ns : List (List Char)} {extension : List Char}

theorem below_join (dir : Path) (hne : ns ≠ []) (h : ∀ name ∈ ns, IsName name) :
    Below dir (dir.join (joinNames ns)) :=
  ⟨ns, hne, h, join_joinNames dir hne h⟩

theorem Below.isPrefix (h : Below dir path) : dir <+: path := by
  rcases h with ⟨ns, -, -, heq⟩
  exact ⟨ns.map .normal, heq.symm⟩

theorem Below.of_isPrefix {up : Path} (h : Below dir path) (hup : up <+: path) :
    up <+: dir ∨ Below dir up := by
  rcases h with ⟨ns, -, hnames, heq⟩
  rw [heq] at hup
  cases List.prefix_or_prefix_of_prefix hup (List.prefix_append dir _) with
  | inl hdir => exact Or.inl hdir
  | inr hdir =>
      rcases hdir with ⟨rest, hrest⟩
      rw [← hrest, List.prefix_append_right_inj, List.prefix_iff_eq_take, ← List.map_take] at hup
      by_cases hnil : ns.take rest.length = []
      · rw [hnil] at hup
        exact Or.inl (by simp [← hrest, hup])
      · refine Or.inr ⟨ns.take rest.length, hnil, ?_, by rw [← hup, hrest]⟩
        exact fun name hname => hnames name (List.mem_of_mem_take hname)

theorem parent_concat (path : Path) (name : List Char) :
    parent (path ++ [.normal name]) = some path := by
  simp [parent]

theorem withAddedExtension_concat (path : Path) (name : List Char) (hne : extension ≠ []) :
    withAddedExtension (path ++ [.normal name]) extension =
      path ++ [.normal (name ++ '.' :: extension)] := by
  simp [withAddedExtension, hne]

theorem Below.concat (h : Below dir path) :
    ∃ up last, path = up ++ [.normal last] ∧ IsName last ∧ (up = dir ∨ Below dir up) := by
  rcases h with ⟨ns, hne, hnames, heq⟩
  rcases List.eq_nil_or_concat' ns with hnil | ⟨front, last, hns⟩
  · exact absurd hnil hne
  · subst hns
    refine ⟨dir ++ front.map .normal, last, by simp [heq], hnames last (by simp), ?_⟩
    by_cases hfront : front = []
    · exact Or.inl (by simp [hfront])
    · exact Or.inr ⟨front, hfront, fun name hname => hnames name (by simp [hname]), rfl⟩

theorem below_concat {up : Path} {last : List Char} (hup : up = dir ∨ Below dir up)
    (hlast : IsName last) : Below dir (up ++ [.normal last]) := by
  rcases hup with heq | ⟨ns, -, hnames, heq⟩
  · exact ⟨[last], by simp, by simpa using hlast, by simp [heq]⟩
  · refine ⟨ns ++ [last], by simp, ?_, by simp [heq]⟩
    intro name hname
    cases List.mem_append.mp hname with
    | inl hin => exact hnames name hin
    | inr hin => exact List.mem_singleton.mp hin ▸ hlast

theorem Below.parent (h : Below dir path) :
    ∃ up, path.parent = some up ∧ (up = dir ∨ Below dir up) := by
  rcases h.concat with ⟨up, last, heq, -, hup⟩
  exact ⟨up, heq ▸ parent_concat up last, hup⟩

theorem Below.withAddedExtension (h : Below dir path) (hne : extension ≠ [])
    (hslash : '/' ∉ extension) : Below dir (path.withAddedExtension extension) := by
  rcases h.concat with ⟨up, last, heq, hlast, hup⟩
  rw [heq, withAddedExtension_concat up last hne]
  exact below_concat hup (isName_addExtension hlast hne hslash)

end Below

end Path

end Core
