import GhafGivc.Agent.Applications
import GhafGivc.Core.CleanPath
import Mathlib.Data.Set.Finite.List

/-! # File arguments of applications

A file that is passed to an application has to lie in one of the directories of its
manifest. The path is checked as a text, and so is the directory: it has to be the beginning
of the path.
-/

namespace GhafGivc.Agent

open Core Core.Pattern

/-- `[-a-zA-Z0-9_/\.\ \(\)\[\]\{\}]` -/
def pathChars : List Char :=
  '-' :: (alnum ++ ['_', '/', '.', ' ', '(', ')', '[', ']', '{', '}'])

/-- `^/[-a-zA-Z0-9_/\.\ \(\)\[\]\{\}]+$` -/
def filePattern : RegularExpression Char := literal "/".toList * many1 (oneOf pathChars)

/-- `^-[-]?[a-zA-Z0-9_-]+$` -/
def flagPattern : RegularExpression Char :=
  literal "-".toList * (optional (literal "-".toList) * many1 (oneOf wordChars))

section Validation

-- what `os.Stat` and `validateUrl` return
variable (stat validateUrl : String → Except String Unit)

def validateFilePath (filePathString : String) (directories : List String) : Except String Unit :=
  if filePathString = "" ∨ filePattern.rmatch filePathString.toList = false then
    throw "failure parsing file path"
  else if "../".toList <:+: filePathString.toList then throw "failure parsing file path"
  else if Path.clean filePathString.toList ≠ filePathString.toList then
    throw "failure parsing file path"
  else
    match directories.find? (fun dir => dir.toList <+: filePathString.toList) with
    | some _ => stat filePathString
    | none => throw "failure parsing file path"

def isFlag (arg : String) : Bool :=
  arg ≠ "" && arg.toList.all (fun c => ' ' ≤ c && c ≤ '~') && flagPattern.rmatch arg.toList

def checkAllowed (answer : Except String Unit) (argType : String) (allowedArgs : List String) :
    Bool :=
  match answer with
  | .ok () => allowedArgs.contains argType
  | .error _ => false

def validateApplicationArg (allowedArgs directories : List String) (arg : String) :
    Except String Unit :=
  if isFlag arg && allowedArgs.contains "flag" then pure ()
  else if checkAllowed (validateUrl arg) "url" allowedArgs then pure ()
  else if checkAllowed (validateFilePath stat arg directories) "file" allowedArgs then pure ()
  else throw ("invalid application argument: " ++ arg)

def validateApplicationArgs (args allowedArgs directories : List String) : Except String Unit :=
  args.forM (validateApplicationArg stat validateUrl allowedArgs directories)

end Validation

theorem validateApplicationArgs_eq_ok {stat validateUrl : String → Except String Unit}
    {args allowedArgs directories : List String} :
    validateApplicationArgs stat validateUrl args allowedArgs directories = .ok () ↔
      ∀ arg ∈ args, isFlag arg = true ∧ "flag" ∈ allowedArgs ∨
        validateUrl arg = .ok () ∧ "url" ∈ allowedArgs ∨
        validateFilePath stat arg directories = .ok () ∧ "file" ∈ allowedArgs := by
  have hallowed : ∀ (answer : Except String Unit) (argType : String),
      checkAllowed answer argType allowedArgs = true ↔
        answer = .ok () ∧ argType ∈ allowedArgs := by
    intro answer argType
    cases answer with
    | ok _ => simp [checkAllowed]
    | error e => simp [checkAllowed]
  have hsingle : ∀ arg,
      validateApplicationArg stat validateUrl allowedArgs directories arg = .ok () ↔
        isFlag arg = true ∧ "flag" ∈ allowedArgs ∨
          validateUrl arg = .ok () ∧ "url" ∈ allowedArgs ∨
          validateFilePath stat arg directories = .ok () ∧ "file" ∈ allowedArgs := by
    intro arg
    rw [← hallowed, ← hallowed]
    unfold validateApplicationArg
    split
    · rename_i hflag
      have hkind : isFlag arg = true ∧ "flag" ∈ allowedArgs := by simpa using hflag
      exact iff_of_true rfl (Or.inl hkind)
    · rename_i hflag
      have hkind : ¬ (isFlag arg = true ∧ "flag" ∈ allowedArgs) := by simpa using hflag
      rw [or_iff_right hkind]
      split
      · rename_i hurl
        exact iff_of_true rfl (Or.inl hurl)
      · rename_i hurl
        rw [or_iff_right hurl]
        split
        · rename_i hfile
          exact iff_of_true rfl hfile
        · rename_i hfile
          exact iff_of_false (fun h => nomatch h) hfile
  unfold validateApplicationArgs
  rw [Fallible.forM_eq_ok]
  exact forall_congr' fun arg => forall_congr' fun _ => hsingle arg

/-! ## Texts that are admitted -/

/-- The text passes the checks that are made before the directories are looked at. -/
structure Admitted (path : String) : Prop where
  matched : filePattern.rmatch path.toList = true
  noParent : ¬ "../".toList <:+: path.toList
  clean : Path.clean path.toList = path.toList

instance (path : String) : Decidable (Admitted path) :=
  decidable_of_iff (filePattern.rmatch path.toList = true ∧ ¬ "../".toList <:+: path.toList ∧
    Path.clean path.toList = path.toList)
    ⟨fun h => ⟨h.1, h.2.1, h.2.2⟩, fun h => ⟨h.matched, h.noParent, h.clean⟩⟩

/-- The path is the directory or lies below it, component by component. -/
def Inside (directory path : String) : Prop :=
  Path.components directory.toList <+: Path.components path.toList

instance (directory path : String) : Decidable (Inside directory path) :=
  inferInstanceAs (Decidable (_ <+: _))

section Admitted

variable {stat : String → Except String Unit} {path : String} {directories : List String}

theorem rmatch_filePattern {w : List Char} : filePattern.rmatch w = true ↔
    ∃ rest, w = '/' :: rest ∧ rest ≠ [] ∧ ∀ c ∈ rest, c ∈ pathChars := by
  simp only [filePattern, RegularExpression.mul_rmatch_iff, rmatch_many1_oneOf, rmatch_literal]
  constructor
  · intro h
    rcases h with ⟨u, rest, hw, hu, hrest⟩
    subst hw hu
    exact ⟨rest, rfl, hrest⟩
  · intro h
    rcases h with ⟨rest, hw, hrest⟩
    exact ⟨_, rest, hw, rfl, hrest⟩

theorem validateFilePath_eq_ok : validateFilePath stat path directories = .ok () ↔
    Admitted path ∧ (∃ dir ∈ directories, dir.toList <+: path.toList) ∧ stat path = .ok () := by
  constructor
  · intro h
    unfold validateFilePath at h
    split at h
    · cases h
    · rename_i hmatch
      split at h
      · cases h
      · rename_i hparent
        split at h
        · cases h
        · rename_i hclean
          have hadmitted : Admitted path :=
            ⟨by simpa using (not_or.mp hmatch).2, hparent, not_not.mp hclean⟩
          split at h
          · rename_i dir hdir
            have hbelow : dir.toList <+: path.toList := by simpa using List.find?_some hdir
            exact ⟨hadmitted, ⟨dir, List.mem_of_find?_eq_some hdir, hbelow⟩, h⟩
          · cases h
  · intro h
    rcases h with ⟨hadmitted, ⟨dir, hdir, hbelow⟩, hstat⟩
    have hne : path ≠ "" := by
      intro hempty
      rcases rmatch_filePattern.mp hadmitted.matched with ⟨rest, hrest, -⟩
      rw [hempty] at hrest
      cases hrest
    have hfound : (directories.find? fun dir => dir.toList <+: path.toList).isSome := by
      rw [List.find?_isSome]
      exact ⟨dir, hdir, by simpa using hbelow⟩
    unfold validateFilePath
    rw [if_neg (by simp [hne, hadmitted.matched]), if_neg hadmitted.noParent,
      if_neg (not_not.mpr hadmitted.clean)]
    rcases Option.isSome_iff_exists.mp hfound with ⟨found, hfind⟩
    rw [hfind]
    exact hstat

theorem Admitted.names (h : Admitted path) : ∃ ns, ns ≠ [] ∧ (∀ name ∈ ns, Path.IsName name) ∧
    path.toList = '/' :: Path.joinNames ns ∧ ∀ c ∈ path.toList, c ∈ pathChars := by
  rcases rmatch_filePattern.mp h.matched with ⟨rest, hpath, hne, hchars⟩
  have habs : Path.isAbsolute path.toList = true := by simp [hpath, Path.isAbsolute]
  rcases (Path.clean_eq_self_iff habs).mp h.clean with ⟨ns, hnames, heq⟩
  refine ⟨ns, ?_, hnames, heq, ?_⟩
  · intro hnil
    rw [hnil, hpath] at heq
    exact hne (List.cons.inj heq).2
  · rw [hpath, List.forall_mem_cons]
    exact ⟨by decide +kernel, hchars⟩

theorem admitted_of_names {ns : List (List Char)} (hne : ns ≠ [])
    (hnames : ∀ name ∈ ns, Path.IsName name) (hpath : path.toList = '/' :: Path.joinNames ns)
    (hchars : ∀ c ∈ path.toList, c ∈ pathChars) (hparent : ¬ "../".toList <:+: path.toList) :
    Admitted path := by
  have habs : Path.isAbsolute path.toList = true := by simp [hpath, Path.isAbsolute]
  refine ⟨?_, hparent, (Path.clean_eq_self_iff habs).mpr ⟨ns, hnames, hpath⟩⟩
  rw [hpath, List.forall_mem_cons] at hchars
  exact rmatch_filePattern.mpr ⟨_, hpath, Path.joinNames_ne_nil hne hnames, hchars.2⟩

theorem isName_append {cut more : List Char} (hcut : '/' ∉ cut) (hne : more ≠ [])
    (hmore : ∀ c ∈ more, c ∈ wordChars) : Path.IsName (cut ++ more) := by
  have hslash : '/' ∉ more := fun hin => absurd (hmore '/' hin) (by decide +kernel)
  have hdot : '.' ∉ more := fun hin => absurd (hmore '.' hin) (by decide +kernel)
  have hdots : ∀ {dots : List Char}, (∀ c ∈ dots, c = '.') → cut ++ more ≠ dots := by
    intro dots hall heq
    rcases List.exists_mem_of_ne_nil more hne with ⟨c, hc⟩
    have hin : c ∈ dots := heq ▸ List.mem_append_right cut hc
    exact hdot (hall c hin ▸ hc)
  exact ⟨by simp [hne], by simp [hcut, hslash], hdots (by simp), hdots (by simp)⟩

/-- No text that ends in a separator begins in `left` and ends after it. -/
theorem isInfix_of_append {pattern left more : List Char} (hlast : pattern.getLast? = some '/')
    (hmore : '/' ∉ more) (h : pattern <:+: left ++ more) : pattern <:+: left := by
  rcases h with ⟨before, after, heq⟩
  rcases List.append_eq_append_iff.mp heq with ⟨rest, hleft, -⟩ | ⟨rest, hpattern, hrest⟩
  · exact ⟨before, rest, hleft.symm⟩
  · cases rest with
    | nil => exact ⟨before, [], by simpa using hpattern⟩
    | cons c rest =>
        have hend : (c :: rest).getLast? = some '/' := by
          have hwhole := congrArg List.getLast? hpattern
          simpa [List.getLast?_append, hlast] using hwhole.symm
        have hin : '/' ∈ more := hrest ▸ List.mem_append_left after (List.mem_of_getLast? hend)
        exact absurd hin hmore

/-- A path of admitted names whose last one goes on with other letters. -/
theorem admitted_append (more : String) {start : String} {front : List (List Char)}
    {cut : List Char}
    (hstart : start.toList = '/' :: Path.joinNames (front ++ [cut]))
    (hfront : ∀ name ∈ front, Path.IsName name) (hcut : '/' ∉ cut)
    (hchars : ∀ c ∈ start.toList, c ∈ pathChars) (hparent : ¬ "../".toList <:+: start.toList)
    (hne : more.toList ≠ []) (hmore : ∀ c ∈ more.toList, c ∈ wordChars) :
    Admitted (start ++ more) ∧ Path.components (start ++ more).toList =
      .rootDir :: (front.map .normal ++ [.normal (cut ++ more.toList)]) := by
  have hnames : ∀ name ∈ front ++ [cut ++ more.toList], Path.IsName name := by
    intro name hname
    cases List.mem_append.mp hname with
    | inl hin => exact hfront name hin
    | inr hin => exact List.mem_singleton.mp hin ▸ isName_append hcut hne hmore
  have hslash : '/' ∉ more.toList := fun hin => absurd (hmore '/' hin) (by decide +kernel)
  have hword : ∀ c ∈ wordChars, c ∈ pathChars := by
    intro c hc
    simp only [wordChars, pathChars, List.mem_append, List.mem_cons, List.not_mem_nil] at hc ⊢
    grind
  have hpath : (start ++ more).toList = '/' :: Path.joinNames (front ++ [cut ++ more.toList]) := by
    rw [String.toList_append, hstart, List.cons_append, Path.joinNames_concat_append]
  constructor
  · refine admitted_of_names (by simp) hnames hpath ?_ ?_
    · intro c hc
      rw [String.toList_append] at hc
      cases List.mem_append.mp hc with
      | inl hin => exact hchars c hin
      | inr hin => exact hword c (hmore c hin)
    · intro hinside
      rw [String.toList_append] at hinside
      exact hparent (isInfix_of_append rfl hslash hinside)
  · rw [hpath, Path.components_root hnames]
    simp

def Encloses (directory path : String) : Prop :=
  Path.components directory.toList <+: (Path.components path.toList).dropLast

instance (directory path : String) : Decidable (Encloses directory path) :=
  inferInstanceAs (Decidable (_ <+: _))

/-- The path of a directory with more letters at its end. -/
def sibling (directory : String) : String := directory ++ "-other"

theorem wordChars_other : ∀ c ∈ "-other".toList, c ∈ wordChars :=
  List.forall_iff_forall_mem.mp (by decide +kernel)

theorem inside_of_sibling {directory : String} (hpath : Admitted path)
    (hbelow : directory.toList <+: path.toList)
    (henclosed : Admitted (sibling directory) → ∃ d ∈ directories, Encloses d (sibling directory))
    (hin : directory ∈ directories) : ∃ d ∈ directories, Inside d path := by
  by_cases hempty : directory = ""
  · exact ⟨directory, hin, by simp [Inside, hempty, Path.components, Path.isAbsolute, Path.ofPart]⟩
  · rcases hpath.names with ⟨ns, hne, hnames, heq, hchars⟩
    cases hdir : directory.toList with
    | nil => exact absurd (String.toList_inj.mp hdir) hempty
    | cons c start =>
        rw [hdir, heq, List.cons_prefix_cons] at hbelow
        rcases hbelow with ⟨hc, hstart⟩
        rcases Path.of_isPrefix_joinNames hne hstart with
          ⟨front, name, back, cut, hns, hcut, hstart'⟩
        have hfront : ∀ n ∈ front, Path.IsName n := fun n hn => hnames n (by simp [hns, hn])
        have hslash : '/' ∉ cut := fun hin => (hnames name (by simp [hns])).2.1 (hcut.subset hin)
        have hbegins : directory.toList <+: path.toList := by
          rw [hdir, heq, List.cons_prefix_cons]
          exact ⟨hc, hstart⟩
        have hsibling := admitted_append "-other" (by rw [hdir, hc, hstart']) hfront hslash
          (fun c hin => hchars c (hbegins.subset hin))
          (fun hinside => hpath.noParent (hinside.trans hbegins.isInfix)) (by decide)
          wordChars_other
        rcases henclosed hsibling.1 with ⟨d, hd, henc⟩
        refine ⟨d, hd, henc.trans ?_⟩
        rw [sibling, hsibling.2, heq, Path.components_root hnames, hns]
        simp [List.dropLast_cons_of_ne_nil]

theorem exists_longer_name (used : List Component) (last : List Char) :
    ∃ n, Component.normal (last ++ List.replicate (n + 1) '0') ∉ used := by
  by_contra hall
  simp only [not_exists, not_not] at hall
  have hinj : Function.Injective fun n =>
      Component.normal (last ++ List.replicate (n + 1) '0') := by
    intro a b hab
    have hlength := congrArg List.length (Component.normal.inj hab)
    simpa using hlength
  exact Set.infinite_range_of_injective hinj
    (used.finite_toSet.subset (Set.range_subset_iff.mpr hall))

theorem encloses_of_inside {q : String} (hq : Admitted q)
    (hinside : ∀ path, Admitted path → q.toList <+: path.toList →
      ∃ d ∈ directories, Inside d path) : ∃ d ∈ directories, Encloses d q := by
  rcases hq.names with ⟨ns, hne, hnames, heq, hchars⟩
  rcases List.eq_nil_or_concat' ns with hnil | ⟨front, last, hns⟩
  · exact absurd hnil hne
  · subst hns
    have hfront : ∀ name ∈ front, Path.IsName name :=
      fun name hname => hnames name (by simp [hname])
    have hlast : '/' ∉ last := (hnames last (by simp)).2.1
    rcases exists_longer_name (directories.flatMap fun d => Path.components d.toList) last with
      ⟨n, hnew⟩
    have hzeros : ∀ c ∈ (String.ofList (List.replicate (n + 1) '0')).toList, c ∈ wordChars := by
      intro c hc
      rw [String.toList_ofList] at hc
      rw [(List.mem_replicate.mp hc).2]
      decide +kernel
    have hlonger := admitted_append (String.ofList (List.replicate (n + 1) '0')) heq hfront hlast
      hchars hq.noParent (by simp) hzeros
    rcases hinside _ hlonger.1 (by simp) with ⟨d, hd, hinside⟩
    refine ⟨d, hd, ?_⟩
    rw [Inside, hlonger.2, String.toList_ofList, ← List.cons_append,
      List.prefix_concat_iff] at hinside
    cases hinside with
    | inl hwhole =>
        refine absurd (List.mem_flatMap.mpr ⟨d, hd, ?_⟩) hnew
        rw [hwhole]
        simp
    | inr habove =>
        rw [Encloses, heq, Path.components_root hnames]
        simpa [List.dropLast_cons_of_ne_nil] using habove

end Admitted

/-- The path is absolute and clean, without dots. -/
def IsCleanPath (path : String) : Prop :=
  Path.isAbsolute path.toList = true ∧ Path.clean path.toList = path.toList ∧
    ['.'] ∉ path.toList.splitOn '/' ∧ ['.', '.'] ∉ path.toList.splitOn '/'

theorem Admitted.isCleanPath {path : String} (h : Admitted path) : IsCleanPath path := by
  rcases h.names with ⟨ns, hne, hnames, heq, -⟩
  have hparts : path.toList.splitOn '/' = [] :: ns := by
    rw [heq, Path.splitOn_root, Path.splitOn_joinNames hne hnames]
  refine ⟨by simp [heq, Path.isAbsolute], h.clean, ?_, ?_⟩
  · rw [hparts]
    exact fun hin => (hnames _ (by simpa using hin)).2.2.1 rfl
  · rw [hparts]
    exact fun hin => (hnames _ (by simpa using hin)).2.2.2 rfl

/-- Every path that is accepted is absolute and clean. It is one of the directories or lies
below one, for every path and every file system, exactly when each sibling of a directory lies
strictly below one: a directory is taken for the beginning of a text. The arguments of an
application are then flags, URLs or paths in its directories. -/
theorem validateFilePath_inside_iff (directories : List String) :
    (∀ stat path, validateFilePath stat path directories = .ok () → IsCleanPath path) ∧
    ((∀ stat path, validateFilePath stat path directories = .ok () →
      ∃ d ∈ directories, Inside d path) ↔
      ∀ d ∈ directories, Admitted (sibling d) → ∃ d' ∈ directories, Encloses d' (sibling d)) ∧
    ((∀ d ∈ directories, Admitted (sibling d) → ∃ d' ∈ directories, Encloses d' (sibling d)) →
      ∀ stat validateUrl args allowedArgs,
        validateApplicationArgs stat validateUrl args allowedArgs directories = .ok () →
          ∀ arg ∈ args, isFlag arg = true ∧ "flag" ∈ allowedArgs ∨
            validateUrl arg = .ok () ∧ "url" ∈ allowedArgs ∨
            (IsCleanPath arg ∧ ∃ d ∈ directories, Inside d arg) ∧ "file" ∈ allowedArgs) := by
  have hclean : ∀ stat path, validateFilePath stat path directories = .ok () →
      IsCleanPath path :=
    fun stat path h => (validateFilePath_eq_ok.mp h).1.isCleanPath
  have hinside (h : ∀ d ∈ directories, Admitted (sibling d) →
      ∃ d' ∈ directories, Encloses d' (sibling d)) (stat : String → Except String Unit)
      (path : String) (haccepted : validateFilePath stat path directories = .ok ()) :
      ∃ d ∈ directories, Inside d path := by
    rcases validateFilePath_eq_ok.mp haccepted with ⟨hpath, ⟨d, hd, hbelow⟩, -⟩
    exact inside_of_sibling hpath hbelow (h d hd) hd
  refine ⟨hclean, ⟨?_, hinside⟩, ?_⟩
  · intro h d hd hsibling
    refine encloses_of_inside hsibling fun path hpath hbelow => ?_
    have hbegins : d.toList <+: (sibling d).toList := by simp [sibling]
    exact h (fun _ => .ok ()) path
      (validateFilePath_eq_ok.mpr ⟨hpath, ⟨d, hd, hbegins.trans hbelow⟩, rfl⟩)
  · intro h stat validateUrl args allowedArgs hargs arg harg
    refine (validateApplicationArgs_eq_ok.mp hargs arg harg).imp_right (Or.imp_right ?_)
    rintro ⟨hfile, hallowed⟩
    exact ⟨⟨hclean stat arg hfile, hinside h stat arg hfile⟩, hallowed⟩

/-- A share of another name is taken for a part of the share. -/
theorem validateFilePath_accepts_sibling :
    validateFilePath (fun _ => .ok ()) "/Shares-other/secret.txt" ["/Shares"] = .ok () ∧
      ¬ ∃ d ∈ ["/Shares"], Inside d "/Shares-other/secret.txt" := by
  have hadmitted : Admitted "/Shares-other/secret.txt" := by
    constructor
    · rw [rmatch_filePattern]
      exact ⟨"Shares-other/secret.txt".toList, by decide, by decide,
        List.forall_iff_forall_mem.mp (by decide +kernel)⟩
    · decide +kernel
    · decide +kernel
  have hbelow : ∃ d ∈ ["/Shares"], d.toList <+: "/Shares-other/secret.txt".toList := by
    decide
  exact ⟨validateFilePath_eq_ok.mpr ⟨hadmitted, hbelow, rfl⟩, by decide +kernel⟩

end GhafGivc.Agent
