import GhafGivc.Core.Fallible
import GhafGivc.Core.Path
import GhafGivc.Image.Manifest

/-! # Names of pulled files

The names of the files in an update come from the remote manifest and from the annotations
of its layers. Two functions admit such a name, with the same loop and messages of their
own.
-/

namespace GhafGivc.Pull

open Core

/-- The messages of a function that admits relative paths. -/
structure PathMessages where
  absolute : String → String
  parentDir : String → String
  nonRelative : String → String
  empty : String

/-- The loop over the components; `out` is the path built so far. -/
def pushComponents (messages : PathMessages) (value : String) :
    List Char → Path → Except String (List Char)
  | out, [] => .ok out
  | out, .normal part :: rest => pushComponents messages value (Path.push out part) rest
  | out, .curDir :: rest => pushComponents messages value out rest
  | _, .parentDir :: _ => .error (messages.parentDir value)
  | _, .rootDir :: _ => .error (messages.nonRelative value)

def relativePath (messages : PathMessages) (value : String) : Except String String :=
  if Path.isAbsolute value.toList then .error (messages.absolute value)
  else do
    let out ← pushComponents messages value [] (Path.components value.toList)
    if out = [] then .error messages.empty else .ok (String.ofList out)

def normalizeRelativePath : String → Except String String :=
  relativePath ⟨("absolute path is not allowed in manifest: " ++ ·),
    ("parent dir '..' is not allowed in manifest path: " ++ ·),
    ("non-relative path is not allowed in manifest: " ++ ·),
    "empty path is not allowed in manifest"⟩

def sanitizeRelativeFilePath : String → Except String String :=
  relativePath ⟨("absolute path is not allowed: " ++ ·), ("parent dir is not allowed: " ++ ·),
    ("non-relative path is not allowed: " ++ ·), "empty path is not allowed"⟩

def namesOf (value : String) : List (List Char) := Path.names (Path.components value.toList)

/-- The path is relative, has no `..`, and has a name. -/
def Admissible (value : String) : Prop :=
  Path.isAbsolute value.toList = false ∧ .parentDir ∉ Path.components value.toList ∧
    namesOf value ≠ []

section Relative

variable {messages : PathMessages} {value out : String} {path : Path} {ns : List (List Char)}

theorem isName_of_mem_namesOf {name : List Char} (h : name ∈ namesOf value) : Path.IsName name :=
  Path.isName_of_mem_names h

theorem pushComponents_eq_ok {acc found : List Char} :
    pushComponents messages value acc path = .ok found ↔
      .parentDir ∉ path ∧ .rootDir ∉ path ∧ found = (Path.names path).foldl Path.push acc := by
  induction path generalizing acc with
  | nil => simp [pushComponents, Path.names, eq_comm]
  | cons component path ih =>
      cases component with
      | normal part => simp [pushComponents, ih]
      | curDir => simp [pushComponents, ih]
      | parentDir => simp [pushComponents]
      | rootDir => simp [pushComponents]

theorem rootDir_notMem (h : Path.isAbsolute value.toList = false) :
    .rootDir ∉ Path.components value.toList := by
  have hparts : Component.rootDir ∉ (value.toList.splitOn '/').filterMap Path.ofPart := by
    intro hin
    rcases List.mem_filterMap.mp hin with ⟨part, -, hof⟩
    unfold Path.ofPart at hof
    split at hof
    · cases hof
    · split at hof
      · cases hof
      · split at hof <;> cases hof
  unfold Path.components
  dsimp only
  rw [h]
  split
  · cases ‹false = true›
  · split
    · simpa using hparts
    · exact hparts

theorem relativePath_eq_ok : relativePath messages value = .ok out ↔
    Admissible value ∧ out = String.ofList (Path.joinNames (namesOf value)) := by
  have hnames : ∀ name ∈ namesOf value, Path.IsName name := fun name => isName_of_mem_namesOf
  unfold relativePath Admissible
  cases habs : Path.isAbsolute value.toList with
  | true => simp
  | false =>
      have hroot := rootDir_notMem habs
      rw [if_neg (by simp), Fallible.bind_eq_ok]
      simp only [pushComponents_eq_ok, true_and]
      constructor
      · intro h
        rcases h with ⟨found, ⟨hparent, -, hfound⟩, hend⟩
        have hjoin : found = Path.joinNames (namesOf value) := by
          rw [hfound]
          exact Path.foldl_push hnames
        subst hjoin
        split at hend
        · cases hend
        · rename_i hne
          refine ⟨⟨hparent, fun hempty => hne (by rw [hempty]; rfl)⟩, ?_⟩
          exact (Except.ok.inj hend).symm
      · intro h
        rcases h with ⟨⟨hparent, hne⟩, heq⟩
        refine ⟨Path.joinNames (namesOf value), ⟨hparent, hroot, ?_⟩, ?_⟩
        · exact (Path.foldl_push hnames).symm
        · rw [if_neg (Path.joinNames_ne_nil hne hnames), heq]

theorem namesOf_joinNames (hne : ns ≠ []) (h : ∀ name ∈ ns, Path.IsName name)
    (heq : value.toList = Path.joinNames ns) : namesOf value = ns := by
  rw [namesOf, heq, Path.components_joinNames hne h, Path.names_map_normal]

theorem namesOf_relativePath (h : relativePath messages value = .ok out) :
    namesOf out = namesOf value := by
  rcases relativePath_eq_ok.mp h with ⟨⟨-, -, hne⟩, heq⟩
  refine namesOf_joinNames hne (fun name => isName_of_mem_namesOf) ?_
  rw [heq, String.toList_ofList]

theorem relativePath_joinNames (hne : ns ≠ []) (h : ∀ name ∈ ns, Path.IsName name) :
    relativePath messages (String.ofList (Path.joinNames ns)) =
      .ok (String.ofList (Path.joinNames ns)) := by
  have hcomponents := Path.components_joinNames hne h
  have hnames : namesOf (String.ofList (Path.joinNames ns)) = ns :=
    namesOf_joinNames hne h String.toList_ofList
  refine relativePath_eq_ok.mpr ⟨⟨?_, ?_, ?_⟩, ?_⟩
  · rw [String.toList_ofList]
    exact Path.isAbsolute_joinNames h
  · rw [String.toList_ofList, hcomponents]
    simp
  · rw [hnames]
    exact hne
  · rw [hnames]

end Relative

/-- The function admits the relative paths without `..` that have a name, and returns the
names of such a path. -/
structure Sanitizes (f : String → Except String String) : Prop where
  accepts : ∀ value, (∃ out, f value = .ok out) ↔ Admissible value
  joined : ∀ value out, f value = .ok out → out.toList = Path.joinNames (namesOf value)
  idempotent : ∀ value out, f value = .ok out → f out = .ok out

theorem sanitizes_relativePath (messages : PathMessages) : Sanitizes (relativePath messages) where
  accepts value := by
    constructor
    · intro h
      rcases h with ⟨out, hout⟩
      exact (relativePath_eq_ok.mp hout).1
    · intro h
      exact ⟨_, relativePath_eq_ok.mpr ⟨h, rfl⟩⟩
  joined value out h := by
    rw [(relativePath_eq_ok.mp h).2, String.toList_ofList]
  idempotent value out h := by
    rcases relativePath_eq_ok.mp h with ⟨⟨-, -, hne⟩, heq⟩
    rw [heq]
    exact relativePath_joinNames hne fun name => isName_of_mem_namesOf

theorem toOption_relativePath (messages messages' : PathMessages) (value : String) :
    (relativePath messages value).toOption = (relativePath messages' value).toOption := by
  have hsame : ∀ m m' out, relativePath m value = .ok out → relativePath m' value = .ok out :=
    fun m m' out h => relativePath_eq_ok.mpr (relativePath_eq_ok.mp h)
  cases h : relativePath messages value with
  | ok out => rw [hsame messages messages' out h]
  | error e =>
      cases h' : relativePath messages' value with
      | ok out => cases h.symm.trans (hsame messages' messages out h')
      | error e' => rfl

/-- The name lies below any directory it is joined to. -/
def LocalName (name : String) : Prop := ∀ dir : Path, Path.Below dir (dir.join name.toList)

/-- The name is made of the names of nested directories and of a file. -/
def Joined (name : String) : Prop :=
  ∃ ns : List (List Char), ns ≠ [] ∧ (∀ part ∈ ns, Path.IsName part) ∧
    name.toList = Path.joinNames ns

variable {name : String}

theorem Joined.localName (h : Joined name) : LocalName name := by
  intro dir
  rcases h with ⟨ns, hne, hnames, heq⟩
  rw [heq]
  exact Path.below_join dir hne hnames

theorem joined_of_isName (h : Path.IsName name.toList) : Joined name :=
  ⟨[name.toList], by simp, by simpa using h, by simp [Path.joinNames]⟩

theorem joined_of_relativePath {messages : PathMessages} {value out : String}
    (h : relativePath messages value = .ok out) : Joined out := by
  rcases relativePath_eq_ok.mp h with ⟨⟨-, -, hne⟩, heq⟩
  exact ⟨namesOf value, hne, fun name => isName_of_mem_namesOf, by rw [heq, String.toList_ofList]⟩

theorem Joined.relativePath {messages : PathMessages} (h : Joined name) :
    relativePath messages name = .ok name := by
  rcases h with ⟨ns, hne, hnames, heq⟩
  have hname : name = String.ofList (Path.joinNames ns) := by
    rw [← heq, String.ofList_toList]
  rw [hname]
  exact relativePath_joinNames hne hnames

def File.normalizePath (file : Image.File) : Except String Image.File := do
  let name ← normalizeRelativePath file.name
  pure { file with name }

def Manifest.normalizePaths (manifest : Image.Manifest) : Except String Image.Manifest := do
  let kernel ← File.normalizePath manifest.kernel
  let store ← File.normalizePath manifest.store
  let verity ← File.normalizePath manifest.verity
  pure { manifest with kernel, store, verity }

theorem File.joined_of_normalizePath {file out : Image.File}
    (h : normalizePath file = .ok out) : Joined out.name := by
  rcases Fallible.bind_eq_ok.mp h with ⟨name, hname, hout⟩
  cases hout
  exact joined_of_relativePath hname

theorem Manifest.normalizePaths_of_joined {manifest : Image.Manifest}
    (hkernel : Joined manifest.kernel.name) (hstore : Joined manifest.store.name)
    (hverity : Joined manifest.verity.name) : normalizePaths manifest = .ok manifest := by
  unfold normalizePaths File.normalizePath normalizeRelativePath
  rw [hkernel.relativePath, hstore.relativePath, hverity.relativePath]
  rfl

theorem Manifest.joined_of_normalizePaths {manifest out : Image.Manifest}
    (h : normalizePaths manifest = .ok out) :
    Joined out.kernel.name ∧ Joined out.store.name ∧ Joined out.verity.name := by
  rcases Fallible.bind_eq_ok.mp h with ⟨kernel, hkernel, hrest⟩
  rcases Fallible.bind_eq_ok.mp hrest with ⟨store, hstore, hrest⟩
  rcases Fallible.bind_eq_ok.mp hrest with ⟨verity, hverity, hout⟩
  cases hout
  exact ⟨File.joined_of_normalizePath hkernel, File.joined_of_normalizePath hstore,
    File.joined_of_normalizePath hverity⟩

end GhafGivc.Pull
