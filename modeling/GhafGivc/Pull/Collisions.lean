import GhafGivc.Core.Served
import GhafGivc.Pull.Stored

/-! # Names that get in each other's way

The names of the artifacts may have directories in them. An artifact cannot be stored where
another one has a directory, nor below the file of another one, and its temporary file and
`manifest.json` need their places too.
-/

namespace GhafGivc.Pull

open Core

/-- The directories on the way to a file in the output directory, and its name. -/
abbrev RelPath := List (List Char)

/-- The temporary file of the artifact. -/
def partOf (file : RelPath) : RelPath :=
  file.dropLast ++ (file.getLast?.map (· ++ ".part".toList)).toList

/-- `dir` is a directory on the way to the file. -/
def OnTheWay (dir file : RelPath) : Prop := dir <+: file ∧ dir ≠ file

instance (dir file : RelPath) : Decidable (OnTheWay dir file) := inferInstanceAs (Decidable (_ ∧ _))

/-- The artifact can be stored. Earlier ones have left directories on the way to them, and the
files that are there now. -/
def HasRoom (earlier files : List RelPath) (file : RelPath) : Prop :=
  (∀ other ∈ files, ¬ OnTheWay other file) ∧
    (∀ other ∈ earlier, ¬ OnTheWay (partOf file) other) ∧
    ∀ other ∈ earlier, ¬ OnTheWay file other

instance (earlier files : List RelPath) (file : RelPath) : Decidable (HasRoom earlier files file) :=
  inferInstanceAs (Decidable (_ ∧ _ ∧ _))

/-- The artifacts can be stored one after the other. A temporary file takes the place of an
artifact of its name. -/
def Storable (earlier files : List RelPath) : List RelPath → Prop
  | [] => True
  | file :: later =>
      HasRoom earlier files file ∧
        Storable (file :: earlier) (file :: files.filter (· ≠ partOf file)) later

instance decidableStorable :
    (earlier files later : List RelPath) → Decidable (Storable earlier files later)
  | _, _, [] => .isTrue trivial
  | earlier, files, file :: later =>
      have := decidableStorable (file :: earlier) (file :: files.filter (· ≠ partOf file)) later
      inferInstanceAs (Decidable (_ ∧ _))

/-- The artifacts can be stored, and `manifest.json` beside them. -/
def Fits (artifacts : List RelPath) : Prop :=
  Storable [] [] artifacts ∧ ∀ file ∈ artifacts, ¬ OnTheWay ["manifest.json".toList] file

instance (artifacts : List RelPath) : Decidable (Fits artifacts) :=
  inferInstanceAs (Decidable (_ ∧ _))

/-! ## Paths in the output directory -/

def place (outputDir : Path) (file : RelPath) : Path := outputDir ++ file.map .normal

section Place

variable {outputDir : Path} {file other : RelPath}

theorem place_inj : place outputDir file = place outputDir other ↔ file = other := by
  unfold place
  rw [List.append_cancel_left_eq]
  exact (List.map_injective_iff.mpr fun _ _ h => Component.normal.inj h).eq_iff

theorem isPrefix_place {q : Path} (h : q <+: place outputDir file) :
    q <+: outputDir ∨ ∃ dir, dir ≠ [] ∧ dir <+: file ∧ q = place outputDir dir := by
  rcases List.prefix_or_prefix_of_prefix h (List.prefix_append outputDir _) with hup | hdown
  · exact Or.inl hup
  · rcases hdown with ⟨rest, rfl⟩
    rw [place, List.prefix_append_right_inj, List.prefix_iff_eq_take, ← List.map_take] at h
    by_cases hnil : file.take rest.length = []
    · rw [hnil] at h
      exact Or.inl (by simp [h])
    · exact Or.inr ⟨_, hnil, List.take_prefix _ _, by rw [place, ← h]⟩

theorem place_isPrefix (h : other <+: file) : place outputDir other <+: place outputDir file := by
  rw [place, place, List.prefix_append_right_inj]
  exact h.map _

theorem not_place_isPrefix (hne : file ≠ []) : ¬ place outputDir file <+: outputDir := by
  intro h
  have hlength := h.length_le
  have hpos := List.length_pos_iff.mpr hne
  rw [place, List.length_append, List.length_map] at hlength
  omega

theorem isPrefix_dropLast_iff (hne : file ≠ []) :
    other <+: file.dropLast ↔ OnTheWay other file := by
  rcases List.eq_nil_or_concat' file with hnil | ⟨front, last, rfl⟩
  · exact absurd hnil hne
  · rw [List.dropLast_concat, OnTheWay, List.prefix_concat_iff]
    constructor
    · intro h
      refine ⟨Or.inr h, fun heq => ?_⟩
      have hlength := h.length_le
      rw [heq, List.length_append, List.length_singleton] at hlength
      omega
    · rintro ⟨heq | h, hother⟩
      · exact absurd heq hother
      · exact h

theorem dropLast_place (hne : file ≠ []) :
    (place outputDir file).dropLast = place outputDir file.dropLast := by
  rw [place, List.dropLast_append_of_ne_nil (by simpa using hne), ← List.map_dropLast]
  rfl

theorem partOf_concat (front : RelPath) (last : List Char) :
    partOf (front ++ [last]) = front ++ [last ++ ".part".toList] := by
  simp [partOf]

theorem partOf_spec (hne : file ≠ []) : partOf file ≠ [] ∧ partOf file ≠ file ∧
    (partOf file).dropLast = file.dropLast ∧ ¬ OnTheWay (partOf file) file := by
  rcases List.eq_nil_or_concat' file with hnil | ⟨front, last, rfl⟩
  · exact absurd hnil hne
  · rw [partOf_concat]
    have hdiffer : front ++ [last ++ ".part".toList] ≠ front ++ [last] := by
      intro heq
      have hlength := congrArg List.length (List.singleton_inj.mp (List.append_cancel_left heq))
      simp at hlength
    refine ⟨by simp, hdiffer, by simp, ?_⟩
    rintro ⟨hbegins, -⟩
    exact hdiffer (hbegins.eq_of_length (by simp))

theorem Joined.place_eq {name : String} (h : Joined name) (dir : Path) : namesOf name ≠ [] ∧
    dir.join name.toList = place dir (namesOf name) ∧
    (dir.join name.toList).withAddedExtension "part".toList =
      place dir (partOf (namesOf name)) := by
  rcases h with ⟨ns, hne, hnames, heq⟩
  rw [namesOf_joinNames hne hnames heq, heq, Path.join_joinNames dir hne hnames]
  refine ⟨hne, rfl, ?_⟩
  rcases List.eq_nil_or_concat' ns with hnil | ⟨front, last, rfl⟩
  · exact absurd hnil hne
  · rw [partOf_concat, place, List.map_append, List.map_append, ← List.append_assoc,
      ← List.append_assoc]
    exact Path.withAddedExtension_concat _ last (by decide)

theorem parent_place (hne : file ≠ []) :
    (place outputDir file).parent = some (place outputDir file.dropLast) := by
  rcases List.eq_nil_or_concat' file with hnil | ⟨front, last, rfl⟩
  · exact absurd hnil hne
  · rw [place, List.map_append, ← List.append_assoc, List.dropLast_concat]
    exact Path.parent_concat _ last

end Place

/-! ## What stands in the output directory -/

/-- The output directory has the directories on the way to `earlier` and the files `files`. -/
structure Filled (outputDir : Path) (earlier files : List RelPath) (tree : FileTree) : Prop where
  up : ∀ q, q <+: outputDir → tree q = some .dir
  dirs : ∀ dir, dir ≠ [] →
    (tree (place outputDir dir) = some .dir ↔ ∃ file ∈ earlier, OnTheWay dir file)
  files : ∀ file, tree.IsFile (place outputDir file) ↔ file ∈ files

namespace Filled

variable {outputDir : Path} {earlier files : List RelPath} {tree : FileTree} {file : RelPath}
  {part : RelPath}

theorem update {found : Option Node} {files' : List RelPath}
    (h : Filled outputDir earlier files tree) (hne : file ≠ [])
    (hdir : ∀ other ∈ earlier, ¬ OnTheWay file other) (hfound : found ≠ some .dir)
    (hself : (∃ content, found = some (.file content)) ↔ file ∈ files')
    (hrest : ∀ other, other ≠ file → (other ∈ files' ↔ other ∈ files)) :
    Filled outputDir earlier files' (Function.update tree (place outputDir file) found) where
  up q hq := by
    rw [Function.update_of_ne]
    · exact h.up q hq
    · rintro rfl
      exact not_place_isPrefix hne hq
  dirs dir hdirNe := by
    by_cases heq : dir = file
    · subst heq
      rw [Function.update_self]
      refine iff_of_false hfound ?_
      rintro ⟨other, hother, hway⟩
      exact hdir other hother hway
    · rw [Function.update_of_ne (fun hplace => heq (place_inj.mp hplace))]
      exact h.dirs dir hdirNe
  files other := by
    by_cases heq : other = file
    · subst heq
      rw [FileTree.IsFile, Function.update_self]
      exact hself
    · rw [FileTree.IsFile, Function.update_of_ne (fun hplace => heq (place_inj.mp hplace)),
        hrest other heq]
      exact h.files other

theorem store (h : Filled outputDir earlier files tree) (hne : file ≠ [])
    (hdir : ∀ other ∈ earlier, ¬ OnTheWay file other) (content : List UInt8) :
    Filled outputDir earlier (file :: files)
      (Function.update tree (place outputDir file) (some (.file content))) := by
  refine h.update hne hdir (by simp) (iff_of_true ⟨content, rfl⟩ List.mem_cons_self) ?_
  intro other hother
  rw [List.mem_cons, or_iff_right hother]

theorem remove (h : Filled outputDir earlier files tree) (hne : file ≠ [])
    (hdir : ∀ other ∈ earlier, ¬ OnTheWay file other) :
    Filled outputDir earlier (files.filter (· ≠ file))
      (Function.update tree (place outputDir file) none) := by
  refine h.update hne hdir (by simp) (by simp) ?_
  intro other hother
  rw [List.mem_filter, and_iff_left (by simpa using hother)]

theorem createDirAll_possible_iff (h : Filled outputDir earlier files tree) (hne : file ≠ []) :
    (FileEffect.createDirAll (place outputDir file.dropLast)).Possible tree ↔
      ∀ other ∈ files, ¬ OnTheWay other file := by
  simp only [FileEffect.Possible, List.mem_inits]
  constructor
  · intro hpossible other hother hway
    refine hpossible _ (place_isPrefix ((isPrefix_dropLast_iff hne).mpr hway)) ?_
    exact (h.files other).mpr hother
  · intro hclear q hq hfile
    rcases isPrefix_place hq with hup | ⟨dir, hdir, hway, rfl⟩
    · rcases hfile with ⟨content, hfile⟩
      cases (h.up q hup).symm.trans hfile
    · exact hclear dir ((h.files dir).mp hfile) ((isPrefix_dropLast_iff hne).mp hway)

theorem createDirAll (h : Filled outputDir earlier files tree) (hne : file ≠ [])
    (hclear : ∀ other ∈ files, ¬ OnTheWay other file) :
    Filled outputDir (file :: earlier) files
      ((FileEffect.createDirAll (place outputDir file.dropLast)).apply tree) where
  up q hq := by
    simp [FileEffect.apply, h.up q hq]
  dirs dir hdir := by
    have hway : place outputDir dir <+: place outputDir file.dropLast ↔ OnTheWay dir file := by
      rw [← isPrefix_dropLast_iff hne, place, place, List.prefix_append_right_inj,
        List.prefix_map_iff_of_injective fun _ _ h => Component.normal.inj h]
    simp only [List.mem_cons, exists_eq_or_imp]
    by_cases hon : OnTheWay dir file
    · refine iff_of_true (eq_dir_of_createDirAll (fun hfile => ?_) (hway.mpr hon)) (Or.inl hon)
      exact hclear dir ((h.files dir).mp hfile) hon
    · rw [createDirAll_of_not_isPrefix fun hmade => hon (hway.mp hmade), or_iff_right hon]
      exact h.dirs dir hdir
  files other := isFile_createDirAll.trans (h.files other)

theorem hasParents (h : Filled outputDir (file :: earlier) files tree) (hne : file ≠ [])
    (hpart : part ≠ []) (hsame : part.dropLast = file.dropLast) :
    tree.HasParents (place outputDir part) := by
  intro q hq
  rw [List.mem_inits, dropLast_place hpart, hsame] at hq
  rcases isPrefix_place hq with hup | ⟨dir, hdir, hway, rfl⟩
  · exact h.up q hup
  · exact (h.dirs dir hdir).mpr ⟨file, List.mem_cons_self, (isPrefix_dropLast_iff hne).mp hway⟩

/-- A file can be put beside the artifact where no directory is. -/
theorem free_iff (h : Filled outputDir (file :: earlier) files tree) (hne : file ≠ [])
    (hpart : part ≠ []) (hsame : part.dropLast = file.dropLast) (hself : ¬ OnTheWay part file) :
    (tree (place outputDir part) ≠ some .dir ∧ tree.HasParents (place outputDir part)) ↔
      ∀ other ∈ earlier, ¬ OnTheWay part other := by
  rw [and_iff_left (h.hasParents hne hpart hsame), ne_eq, h.dirs part hpart]
  simp [hself]

end Filled

def withDownload (outputDir : Path) (file : RelPath) (content : List UInt8) (tree : FileTree) :
    FileTree :=
  (FileEffect.write (place outputDir (partOf file)) content).apply
    ((FileEffect.create (place outputDir (partOf file))).apply
      ((FileEffect.createDirAll (place outputDir file.dropLast)).apply tree))

variable {tree : FileTree} {earlier files : List RelPath}

theorem Filled.downloaded {outputDir : Path} {file : RelPath}
    (h : Filled outputDir earlier files tree) (hne : file ≠ [])
    (hclear : ∀ other ∈ files, ¬ OnTheWay other file)
    (hroom : ∀ other ∈ earlier, ¬ OnTheWay (partOf file) other) (content : List UInt8) :
    Filled outputDir (file :: earlier) (partOf file :: partOf file :: files)
      (withDownload outputDir file content tree) := by
  rcases partOf_spec hne with ⟨hpart, -, -, hself⟩
  have hfree : ∀ other ∈ file :: earlier, ¬ OnTheWay (partOf file) other :=
    List.forall_mem_cons.mpr ⟨hself, hroom⟩
  exact ((h.createDirAll hne hclear).store hpart hfree []).store hpart hfree content

theorem Filled.renamed {outputDir : Path} {file : RelPath} (h : Filled outputDir earlier files tree)
    (hne : file ≠ []) (hroom : HasRoom earlier files file) (content : List UInt8) :
    Filled outputDir (file :: earlier) (file :: files.filter (· ≠ partOf file))
      ((FileEffect.rename (place outputDir (partOf file)) (place outputDir file)).apply
        (withDownload outputDir file content tree)) := by
  rcases hroom with ⟨hclear, hpartRoom, hfileRoom⟩
  rcases partOf_spec hne with ⟨hpart, -, -, hpartSelf⟩
  have hself : ¬ OnTheWay file file := fun hway => hway.2 rfl
  have hsource : withDownload outputDir file content tree (place outputDir (partOf file)) =
      some (.file content) := Function.update_self ..
  have hstored := ((h.downloaded hne hclear hpartRoom content).remove hpart
    (List.forall_mem_cons.mpr ⟨hpartSelf, hpartRoom⟩)).store hne
    (List.forall_mem_cons.mpr ⟨hself, hfileRoom⟩) content
  rw [FileEffect.apply, hsource]
  simpa using hstored

/-! ## The downloads -/

def ArtifactBinding.relPath (binding : ArtifactBinding) : RelPath := namesOf binding.localName

namespace Environment

variable {env : Environment} {outputDir : Path} {earlier files : List RelPath} {tree : FileTree}
  {i : Nat} {binding : ArtifactBinding} {bindings : List ArtifactBinding}

theorem downloadBinding_of_ok (hjoined : Joined binding.localName)
    (hok : (env.download i binding.blob).2 = .ok ()) :
    env.downloadBinding outputDir i binding = (do
      env.createParent i (place outputDir binding.relPath)
      env.request i (.create (place outputDir (partOf binding.relPath)))
        (.creatingTempBlobFile (place outputDir (partOf binding.relPath)))
      ⟨[(.write (place outputDir (partOf binding.relPath)) (env.download i binding.blob).1, true)],
        .ok ()⟩
      env.request i
        (.rename (place outputDir (partOf binding.relPath)) (place outputDir binding.relPath))
        (.renaming (place outputDir (partOf binding.relPath))
          (place outputDir binding.relPath))) := by
  rcases hjoined.place_eq outputDir with ⟨-, htarget, hpart⟩
  have hblob : ∀ part, env.downloadBlobToFile outputDir part i binding =
      ⟨[(.write part (env.download i binding.blob).1, true)], .ok ()⟩ := by
    intro part
    unfold downloadBlobToFile
    rw [hok]
    rfl
  have hpart' : binding.part outputDir = place outputDir (partOf binding.relPath) := hpart
  have htarget' : binding.target outputDir = place outputDir binding.relPath := htarget
  rw [downloadBinding_eq, hpart', htarget', hblob]

theorem answers_request (effect : FileEffect) (context : String → PullError) :
    Answers (env.request i effect context) tree (effect.Possible tree)
      (· = effect.apply tree) :=
  .request (request_cases effect context)

theorem answers_createParent {file : RelPath} (hfilled : Filled outputDir earlier files tree)
    (hne : file ≠ []) :
    Answers (env.createParent i (place outputDir file)) tree
      (∀ other ∈ files, ¬ OnTheWay other file)
      (· = (FileEffect.createDirAll (place outputDir file.dropLast)).apply tree) := by
  unfold createParent
  rw [parent_place hne]
  exact (answers_request _ _).congr (hfilled.createDirAll_possible_iff hne)

theorem answers_downloadBinding (hfilled : Filled outputDir earlier files tree)
    (hjoined : Joined binding.localName) (hok : (env.download i binding.blob).2 = .ok ()) :
    Answers (env.downloadBinding outputDir i binding) tree
      (HasRoom earlier files binding.relPath)
      (Filled outputDir (binding.relPath :: earlier)
        (binding.relPath :: files.filter (· ≠ partOf binding.relPath))) := by
  have hne : binding.relPath ≠ [] := (hjoined.place_eq outputDir).1
  rcases partOf_spec hne with ⟨hpart, -, hsame, hpartSelf⟩
  have hself : ¬ OnTheWay binding.relPath binding.relPath := fun hway => hway.2 rfl
  rw [downloadBinding_of_ok hjoined hok]
  refine (answers_createParent hfilled hne).bind ?_
  rintro hclear _ rfl -
  refine Answers.bind ((answers_request _ _).congr
    ((hfilled.createDirAll hne hclear).free_iff hne hpart hsame hpartSelf)) ?_
  rintro hroom _ rfl -
  have hfilled' := hfilled.downloaded hne hclear hroom (env.download i binding.blob).1
  have hsource := (hfilled'.files (partOf binding.relPath)).mpr List.mem_cons_self
  have hfree : (FileEffect.rename (place outputDir (partOf binding.relPath))
      (place outputDir binding.relPath)).Possible
      (withDownload outputDir binding.relPath (env.download i binding.blob).1 tree) ↔
      ∀ other ∈ earlier, ¬ OnTheWay binding.relPath other :=
    (and_iff_right hsource).trans (hfilled'.free_iff hne hne rfl hself)
  refine ((Answers.emit _).bind ?_).congr (iff_of_eq (true_and _))
  rintro - _ rfl -
  refine ((answers_request _ _).congr hfree).imp ?_
  rintro hlast _ rfl
  exact hfilled.renamed hne ⟨hclear, hroom, hlast⟩ _

theorem answers_downloadBindings (hfilled : Filled outputDir earlier files tree)
    (hjoined : ∀ binding ∈ bindings, Joined binding.localName)
    (hok : ∀ n binding, bindings[n]? = some binding →
      (env.download (i + n) binding.blob).2 = .ok ()) :
    Answers (env.downloadBindings outputDir i bindings) tree
      (Storable earlier files (bindings.map (·.relPath)))
      fun after => ∃ files',
        Filled outputDir ((bindings.map (·.relPath)).reverse ++ earlier) files' after := by
  induction bindings generalizing i earlier files tree with
  | nil => exact Answers.pure () ⟨files, hfilled⟩
  | cons binding bindings ih =>
      rw [List.forall_mem_cons] at hjoined
      have hlater : ∀ n later, bindings[n]? = some later →
          (env.download (i + 1 + n) later.blob).2 = .ok () := by
        intro n later hn
        have h := hok (n + 1) later hn
        rwa [← Nat.add_assoc, Nat.add_right_comm] at h
      refine (answers_downloadBinding hfilled hjoined.1 (hok 0 binding rfl)).bind ?_
      intro _ mid hmid _
      rw [List.map_cons, List.reverse_cons, List.append_assoc]
      exact ih hmid hjoined.2 hlater

theorem answers_writeToFile {manifest : Image.Manifest} {content : List UInt8}
    (hfilled : Filled outputDir earlier files tree)
    (hserialize : env.serialize manifest = .ok content) :
    Answers (env.writeToFile i manifest (manifestPath outputDir)) tree
      (∀ file ∈ earlier, ¬ OnTheWay ["manifest.json".toList] file) fun _ => True := by
  have hname : namesOf "manifest.json" = ["manifest.json".toList] := by decide +kernel
  have hplace : manifestPath outputDir = place outputDir ["manifest.json".toList] := by
    rw [← hname]
    exact (joined_manifest.place_eq outputDir).2.1
  have hparents : tree.HasParents (place outputDir ["manifest.json".toList]) := by
    intro q hq
    rw [List.mem_inits, dropLast_place (List.cons_ne_nil _ _)] at hq
    exact hfilled.up q (by simpa [place] using hq)
  unfold writeToFile
  rw [hserialize, Except.mapError, Traced.call_ok_bind, hplace]
  refine ((answers_request _ _).congr ?_).imp fun _ _ _ => trivial
  refine (and_iff_left hparents).trans ?_
  rw [ne_eq, hfilled.dirs _ (List.cons_ne_nil _ _)]
  simp

end Environment

/-! ## The whole pull -/

/-- Nothing is in the way of the output directory and of the lock, and nothing is stored yet. -/
structure Fresh (root : Path) (reference : TaggedReference) (tree : FileTree) : Prop where
  up : ∀ q, q <+: reference.outputDir root → ¬ tree.IsFile q
  empty : ∀ p, reference.outputDir root <+: p → p ≠ reference.outputDir root → tree p = none
  lock : tree (lockPath root) ≠ some .dir
  lock_outside : ¬ lockPath root <+: reference.outputDir root

namespace Session

variable {session : Session} {root : Path} {reference : TaggedReference} {tree : FileTree}
  {remote : RemoteImage} {manifest : Image.Manifest} {bindings : List ArtifactBinding}
  {content : List UInt8} {outputDir : Path}

theorem answers_request (effect : FileEffect) (context : String → PullError) :
    Answers (session.request effect context) tree (effect.Possible tree)
      (· = effect.apply tree) :=
  .request (request_cases effect context)

theorem Pulled.answers_body (h : session.Pulled remote manifest bindings content)
    (hdownload : ∀ n binding, bindings[n]? = some binding →
      (session.env.download n binding.blob).2 = .ok ()) (hfilled : Filled outputDir [] [] tree) :
    Answers (session.body outputDir) tree (Fits (bindings.map (·.relPath))) fun _ => True := by
  unfold body
  rw [h.fetch]
  dsimp only
  rw [h.pullFetched_eq]
  refine (Environment.answers_downloadBindings hfilled h.joined fun n binding hn => ?_).bind ?_
  · rw [Nat.zero_add]
    exact hdownload n binding hn
  · rintro - mid ⟨files, hmid⟩ -
    have hwrite := Environment.answers_writeToFile (i := bindings.length) hmid h.serialize
    refine (hwrite.bind fun _ mid' _ _ => Answers.pure _ trivial).congr ?_
    simp

theorem Pulled.answers_pullLocked (h : session.Pulled remote manifest bindings content)
    (hdownload : ∀ n binding, bindings[n]? = some binding →
      (session.env.download n binding.blob).2 = .ok ()) (hafterwards : session.afterwards = .ok ())
    (hpossible : (.createDirAll outputDir :
      FileEffect).Possible tree)
    (hfilled : Filled outputDir [] [] ((FileEffect.createDirAll outputDir).apply tree)) :
    Answers (session.pullLocked outputDir) tree (Fits (bindings.map (·.relPath)))
      fun _ => True := by
  rw [pullLocked_eq, hafterwards]
  refine ((answers_request _ _).bind ?_).congr (and_iff_right hpossible)
  rintro - _ rfl -
  refine ((h.answers_body hdownload hfilled).bind fun _ mid _ result => ?_).congr
    (iff_of_eq (and_true _))
  exact Answers.pure result trivial

end Session

namespace Fresh

variable {root : Path} {reference : TaggedReference} {tree : FileTree}

theorem root_isPrefix : root <+: reference.outputDir root := by
  rw [reference.outputDir_eq]
  exact List.prefix_append _ _

theorem lockPath_not_isPrefix_root : ¬ lockPath root <+: root := by
  intro h
  have hlength := h.length_le
  rw [lockPath_eq, List.length_append, List.length_singleton] at hlength
  omega

theorem createDirAll_root_possible (h : Fresh root reference tree) :
    (FileEffect.createDirAll root).Possible tree := by
  intro q hq
  exact h.up q ((List.mem_inits _ _).mp hq |>.trans root_isPrefix)

def locked (root : Path) (owner : List UInt8) (tree : FileTree) : FileTree :=
  (FileEffect.write (lockPath root) owner).apply ((FileEffect.createDirAll root).apply tree)

theorem locked_of_ne {owner : List UInt8} {q : Path} (hne : q ≠ lockPath root) :
    locked root owner tree q = (FileEffect.createDirAll root).apply tree q :=
  Function.update_of_ne hne _ _

theorem write_lock_possible (h : Fresh root reference tree) (owner : List UInt8) :
    (FileEffect.write (lockPath root) owner).Possible
      ((FileEffect.createDirAll root).apply tree) := by
  constructor
  · rw [createDirAll_of_not_isPrefix lockPath_not_isPrefix_root]
    exact h.lock
  · intro q hq
    rw [lockPath_eq, List.dropLast_concat, List.mem_inits] at hq
    exact eq_dir_of_createDirAll (h.up q (hq.trans root_isPrefix)) hq

theorem not_isFile_locked (h : Fresh root reference tree) (owner : List UInt8) {q : Path}
    (hq : q <+: reference.outputDir root) : ¬ (locked root owner tree).IsFile q := by
  have hne : q ≠ lockPath root := by
    rintro rfl
    exact h.lock_outside hq
  unfold FileTree.IsFile
  rw [locked_of_ne hne]
  exact fun hfile => h.up q hq (isFile_createDirAll.mp hfile)

theorem locked_place (h : Fresh root reference tree) (owner : List UInt8) {file : RelPath}
    (hne : file ≠ []) : locked root owner tree (place (reference.outputDir root) file) = none := by
  have hbelow : reference.outputDir root <+: place (reference.outputDir root) file :=
    List.prefix_append _ _
  have hlock : place (reference.outputDir root) file ≠ lockPath root := by
    intro heq
    rw [heq] at hbelow
    exact lockPath_not_below hbelow
  have hself : place (reference.outputDir root) file ≠ reference.outputDir root := by
    intro heq
    exact not_place_isPrefix hne ⟨[], by rw [List.append_nil, heq]⟩
  rw [locked_of_ne hlock, createDirAll_of_not_isPrefix]
  · exact h.empty _ hbelow hself
  · exact fun hup => not_place_isPrefix hne (hup.trans root_isPrefix)

theorem filled (h : Fresh root reference tree) (owner : List UInt8) :
    Filled (reference.outputDir root) [] []
      ((FileEffect.createDirAll (reference.outputDir root)).apply (locked root owner tree)) where
  up q hq := eq_dir_of_createDirAll (h.not_isFile_locked owner hq) hq
  dirs dir hdir := by
    rw [createDirAll_of_not_isPrefix (not_place_isPrefix hdir), h.locked_place owner hdir]
    simp
  files file := by
    rw [isFile_createDirAll]
    refine iff_of_false (fun hfile => ?_) List.not_mem_nil
    by_cases hne : file = []
    · subst hne
      exact h.not_isFile_locked owner (by simp [place]) hfile
    · rcases hfile with ⟨content, hfile⟩
      cases (h.locked_place owner hne).symm.trans hfile

end Fresh

/-- On a system that refuses a call only for what stands at its paths, a pull of an image that
can be downloaded returns exactly if the names of its artifacts do not get in each other's
way. -/
theorem Session.Pulled.answers_pullUpdate {session : Session} {root : Path}
    {reference : TaggedReference} {remote : RemoteImage} {manifest : Image.Manifest}
    {bindings : List ArtifactBinding} {content : List UInt8}
    (h : session.Pulled remote manifest bindings content)
    (hdownload : ∀ n binding, bindings[n]? = some binding →
      (session.env.download n binding.blob).2 = .ok ()) (hafterwards : session.afterwards = .ok ())
    (hfresh : Fresh root reference tree) :
    Answers (session.pullUpdate root reference) tree (Fits (bindings.map (·.relPath)))
      fun _ => True := by
  unfold pullUpdate
  refine ((answers_request _ _).bind ?_).congr (and_iff_right hfresh.createDirAll_root_possible)
  rintro - _ rfl -
  refine ((answers_request _ _).bind ?_).congr (and_iff_right (hfresh.write_lock_possible _))
  rintro - _ rfl -
  refine (h.answers_pullLocked hdownload hafterwards (fun q hq => ?_) (hfresh.filled _)).ensuring _
  exact hfresh.not_isFile_locked _ ((List.mem_inits _ _).mp hq)

end GhafGivc.Pull
