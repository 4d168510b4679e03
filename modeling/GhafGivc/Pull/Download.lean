import GhafGivc.Core.FileTree
import GhafGivc.Core.Traced
import GhafGivc.Pull.Paths

/-! # Downloading an update

`pull_update` from the fetched manifest to the written `manifest.json`. What the operating
system and the registry answer is not determined: it is data of a run.
-/

namespace GhafGivc.Pull

open Core

inductive MediaType where
  | manifest
  | uki
  | root
  | verity
  | changelog
deriving DecidableEq

def MediaType.asRef : MediaType → String
  | manifest => "application/vnd.ghaf.ota.manifest.v1+json"
  | uki => "application/vnd.ghaf.ota.uki.v1+efi"
  | root => "application/vnd.ghaf.ota.root.v1+raw"
  | verity => "application/vnd.ghaf.ota.verity.v1+raw"
  | changelog => "application/vnd.ghaf.ota.changelog.v1+plain"

structure BlobDescriptor where
  digest : String
  mediaType : String
  size : Int
  annotations : Option (List (String × String))
deriving DecidableEq

structure RemoteImage where
  configJson : String
  layers : List BlobDescriptor
deriving DecidableEq

/-! ## Layers and their names -/

structure ArtifactBinding where
  kind : MediaType
  blob : BlobDescriptor
  digest : String
  localName : String
deriving DecidableEq

def makeBinding (layer : BlobDescriptor) (kind : MediaType) (localName : String) :
    ArtifactBinding :=
  ⟨kind, layer, layer.digest, localName⟩

def findLayerByMediaType (layers : List BlobDescriptor) (mediaType : MediaType) :
    Option BlobDescriptor :=
  layers.find? (·.mediaType = mediaType.asRef)

def requiredBinding (layers : List BlobDescriptor) (mediaType : MediaType) (localName : String) :
    Except String ArtifactBinding :=
  match findLayerByMediaType layers mediaType with
  | some layer => .ok (makeBinding layer mediaType localName)
  | none => .error ("missing required artifact layer media_type=" ++ mediaType.asRef)

def changelogLocalName (layer : BlobDescriptor) : String :=
  match layer.annotations.bind (·.lookup "org.opencontainers.image.title") with
  | none => "changelog.txt"
  | some title =>
      match sanitizeRelativeFilePath title with
      | .ok path => path
      | .error _ => "changelog.txt"

def selectArtifactBindings (manifest : Image.Manifest) (layers : List BlobDescriptor) :
    Except String (List ArtifactBinding) := do
  let uki ← requiredBinding layers .uki manifest.kernel.name
  let root ← requiredBinding layers .root manifest.store.name
  let verity ← requiredBinding layers .verity manifest.verity.name
  match findLayerByMediaType layers .changelog with
  | some layer => pure [uki, root, verity, makeBinding layer .changelog (changelogLocalName layer)]
  | none => pure [uki, root, verity]

theorem joined_changelogLocalName (layer : BlobDescriptor) :
    Joined (changelogLocalName layer) := by
  have hdefault : Joined "changelog.txt" := joined_of_isName (by decide +kernel)
  unfold changelogLocalName
  split
  · exact hdefault
  · split
    · rename_i hpath
      exact joined_of_relativePath hpath
    · exact hdefault

theorem joined_manifest : Joined "manifest.json" := joined_of_isName (by decide +kernel)

variable {layers : List BlobDescriptor}

theorem requiredBinding_eq_ok {mediaType : MediaType} {localName : String}
    {binding : ArtifactBinding} :
    requiredBinding layers mediaType localName = .ok binding ↔
      ∃ layer, findLayerByMediaType layers mediaType = some layer ∧
        binding = makeBinding layer mediaType localName := by
  unfold requiredBinding
  cases findLayerByMediaType layers mediaType with
  | none => simp
  | some layer => simp [eq_comm]

def changelogBindings (layers : List BlobDescriptor) : List ArtifactBinding :=
  ((findLayerByMediaType layers .changelog).map fun layer =>
    makeBinding layer .changelog (changelogLocalName layer)).toList

variable {bindings : List ArtifactBinding}

theorem selectArtifactBindings_eq_ok {manifest : Image.Manifest} :
    selectArtifactBindings manifest layers = .ok bindings ↔
      ∃ uki root verity, findLayerByMediaType layers .uki = some uki ∧
        findLayerByMediaType layers .root = some root ∧
        findLayerByMediaType layers .verity = some verity ∧
        bindings = makeBinding uki .uki manifest.kernel.name ::
          makeBinding root .root manifest.store.name ::
          makeBinding verity .verity manifest.verity.name :: changelogBindings layers := by
  have hlog : ∀ uki root verity : ArtifactBinding,
      ((match findLayerByMediaType layers .changelog with
        | some layer =>
            pure [uki, root, verity, makeBinding layer .changelog (changelogLocalName layer)]
        | none => pure [uki, root, verity] : Except String (List ArtifactBinding)) =
        .ok (uki :: root :: verity :: changelogBindings layers)) := by
    intro uki root verity
    unfold changelogBindings
    cases findLayerByMediaType layers .changelog <;> rfl
  unfold selectArtifactBindings
  simp only [Fallible.bind_eq_ok, requiredBinding_eq_ok, hlog]
  constructor
  · intro h
    rcases h with ⟨_, ⟨uki, huki, rfl⟩, _, ⟨root, hroot, rfl⟩, _, ⟨verity, hverity, rfl⟩, h⟩
    exact ⟨uki, root, verity, huki, hroot, hverity, (Except.ok.inj h).symm⟩
  · intro h
    rcases h with ⟨uki, root, verity, huki, hroot, hverity, rfl⟩
    exact ⟨_, ⟨uki, huki, rfl⟩, _, ⟨root, hroot, rfl⟩, _, ⟨verity, hverity, rfl⟩, rfl⟩

theorem joined_of_mem_selectArtifactBindings {parsed manifest : Image.Manifest}
    (hnormal : Manifest.normalizePaths parsed = .ok manifest)
    (h : selectArtifactBindings manifest layers = .ok bindings) :
    ∀ binding ∈ bindings, Joined binding.localName := by
  rcases Manifest.joined_of_normalizePaths hnormal with ⟨hkernel, hstore, hverity⟩
  rcases selectArtifactBindings_eq_ok.mp h with ⟨_, _, _, -, -, -, heq⟩
  have hlog : ∀ binding ∈ changelogBindings layers, Joined binding.localName := by
    intro binding hin
    rcases Option.map_eq_some_iff.mp (Option.mem_toList.mp hin) with ⟨layer, -, hbinding⟩
    rw [← hbinding]
    exact joined_changelogLocalName layer
  rw [heq]
  simp only [List.forall_mem_cons]
  exact ⟨hkernel, hstore, hverity, hlog⟩

/-! ## The download -/

inductive DownloadError where
  | cancelled
  | failed (message : String)
deriving DecidableEq

inductive PullError where
  | creatingDestinationRoot (root : Path) (cause : String)
  | acquiringLock (lock : Path) (cause : String)
  | creatingOutputDir (dir : Path) (cause : String)
  | fetchTimeout
  | fetchFailed (cause : String)
  | manifest (message : String)
  | creatingParentDir (dir : Path) (cause : String)
  | creatingTempBlobFile (part : Path) (cause : String)
  | pullCancelled
  | downloadingBlob (digest cause : String)
  | renaming (part target : Path) (cause : String)
  | writingManifestFile (path : Path) (cause : String)
  | afterwards (cause : String)
deriving DecidableEq

structure PullResult where
  outputDir : Path
  manifestPath : Path
deriving DecidableEq

/-- What the rest of the world answers in one run. Calls are told apart by the number of
the artifact they are made for; a call is refused with a message. A download delivers the
bytes that reach the file before it ends. -/
structure Environment where
  deserialize : List UInt8 → Option Image.Manifest
  serialize : Image.Manifest → Except String (List UInt8)
  refused : Nat → FileEffect → Option String
  download : Nat → BlobDescriptor → List UInt8 × Except DownloadError Unit

/-- A pull leaves the calls it made, each marked when it was carried out. -/
abbrev Pulling (α : Type) := Traced (FileEffect × Bool) PullError α

def perform (refused : Option String) (effect : FileEffect) (context : String → PullError) :
    Pulling Unit :=
  match refused with
  | none => ⟨[(effect, true)], .ok ()⟩
  | some cause => ⟨[(effect, false)], .err (context cause)⟩

theorem perform_cases (refused : Option String) (effect : FileEffect)
    (context : String → PullError) :
    perform refused effect context = ⟨[(effect, true)], .ok ()⟩ ∨
      ∃ e, perform refused effect context = ⟨[(effect, false)], .err e⟩ := by
  cases refused with
  | none => exact Or.inl rfl
  | some cause => exact Or.inr ⟨_, rfl⟩

theorem emits_perform {P : FileEffect × Bool → Prop} {refused : Option String}
    {effect : FileEffect} {context : String → PullError} (h : ∀ done, P (effect, done)) :
    (perform refused effect context).Emits P := by
  cases refused with
  | none => exact List.forall_mem_singleton.mpr (h true)
  | some cause => exact List.forall_mem_singleton.mpr (h false)

namespace Environment

variable (env : Environment)

def request (i : Nat) (effect : FileEffect) (context : String → PullError) : Pulling Unit :=
  perform (env.refused i effect) effect context

/-- `let _ = remove_dir_all(..)` -/
def discard (i : Nat) (outputDir : Path) : Pulling Unit :=
  .emit (.removeDirAll outputDir, (env.refused i (.removeDirAll outputDir)).isNone)

def downloadBlobToFile (outputDir part : Path) (i : Nat) (binding : ArtifactBinding) :
    Pulling Unit := do
  .emit (.write part (env.download i binding.blob).1, true)
  match (env.download i binding.blob).2 with
  | .ok () => pure ()
  | .error .cancelled => do
      env.discard i outputDir
      .call (.error .pullCancelled)
  | .error (.failed cause) => do
      env.discard i outputDir
      .call (.error (.downloadingBlob binding.digest cause))

def createParent (i : Nat) (target : Path) : Pulling Unit :=
  match target.parent with
  | some parent => env.request i (.createDirAll parent) (.creatingParentDir parent)
  | none => pure ()

def downloadBinding (outputDir : Path) (i : Nat) (binding : ArtifactBinding) : Pulling Unit := do
  let target := outputDir.join binding.localName.toList
  env.createParent i target
  let part := target.withAddedExtension "part".toList
  env.request i (.create part) (.creatingTempBlobFile part)
  env.downloadBlobToFile outputDir part i binding
  env.request i (.rename part target) (.renaming part target)

def downloadBindings (outputDir : Path) : Nat → List ArtifactBinding → Pulling Unit
  | _, [] => pure ()
  | i, binding :: bindings => do
      env.downloadBinding outputDir i binding
      downloadBindings outputDir (i + 1) bindings

def writeToFile (i : Nat) (manifest : Image.Manifest) (path : Path) : Pulling Unit := do
  let content ← .call ((env.serialize manifest).mapError (.writingManifestFile path))
  env.request i (.write path content) (.writingManifestFile path)

/-- `pull_update` once the manifest was parsed. -/
def pullParsed (outputDir : Path) (parsed : Image.Manifest) (layers : List BlobDescriptor) :
    Pulling PullResult := do
  let manifest ← .call ((Manifest.normalizePaths parsed).mapError .manifest)
  let bindings ← .call ((selectArtifactBindings manifest layers).mapError .manifest)
  env.downloadBindings outputDir 0 bindings
  let manifestPath := outputDir.join "manifest.json".toList
  env.writeToFile bindings.length manifest manifestPath
  pure ⟨outputDir, manifestPath⟩

/-- `pull_update` once the manifest was fetched. -/
def pullFetched (outputDir : Path) (remote : RemoteImage) : Pulling PullResult := do
  let parsed ← Traced.mapError .manifest
    ⟨[], Image.Manifest.fromSlice env.deserialize remote.configJson.toUTF8.toList⟩
  env.pullParsed outputDir parsed remote.layers

theorem pullFetched_of_parse {env : Environment} {remote : RemoteImage} {parsed : Image.Manifest}
    (outputDir : Path)
    (h : Image.Manifest.fromSlice env.deserialize remote.configJson.toUTF8.toList = .ok parsed) :
    env.pullFetched outputDir remote = env.pullParsed outputDir parsed remote.layers := by
  unfold pullFetched Traced.mapError
  rw [h]
  rfl

/-! ## Where a download writes -/

/-- The call stays within the output directory. -/
def Inside (outputDir : Path) (event : FileEffect × Bool) : Prop := event.1.Within outputDir

section Inside

variable {env : Environment} {outputDir part target : Path} {i : Nat} {effect : FileEffect}
  {context : String → PullError} {binding : ArtifactBinding}

theorem emits_request (h : effect.Within outputDir) :
    (env.request i effect context).Emits (Inside outputDir) :=
  emits_perform fun _ => h

theorem emits_discard : (env.discard i outputDir).Emits (Inside outputDir) :=
  List.forall_mem_singleton.mpr rfl

theorem emits_downloadBlobToFile (h : Path.Below outputDir part) :
    (env.downloadBlobToFile outputDir part i binding).Emits (Inside outputDir) := by
  unfold downloadBlobToFile
  apply Traced.Emits.bind
  · exact List.forall_mem_singleton.mpr h
  · intro _
    split
    · exact Traced.emits_pure ()
    · exact emits_discard.bind fun _ => Traced.emits_call _
    · exact emits_discard.bind fun _ => Traced.emits_call _

theorem emits_createParent (h : Path.Below outputDir target) :
    (env.createParent i target).Emits (Inside outputDir) := by
  rcases h.parent with ⟨up, hparent, hup⟩
  have hwithin : (FileEffect.createDirAll up).Within outputDir := hup
  unfold createParent
  rw [hparent]
  exact emits_request hwithin

theorem emits_downloadBinding (h : LocalName binding.localName) :
    (env.downloadBinding outputDir i binding).Emits (Inside outputDir) := by
  have htarget := h outputDir
  have hpart : Path.Below outputDir
      ((outputDir.join binding.localName.toList).withAddedExtension "part".toList) :=
    htarget.withAddedExtension (by decide) (by decide)
  have hcreate : (FileEffect.create _).Within outputDir := hpart
  have hrename : (FileEffect.rename _ _).Within outputDir := ⟨hpart, htarget⟩
  unfold downloadBinding
  refine (emits_createParent htarget).bind fun _ => ?_
  refine (emits_request hcreate).bind fun _ => ?_
  refine (emits_downloadBlobToFile hpart).bind fun _ => ?_
  exact emits_request hrename

theorem emits_downloadBindings {bindings : List ArtifactBinding}
    (h : ∀ binding ∈ bindings, LocalName binding.localName) :
    (env.downloadBindings outputDir i bindings).Emits (Inside outputDir) := by
  induction bindings generalizing i with
  | nil => exact Traced.emits_pure ()
  | cons binding bindings ih =>
      rw [List.forall_mem_cons] at h
      refine (emits_downloadBinding h.1).bind fun _ => ?_
      exact ih h.2

theorem emits_writeToFile {manifest : Image.Manifest} (h : Path.Below outputDir target) :
    (env.writeToFile i manifest target).Emits (Inside outputDir) := by
  unfold writeToFile
  refine (Traced.emits_call _).bind fun content => ?_
  have hwrite : (FileEffect.write target content).Within outputDir := h
  exact emits_request hwrite

theorem emits_pullFetched (env : Environment) (outputDir : Path) (remote : RemoteImage) :
    (env.pullFetched outputDir remote).Emits (Inside outputDir) := by
  unfold pullFetched pullParsed
  refine Traced.Emits.bind (fun event hevent => absurd hevent List.not_mem_nil) fun parsed => ?_
  refine (Traced.emits_call _).bind_of_ok fun manifest hnormal => ?_
  refine (Traced.emits_call _).bind_of_ok fun bindings hselect => ?_
  have hjoined := joined_of_mem_selectArtifactBindings
    (Fallible.mapError_eq_ok.mp (Traced.result_call_eq_ok.mp hnormal))
    (Fallible.mapError_eq_ok.mp (Traced.result_call_eq_ok.mp hselect))
  refine (emits_downloadBindings fun binding hin => (hjoined binding hin).localName).bind
    fun _ => ?_
  refine (emits_writeToFile (joined_manifest.localName outputDir)).bind fun _ => ?_
  exact Traced.emits_pure _

end Inside

end Environment

/-- Whatever the registry sends, a download writes below its output directory only: the
calls it makes are for paths below, and nothing new stands anywhere else afterwards. The
names it is given go through one of two functions, which admit the same names. -/
theorem pull_writes_below_outputDir :
    (Sanitizes normalizeRelativePath ∧ Sanitizes sanitizeRelativeFilePath ∧
      ∀ value, (normalizeRelativePath value).toOption =
        (sanitizeRelativeFilePath value).toOption) ∧
    ∀ (env : Environment) (outputDir : Path) (remote : RemoteImage),
      (∀ event ∈ (env.pullFetched outputDir remote).trace, event.1.Within outputDir) ∧
      ∀ tree tree', FileTree.Above tree outputDir →
        FileTree.Steps tree (env.pullFetched outputDir remote).trace tree' →
        ∀ p node, tree' p = some node →
          tree p = some node ∨ (p = outputDir ∧ node = .dir) ∨ Path.Below outputDir p := by
  refine ⟨⟨sanitizes_relativePath _, sanitizes_relativePath _, toOption_relativePath _ _⟩, ?_⟩
  intro env outputDir remote
  have hinside := Environment.emits_pullFetched env outputDir remote
  constructor
  · exact hinside
  · intro tree tree' habove hsteps p node hnode
    exact hsteps.within hinside habove hnode

/-- The SHA-256 sum of the single byte 1, which is what every blob of the sample holds. -/
def oneSum : Vector UInt8 32 :=
  #v[75, 245, 18, 47, 52, 69, 84, 197, 59, 222, 46, 187, 140, 210, 183, 227, 209, 96, 10, 214, 49,
    195, 133, 165, 215, 204, 226, 60, 119, 133, 69, 154]

/-- Names that lead elsewhere, or look as if they did. -/
def hostileManifest : Image.Manifest where
  version := "1.0"
  rootVerityHash := "0123456789abcdef"
  kernel := ⟨".//boot/./uki.efi", oneSum, none⟩
  store := ⟨"root.raw/", oneSum, none⟩
  verity := ⟨"...", oneSum, none⟩

def digestOf (sum : Vector UInt8 32) : String :=
  "sha256:" ++ String.ofList (Hex.encode sum.toList)

def hostileRemote : RemoteImage where
  configJson := hostileManifest.text
  layers := [⟨digestOf oneSum, MediaType.uki.asRef, 1, none⟩,
    ⟨digestOf oneSum, MediaType.root.asRef, 1, none⟩,
    ⟨digestOf oneSum, MediaType.verity.asRef, 1, none⟩,
    ⟨digestOf oneSum, MediaType.changelog.asRef, 1,
      some [("org.opencontainers.image.title", "../../etc/passwd")]⟩]

def obligingEnvironment : Environment where
  deserialize := hostileManifest.parse
  serialize manifest := .ok manifest.text.toUTF8.toList
  refused _ _ := none
  download _ _ := ([1], .ok ())

theorem pullFetched_hostileRemote (outputDir : Path) :
    obligingEnvironment.pullFetched outputDir hostileRemote =
      obligingEnvironment.pullParsed outputDir hostileManifest hostileRemote.layers :=
  Environment.pullFetched_of_parse outputDir
    (congrArg (Outcome.context · _) hostileManifest.parse_text)

theorem pull_writes_below_outputDir_hostileRemote :
    let outputDir := Path.components "/persist/updates/ghaf/v1".toList
    let trace := (obligingEnvironment.pullFetched outputDir hostileRemote).trace
    trace.length = 17 ∧ ∀ p node, (FileTree.only outputDir).after trace p = some node →
      FileTree.only outputDir p = some node ∨ (p = outputDir ∧ node = .dir) ∨
        Path.Below outputDir p := by
  have hrun : ((obligingEnvironment.pullFetched
      (Path.components "/persist/updates/ghaf/v1".toList) hostileRemote).trace).length = 17 ∧
      ((obligingEnvironment.pullFetched
        (Path.components "/persist/updates/ghaf/v1".toList) hostileRemote).trace).all (·.2) =
          true := by
    rw [pullFetched_hostileRemote]
    decide +kernel
  refine ⟨hrun.1, ?_⟩
  exact (pull_writes_below_outputDir.2 _ _ _).2 _ _ (FileTree.above_only _)
    (FileTree.steps_after (List.all_eq_true.mp hrun.2))

end GhafGivc.Pull
