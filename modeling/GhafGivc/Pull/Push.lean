import GhafGivc.Core.Bytes
import GhafGivc.Core.Publication
import GhafGivc.Pull.Stored

/-! # Publishing an update

`push_update` reads an image from the files beside its manifest, validates it, and uploads
the layers, the manifest and last a record that names them. What the registry answers is
data of a run.
-/

namespace GhafGivc.Pull

open Core Core.Publication

/-- Third-party code that both ends use. -/
structure Codec where
  deserialize : List UInt8 → Option Image.Manifest
  sha256 : List UInt8 → Vector UInt8 32

namespace Codec

variable {codec : Codec}

def digest (codec : Codec) (content : List UInt8) : String :=
  "sha256:" ++ String.ofList (Hex.encode (codec.sha256 content).toList)

theorem digest_inj {a b : List UInt8} :
    codec.digest a = codec.digest b ↔ codec.sha256 a = codec.sha256 b := by
  constructor
  · intro h
    have hhex := String.ofList_injective ((String.append_right_inj _).mp h)
    exact Vector.toList_inj.mp (Hex.encode_injective hhex)
  · intro h
    unfold digest
    rw [h]

end Codec

/-! ## Validation -/

inductive FileProblem where
  | missing (path : Path)
  | notRegular (path : Path)
  | checksumMismatch (path : Path) (expected actual : Vector UInt8 32)
deriving DecidableEq

inductive InvalidManifest where
  | kernel (problem : FileProblem)
  | storeImage (problem : FileProblem)
  | verityImage (problem : FileProblem)
deriving DecidableEq

def File.validate (codec : Codec) (tree : FileTree) (baseDir : Path) (checksum : Bool)
    (file : Image.File) : Except FileProblem Unit :=
  let fullName := baseDir.join file.name.toList
  match tree fullName with
  | none => .error (.missing fullName)
  | some .dir => .error (.notRegular fullName)
  | some (.file content) =>
      if checksum ∧ codec.sha256 content ≠ file.sha256sum then
        .error (.checksumMismatch fullName file.sha256sum (codec.sha256 content))
      else .ok ()

def Manifest.validate (codec : Codec) (tree : FileTree) (baseDir : Path) (checksum : Bool)
    (manifest : Image.Manifest) : Except InvalidManifest Unit := do
  (File.validate codec tree baseDir checksum manifest.kernel).mapError .kernel
  (File.validate codec tree baseDir checksum manifest.store).mapError .storeImage
  (File.validate codec tree baseDir checksum manifest.verity).mapError .verityImage

/-- The file is there with its checksum. -/
def File.Present (codec : Codec) (tree : FileTree) (baseDir : Path) (file : Image.File) : Prop :=
  ∃ content, tree (baseDir.join file.name.toList) = some (.file content) ∧
    codec.sha256 content = file.sha256sum

variable {tree : FileTree}

theorem File.validate_eq_ok {codec : Codec} {baseDir : Path} {file : Image.File} :
    validate codec tree baseDir true file = .ok () ↔
      Present codec tree baseDir file := by
  unfold validate Present
  dsimp only
  cases tree (baseDir.join file.name.toList) with
  | none => simp
  | some node =>
      cases node with
      | dir => simp
      | file content => simp

theorem Manifest.validate_eq_ok {codec : Codec} {baseDir : Path} {manifest : Image.Manifest} :
    validate codec tree baseDir true manifest = .ok () ↔
      File.Present codec tree baseDir manifest.kernel ∧
        File.Present codec tree baseDir manifest.store ∧
        File.Present codec tree baseDir manifest.verity := by
  unfold validate
  simp only [Fallible.bind_eq_ok, Fallible.mapError_eq_ok]
  constructor
  · intro h
    rcases h with ⟨_, hkernel, _, hstore, hverity⟩
    exact ⟨File.validate_eq_ok.mp hkernel, File.validate_eq_ok.mp hstore,
      File.validate_eq_ok.mp hverity⟩
  · intro h
    rcases h with ⟨hkernel, hstore, hverity⟩
    exact ⟨(), File.validate_eq_ok.mpr hkernel, (), File.validate_eq_ok.mpr hstore,
      File.validate_eq_ok.mpr hverity⟩

/-! ## What is published -/

structure PushOptions where
  reference : TaggedReference
  manifestPath : Path
  changelogPath : Option Path

structure LayerInput where
  path : Path
  mediaType : MediaType
  annotations : List (String × String)
deriving DecidableEq

/-- The record that the registry keeps under a reference. -/
structure OciManifest where
  config : BlobDescriptor
  layers : List BlobDescriptor
deriving DecidableEq

inductive PushError where
  | readingManifest (path : Path)
  | manifest (message : String)
  | noParent
  | validating (cause : InvalidManifest)
  | layerFilename
  | changelogFilename
  | title (message : String)
  | authenticating (cause : String)
  | digestingLayer (path : Path)
  | pushingBlob (path : Path) (cause : String)
  | payloadTooLarge
  | pushingConfig (cause : String)
  | pushingManifest (cause : String)
  | verifyTimeout
  | verifying (cause : String)
deriving DecidableEq

def fileName (path : Path) : Option (List Char) := path.getLast?.bind Component.name?

def readFile (tree : FileTree) (path : Path) : Option (List UInt8) :=
  match tree path with
  | some (.file content) => some content
  | _ => none

theorem readFile_eq_some {path : Path} {content : List UInt8} :
    readFile tree path = some content ↔ tree path = some (.file content) := by
  unfold readFile
  cases tree path with
  | none => simp
  | some node => cases node <;> simp

def titledLayer (invalid : PushError) (path : Path) (mediaType : MediaType) :
    Except PushError LayerInput := do
  let name ← (fileName path).elim (throw invalid) pure
  let title ← (sanitizeRelativeFilePath (String.ofList name)).mapError .title
  pure ⟨path, mediaType, [("org.opencontainers.image.title", title)]⟩

def layerInputWithTitle : Path → MediaType → Except PushError LayerInput :=
  titledLayer .layerFilename

def changelogInput (path : Path) : Except PushError LayerInput :=
  titledLayer .changelogFilename path .changelog

def changelogInputs : Option Path → Except PushError (List LayerInput)
  | none => pure []
  | some path => do
      let changelog ← changelogInput path
      pure [changelog]

/-- `push_update` before it contacts the registry: the bytes of the manifest and the layers. -/
def prepare (codec : Codec) (tree : FileTree) (options : PushOptions) :
    Except PushError (List UInt8 × List LayerInput) := do
  let config ← (readFile tree options.manifestPath).elim
    (throw (.readingManifest options.manifestPath)) pure
  let manifest ← (codec.deserialize config).elim (throw (.manifest "Deserializing manifest")) pure
  let baseDir ← options.manifestPath.parent.elim (throw .noParent) pure
  (Manifest.validate codec tree baseDir true manifest).mapError .validating
  let uki ← layerInputWithTitle (baseDir.join manifest.kernel.name.toList) .uki
  let root ← layerInputWithTitle (baseDir.join manifest.store.name.toList) .root
  let verity ← layerInputWithTitle (baseDir.join manifest.verity.name.toList) .verity
  let changelog ← changelogInputs options.changelogPath
  pure (config, uki :: root :: verity :: changelog)

structure Prepared (codec : Codec) (tree : FileTree) (options : PushOptions)
    (config : List UInt8) (manifest : Image.Manifest) (baseDir : Path)
    (uki root verity : LayerInput) (changelog : List LayerInput) : Prop where
  read : readFile tree options.manifestPath = some config
  parse : codec.deserialize config = some manifest
  parent : options.manifestPath.parent = some baseDir
  valid : File.Present codec tree baseDir manifest.kernel ∧
    File.Present codec tree baseDir manifest.store ∧
    File.Present codec tree baseDir manifest.verity
  uki_eq : uki.mediaType = .uki ∧ uki.path = baseDir.join manifest.kernel.name.toList
  root_eq : root.mediaType = .root ∧ root.path = baseDir.join manifest.store.name.toList
  verity_eq : verity.mediaType = .verity ∧ verity.path = baseDir.join manifest.verity.name.toList
  changelog_eq : changelog.map (fun input => (input.mediaType, input.path)) =
    (options.changelogPath.map fun path => (MediaType.changelog, path)).toList

section Prepare

variable {codec : Codec} {tree : FileTree} {options : PushOptions} {config : List UInt8}
  {inputs : List LayerInput}

theorem titledLayer_eq_ok {invalid : PushError} {path : Path} {mediaType : MediaType}
    {input : LayerInput} (h : titledLayer invalid path mediaType = .ok input) :
    input.mediaType = mediaType ∧ input.path = path := by
  unfold titledLayer at h
  rcases Fallible.bind_eq_ok.mp h with ⟨name, -, h⟩
  rcases Fallible.bind_eq_ok.mp h with ⟨title, -, h⟩
  cases h
  exact ⟨rfl, rfl⟩

theorem changelogInputs_eq_ok {path : Option Path} (h : changelogInputs path = .ok inputs) :
    inputs.map (fun input => (input.mediaType, input.path)) =
      (path.map fun path => (MediaType.changelog, path)).toList := by
  cases path with
  | none =>
      cases h
      rfl
  | some path =>
      rcases Fallible.bind_eq_ok.mp h with ⟨input, hinput, h⟩
      cases h
      have hlayer := titledLayer_eq_ok hinput
      simp [hlayer.1, hlayer.2]

theorem prepare_eq_ok (h : prepare codec tree options = .ok (config, inputs)) :
    ∃ manifest baseDir uki root verity changelog, inputs = uki :: root :: verity :: changelog ∧
      Prepared codec tree options config manifest baseDir uki root verity changelog := by
  unfold prepare at h
  rcases Fallible.bind_eq_ok.mp h with ⟨content, hread, h⟩
  rcases Fallible.bind_eq_ok.mp h with ⟨manifest, hparse, h⟩
  rcases Fallible.bind_eq_ok.mp h with ⟨baseDir, hparent, h⟩
  rcases Fallible.bind_eq_ok.mp h with ⟨_, hvalid, h⟩
  rcases Fallible.bind_eq_ok.mp h with ⟨uki, huki, h⟩
  rcases Fallible.bind_eq_ok.mp h with ⟨root, hroot, h⟩
  rcases Fallible.bind_eq_ok.mp h with ⟨verity, hverity, h⟩
  rcases Fallible.bind_eq_ok.mp h with ⟨changelog, hchangelog, h⟩
  cases h
  exact ⟨manifest, baseDir, uki, root, verity, changelog, rfl,
    { read := Fallible.elim_eq_ok.mp hread
      parse := Fallible.elim_eq_ok.mp hparse
      parent := Fallible.elim_eq_ok.mp hparent
      valid := Manifest.validate_eq_ok.mp (Fallible.mapError_eq_ok.mp hvalid)
      uki_eq := titledLayer_eq_ok huki
      root_eq := titledLayer_eq_ok hroot
      verity_eq := titledLayer_eq_ok hverity
      changelog_eq := changelogInputs_eq_ok hchangelog }⟩

end Prepare

/-! ## The uploads -/

abbrev RegistryUpload := Upload String (List UInt8) TaggedReference OciManifest

/-- A push leaves the uploads it made, each with its report. -/
abbrev Publishing (α : Type) := Traced (RegistryUpload × Bool) PushError α

inductive Verified where
  | timedOut
  | failed (cause : String)
  | digest (digest : String)
deriving DecidableEq

structure PushResult where
  reference : TaggedReference
  manifestUrl : String
  digest : String
deriving DecidableEq

/-- One run: the files of the publisher, and what the registry answers. Uploads are told
apart by the number of their layer. -/
structure Publisher where
  tree : FileTree
  options : PushOptions
  auth : Except String Unit
  refused : Nat → RegistryUpload → Option String
  url : String
  verified : Verified

def describe (codec : Codec) (mediaType : MediaType)
    (annotations : Option (List (String × String))) (content : List UInt8) : BlobDescriptor :=
  ⟨codec.digest content, mediaType.asRef, content.length, annotations⟩

def describeLayer (codec : Codec) (input : LayerInput) (content : List UInt8) : BlobDescriptor :=
  describe codec input.mediaType (some input.annotations) content

/-- The record of an image with these layers. -/
def imageOf (codec : Codec) (config : List UInt8) (inputs : List LayerInput)
    (contents : List (List UInt8)) : OciManifest :=
  ⟨describe codec .manifest none config, List.zipWith (describeLayer codec) inputs contents⟩

namespace Publisher

variable (codec : Codec) (publisher : Publisher)

def upload (i : Nat) (upload : RegistryUpload) (context : String → PushError) : Publishing Unit :=
  match publisher.refused i upload with
  | none => ⟨[(upload, true)], .ok ()⟩
  | some cause => ⟨[(upload, false)], .err (context cause)⟩

/-- The size of a layer must fit the descriptor. -/
def pushLayer (i : Nat) (input : LayerInput) : Publishing BlobDescriptor := do
  let content ← .call ((readFile publisher.tree input.path).elim
    (throw (.digestingLayer input.path)) pure)
  publisher.upload i (.object (codec.digest content) content) (.pushingBlob input.path)
  if content.length < 2 ^ 63 then pure (describeLayer codec input content)
  else .call (.error .payloadTooLarge)

def pushLayers : Nat → List LayerInput → Publishing (List BlobDescriptor)
  | _, [] => pure []
  | i, input :: inputs => do
      let layer ← publisher.pushLayer codec i input
      let layers ← pushLayers (i + 1) inputs
      pure (layer :: layers)

def pushConfig (i : Nat) (config : List UInt8) : Publishing BlobDescriptor :=
  if config.length < 2 ^ 63 then do
    publisher.upload i (.object (codec.digest config) config) .pushingConfig
    pure (describe codec .manifest none config)
  else .call (.error .payloadTooLarge)

def pushLayersAndConfig (inputs : List LayerInput) (config : List UInt8) : Publishing String := do
  .call (publisher.auth.mapError .authenticating)
  let layers ← publisher.pushLayers codec 0 inputs
  let config ← publisher.pushConfig codec inputs.length config
  publisher.upload inputs.length (.record publisher.options.reference ⟨config, layers⟩)
    .pushingManifest
  pure publisher.url

def verify (url : String) : Except PushError PushResult :=
  match publisher.verified with
  | .timedOut => .error .verifyTimeout
  | .failed cause => .error (.verifying cause)
  | .digest digest => .ok ⟨publisher.options.reference, url, digest⟩

def pushUpdate : Publishing PushResult := do
  let prepared ← .call (prepare codec publisher.tree publisher.options)
  let url ← publisher.pushLayersAndConfig codec prepared.2 prepared.1
  .call (publisher.verify url)

end Publisher

/-! ## The course of a push -/

/-- The uploads are objects, under the digests of their contents. -/
def Objects (codec : Codec) (events : List (RegistryUpload × Bool)) : Prop :=
  ∀ event ∈ events, ∃ content, event.1 = .object (codec.digest content) content

def uploaded (codec : Codec) (contents : List (List UInt8)) : List (RegistryUpload × Bool) :=
  contents.map fun content => (.object (codec.digest content) content, true)

section Course

variable {codec : Codec}

theorem uploaded_append (contents more : List (List UInt8)) :
    uploaded codec (contents ++ more) = uploaded codec contents ++ uploaded codec more :=
  List.map_append

theorem objects_uploaded (contents : List (List UInt8)) :
    Objects codec (uploaded codec contents) := by
  intro event hevent
  rcases List.mem_map.mp hevent with ⟨content, -, heq⟩
  exact ⟨content, by rw [← heq]⟩

theorem objects_nil : Objects codec [] := fun _ hin => absurd hin List.not_mem_nil

theorem objects_single (content : List UInt8) (done : Bool) :
    Objects codec [(.object (codec.digest content) content, done)] :=
  List.forall_mem_singleton.mpr ⟨content, rfl⟩

theorem Objects.append {events more : List (RegistryUpload × Bool)} (h : Objects codec events)
    (hmore : Objects codec more) : Objects codec (events ++ more) := by
  intro event hevent
  rcases List.mem_append.mp hevent with hin | hin
  · exact h event hin
  · exact hmore event hin

namespace Publisher

theorem upload_cases (publisher : Publisher) (i : Nat) (u : RegistryUpload)
    (context : String → PushError) :
    publisher.upload i u context = ⟨[(u, true)], .ok ()⟩ ∨
      ∃ e, publisher.upload i u context = ⟨[(u, false)], .err e⟩ := by
  unfold upload
  cases publisher.refused i u with
  | none => exact Or.inl rfl
  | some cause => exact Or.inr ⟨_, rfl⟩

theorem pushLayer_cases (codec : Codec) (publisher : Publisher) (i : Nat) (input : LayerInput) :
    (∃ content, readFile publisher.tree input.path = some content ∧
      publisher.pushLayer codec i input =
        ⟨uploaded codec [content], .ok (describeLayer codec input content)⟩) ∨
      ∃ events e, Objects codec events ∧ publisher.pushLayer codec i input = ⟨events, .err e⟩ := by
  unfold pushLayer
  cases readFile publisher.tree input.path with
  | none => exact Or.inr ⟨[], _, objects_nil, rfl⟩
  | some content =>
      rcases publisher.upload_cases i (.object (codec.digest content) content)
        (.pushingBlob input.path) with hdone | ⟨e, hrefused⟩
      · by_cases hsize : content.length < 2 ^ 63
        · refine Or.inl ⟨content, rfl, ?_⟩
          simp only [Option.elim, Fallible.pure_eq, Traced.call_ok_bind, hdone, if_pos hsize]
          rfl
        · refine Or.inr ⟨_, .payloadTooLarge, objects_single content true, ?_⟩
          simp only [Option.elim, Fallible.pure_eq, Traced.call_ok_bind, hdone, if_neg hsize]
          rfl
      · refine Or.inr ⟨_, e, objects_single content false, ?_⟩
        simp [hrefused]

theorem pushLayers_cases (codec : Codec) (publisher : Publisher) (i : Nat)
    (inputs : List LayerInput) :
    (∃ contents, List.Forall₂ (fun input content =>
        readFile publisher.tree input.path = some content) inputs contents ∧
      publisher.pushLayers codec i inputs =
        ⟨uploaded codec contents, .ok (List.zipWith (describeLayer codec) inputs contents)⟩) ∨
      ∃ events e, Objects codec events ∧
        publisher.pushLayers codec i inputs = ⟨events, .err e⟩ := by
  induction inputs generalizing i with
  | nil => exact Or.inl ⟨[], .nil, rfl⟩
  | cons input inputs ih =>
      unfold pushLayers
      rcases publisher.pushLayer_cases codec i input with
        ⟨content, hread, hlayer⟩ | ⟨events, e, hobjects, hlayer⟩
      · rcases ih (i + 1) with ⟨contents, hreads, hlayers⟩ | ⟨events, e, hobjects, hlayers⟩
        · refine Or.inl ⟨content :: contents, .cons hread hreads, ?_⟩
          simp [hlayer, hlayers, uploaded]
        · refine Or.inr ⟨uploaded codec [content] ++ events, e,
            (objects_uploaded _).append hobjects, ?_⟩
          simp [hlayer, hlayers]
      · refine Or.inr ⟨events, e, hobjects, ?_⟩
        simp [hlayer]

theorem pushConfig_cases (codec : Codec) (publisher : Publisher) (i : Nat) (config : List UInt8) :
    publisher.pushConfig codec i config =
        ⟨uploaded codec [config], .ok (describe codec .manifest none config)⟩ ∨
      ∃ events e, Objects codec events ∧
        publisher.pushConfig codec i config = ⟨events, .err e⟩ := by
  unfold pushConfig
  split
  · rcases publisher.upload_cases i (.object (codec.digest config) config) .pushingConfig with
      hdone | ⟨e, hrefused⟩
    · refine Or.inl ?_
      simp [hdone, uploaded]
    · refine Or.inr ⟨_, e, objects_single config false, ?_⟩
      simp [hrefused]
  · exact Or.inr ⟨[], _, objects_nil, rfl⟩

/-- A push fails before it has uploaded everything, or uploads the record last. -/
theorem pushLayersAndConfig_cases (codec : Codec) (publisher : Publisher)
    (inputs : List LayerInput) (config : List UInt8) :
    (Objects codec (publisher.pushLayersAndConfig codec inputs config).trace ∧
      ∃ e, (publisher.pushLayersAndConfig codec inputs config).result = .err e) ∨
    ∃ contents done, List.Forall₂ (fun input content =>
        readFile publisher.tree input.path = some content) inputs contents ∧
      (publisher.pushLayersAndConfig codec inputs config).trace =
        uploaded codec (contents ++ [config]) ++ [(.record publisher.options.reference
          (imageOf codec config inputs contents), done)] ∧
      ∀ url, (publisher.pushLayersAndConfig codec inputs config).result = .ok url →
        done = true := by
  unfold pushLayersAndConfig
  cases publisher.auth with
  | error cause => exact Or.inl ⟨objects_nil, _, rfl⟩
  | ok granted =>
      rw [Except.mapError, Traced.call_ok_bind]
      rcases publisher.pushLayers_cases codec 0 inputs with
        ⟨contents, hreads, hlayers⟩ | ⟨events, e, hobjects, hlayers⟩
      · rw [hlayers]
        rcases publisher.pushConfig_cases codec inputs.length config with
          hconfig | ⟨events, e, hobjects, hconfig⟩
        · rw [hconfig]
          refine Or.inr ?_
          rcases publisher.upload_cases inputs.length (.record publisher.options.reference
            (imageOf codec config inputs contents)) .pushingManifest with hdone | ⟨e, hrefused⟩
          · refine ⟨contents, true, hreads, ?_, fun _ _ => rfl⟩
            unfold imageOf at hdone
            simp [hdone, uploaded_append, imageOf]
          · refine ⟨contents, false, hreads, ?_, fun url hurl => ?_⟩
            · unfold imageOf at hrefused
              simp [hrefused, uploaded_append, imageOf]
            · unfold imageOf at hrefused
              simp [hrefused] at hurl
        · refine Or.inl ⟨?_, e, by simp [hconfig]⟩
          simpa [hconfig] using (objects_uploaded contents).append hobjects
      · refine Or.inl ⟨?_, e, by simp [hlayers]⟩
        simpa [hlayers] using hobjects

theorem pushUpdate_cases (codec : Codec) (publisher : Publisher) :
    (Objects codec (publisher.pushUpdate codec).trace ∧
      ∃ e, (publisher.pushUpdate codec).result = .err e) ∨
    ∃ config inputs contents done,
      prepare codec publisher.tree publisher.options = .ok (config, inputs) ∧
      List.Forall₂ (fun input content => readFile publisher.tree input.path = some content)
        inputs contents ∧
      (publisher.pushUpdate codec).trace =
        uploaded codec (contents ++ [config]) ++ [(.record publisher.options.reference
          (imageOf codec config inputs contents), done)] ∧
      ∀ result, (publisher.pushUpdate codec).result = .ok result → done = true := by
  unfold pushUpdate
  cases hprepare : prepare codec publisher.tree publisher.options with
  | error e => exact Or.inl ⟨objects_nil, e, rfl⟩
  | ok prepared =>
      rw [Traced.call_ok_bind]
      rcases publisher.pushLayersAndConfig_cases codec prepared.2 prepared.1 with
        ⟨hobjects, e, herr⟩ | ⟨contents, done, hreads, htrace, hdone⟩
      · rw [Traced.bind_of_err herr]
        exact Or.inl ⟨hobjects, e, rfl⟩
      · refine Or.inr ⟨prepared.1, prepared.2, contents, done, rfl, hreads, ?_, ?_⟩
        · rw [Traced.trace_bind_call]
          exact htrace
        · intro result hresult
          rw [Traced.result_bind] at hresult
          rcases Outcome.bind_eq_ok.mp hresult with ⟨url, hurl, -⟩
          exact hdone url hurl

end Publisher

end Course

end GhafGivc.Pull
