import GhafGivc.Pull.Collisions
import GhafGivc.Pull.Push

/-! # From publishers to devices

Publishers push to one registry at the same time, and some of them stop halfway. Devices
fetch a record, and later the objects it names, while the pushes go on.
-/

namespace GhafGivc.Pull

open Core Core.Publication

abbrev Registry := ObjectStore String (List UInt8) TaggedReference OciManifest

namespace Registry

def fetch (registry : Registry) (reference : TaggedReference) : Fetch :=
  match registry.records reference with
  | none => .failed "manifest unknown"
  | some image =>
      match registry.objects image.config.digest with
      | none => .failed "blob unknown"
      | some config =>
          match Utf8.decode config with
          | none => .failed "config is not UTF-8"
          | some text => .fetched ⟨text, image.layers⟩

def download (registry : Registry) (blob : BlobDescriptor) :
    List UInt8 × Except DownloadError Unit :=
  match registry.objects blob.digest with
  | none => ([], .error (.failed "blob unknown"))
  | some content => (content, .ok ())

theorem fetch_eq_fetched {registry : Registry} {reference : TaggedReference}
    {remote : RemoteImage} : registry.fetch reference = .fetched remote ↔
      ∃ image config, registry.records reference = some image ∧
        registry.objects image.config.digest = some config ∧
        Utf8.decode config = some remote.configJson ∧ remote.layers = image.layers := by
  unfold fetch
  cases registry.records reference with
  | none => simp
  | some image =>
      dsimp only
      cases hconfig : registry.objects image.config.digest with
      | none => simp [hconfig]
      | some config =>
          dsimp only
          cases hdecode : Utf8.decode config with
          | none => simp [hconfig, hdecode]
          | some text =>
              cases remote
              simp [hconfig, hdecode, eq_comm]

theorem download_eq_ok {registry : Registry} {blob : BlobDescriptor} {content : List UInt8} :
    registry.download blob = (content, .ok ()) ↔ registry.objects blob.digest = some content := by
  unfold download
  cases registry.objects blob.digest <;> simp

end Registry

/-! ## What a record stands for -/

/-- The layer of the media type holds the file at the path. -/
def Carries (codec : Codec) (tree : FileTree) (layers : List BlobDescriptor)
    (mediaType : MediaType) (path : Path) (content : List UInt8) : Prop :=
  ∃ layer, findLayerByMediaType layers mediaType = some layer ∧
    layer.digest = codec.digest content ∧ layer.size = content.length ∧
    tree path = some (.file content)

structure ImageFiles where
  config : List UInt8
  uki : List UInt8
  root : List UInt8
  verity : List UInt8
  changelog : Option (List UInt8)

def ImageFiles.contents (files : ImageFiles) : List (List UInt8) :=
  files.config :: files.uki :: files.root :: files.verity :: files.changelog.toList

theorem ImageFiles.mem_contents (files : ImageFiles) : files.uki ∈ files.contents ∧
    files.root ∈ files.contents ∧ files.verity ∈ files.contents := by
  simp [contents]

/-- The manifest can be fetched: the client reads it as a text. -/
def ImageFiles.IsText (files : ImageFiles) : Prop :=
  ∃ text : String, text.toUTF8.toList = files.config

/-- The record is about files of the publisher, and the manifest among them has the
checksums of the others. -/
structure Published (codec : Codec) (publisher : Publisher) (image : OciManifest)
    (manifest : Image.Manifest) (files : ImageFiles) : Prop where
  config : publisher.tree publisher.options.manifestPath = some (.file files.config)
  config_digest : image.config.digest = codec.digest files.config
  parse : codec.deserialize files.config = some manifest
  layers : ∃ baseDir, publisher.options.manifestPath.parent = some baseDir ∧
    Carries codec publisher.tree image.layers .uki
      (baseDir.join manifest.kernel.name.toList) files.uki ∧
    Carries codec publisher.tree image.layers .root
      (baseDir.join manifest.store.name.toList) files.root ∧
    Carries codec publisher.tree image.layers .verity
      (baseDir.join manifest.verity.name.toList) files.verity
  checksums : codec.sha256 files.uki = manifest.kernel.sha256sum ∧
    codec.sha256 files.root = manifest.store.sha256sum ∧
    codec.sha256 files.verity = manifest.verity.sha256sum
  changelog : match publisher.options.changelogPath, files.changelog with
    | some path, some content =>
        Carries codec publisher.tree image.layers .changelog path content
    | none, none => findLayerByMediaType image.layers .changelog = none
    | _, _ => False

/-- The files can be read under their digests. -/
def Available (codec : Codec) (registry : Registry) (files : ImageFiles) : Prop :=
  ∀ content ∈ files.contents, registry.objects (codec.digest content) = some content

theorem MediaType.asRef_inj {a b : MediaType} : a.asRef = b.asRef ↔ a = b := by
  constructor
  · intro h
    cases a <;> cases b <;> first | rfl | exact absurd h (by decide +kernel)
  · intro h
    rw [h]

section Record

variable {codec : Codec} {publisher : Publisher} {content : List UInt8}

theorem findLayerByMediaType_cons (mediaType : MediaType) (input : LayerInput)
    (content : List UInt8) (layers : List BlobDescriptor) :
    findLayerByMediaType (describeLayer codec input content :: layers) mediaType =
      if input.mediaType = mediaType then some (describeLayer codec input content)
      else findLayerByMediaType layers mediaType := by
  have hsame : (describeLayer codec input content).mediaType = mediaType.asRef ↔
      input.mediaType = mediaType := MediaType.asRef_inj
  unfold findLayerByMediaType
  by_cases h : input.mediaType = mediaType
  · simp [hsame, h]
  · simp [hsame, h]

theorem carries_of_describeLayer {layers : List BlobDescriptor} {mediaType : MediaType}
    {input : LayerInput} {path : Path} (hpath : input.path = path)
    (hread : readFile publisher.tree input.path = some content)
    (hlayer : findLayerByMediaType layers mediaType = some (describeLayer codec input content)) :
    Carries codec publisher.tree layers mediaType path content :=
  ⟨_, hlayer, rfl, rfl, hpath ▸ readFile_eq_some.mp hread⟩

theorem checksum_of_present {tree : FileTree} {baseDir path : Path} {file : Image.File}
    (h : File.Present codec tree baseDir file) (hpath : path = baseDir.join file.name.toList)
    (hread : readFile tree path = some content) : codec.sha256 content = file.sha256sum := by
  rcases h with ⟨found, hfound, hsum⟩
  rw [hpath] at hread
  cases hfound.symm.trans (readFile_eq_some.mp hread)
  exact hsum

theorem exists_changelog {path : Option Path} {changelog : List LayerInput}
    {logs : List (List UInt8)}
    (hchangelog : changelog.map (fun input => (input.mediaType, input.path)) =
      (path.map fun path => (MediaType.changelog, path)).toList)
    (hlogs : List.Forall₂ (fun input content =>
      readFile publisher.tree input.path = some content) changelog logs) :
    ∃ log : Option (List UInt8), logs = log.toList ∧
      match path, log with
      | some path, some content =>
          Carries codec publisher.tree (List.zipWith (describeLayer codec) changelog log.toList)
            .changelog path content
      | none, none => findLayerByMediaType
          (List.zipWith (describeLayer codec) changelog log.toList) .changelog = none
      | _, _ => False := by
  cases path with
  | none =>
      cases List.map_eq_nil_iff.mp hchangelog
      cases hlogs
      exact ⟨none, rfl, rfl⟩
  | some path =>
      rcases List.map_eq_singleton_iff.mp hchangelog with ⟨input, rfl, heq⟩
      cases hlogs with
      | cons hread hrest =>
          cases hrest
          rename_i content
          refine ⟨some content, rfl, carries_of_describeLayer (Prod.mk.inj heq).2 hread ?_⟩
          simp [findLayerByMediaType_cons, (Prod.mk.inj heq).1]

/-- The record of a push is about files that were validated. -/
theorem published_of_prepare {config : List UInt8} {inputs : List LayerInput}
    {contents : List (List UInt8)}
    (hprepare : prepare codec publisher.tree publisher.options = .ok (config, inputs))
    (hreads : List.Forall₂ (fun input content =>
      readFile publisher.tree input.path = some content) inputs contents) :
    ∃ manifest files, Published codec publisher (imageOf codec config inputs contents) manifest
        files ∧
      contents ++ [config] = files.uki :: files.root :: files.verity :: files.changelog.toList ++
        [files.config] := by
  rcases prepare_eq_ok hprepare with
    ⟨manifest, baseDir, uki, root, verity, changelog, rfl, hprepared⟩
  cases hreads with
  | @cons _ ukiContent _ _ huki hreads =>
  cases hreads with
  | @cons _ rootContent _ _ hroot hreads =>
  cases hreads with
  | @cons _ verityContent _ logs hverity hlogs =>
  rcases hprepared.uki_eq with ⟨hukiType, hukiPath⟩
  rcases hprepared.root_eq with ⟨hrootType, hrootPath⟩
  rcases hprepared.verity_eq with ⟨hverityType, hverityPath⟩
  have hlayers : (imageOf codec config (uki :: root :: verity :: changelog)
      (ukiContent :: rootContent :: verityContent :: logs)).layers =
      describeLayer codec uki ukiContent :: describeLayer codec root rootContent ::
        describeLayer codec verity verityContent ::
        List.zipWith (describeLayer codec) changelog logs := rfl
  rcases exists_changelog hprepared.changelog_eq hlogs with ⟨log, rfl, hlog⟩
  refine ⟨manifest, ⟨config, ukiContent, rootContent, verityContent, log⟩,
    { config := readFile_eq_some.mp hprepared.read
      config_digest := rfl
      parse := hprepared.parse
      layers := ⟨baseDir, hprepared.parent, carries_of_describeLayer hukiPath huki ?_,
        carries_of_describeLayer hrootPath hroot ?_,
        carries_of_describeLayer hverityPath hverity ?_⟩
      checksums := ⟨checksum_of_present hprepared.valid.1 hukiPath huki,
        checksum_of_present hprepared.valid.2.1 hrootPath hroot,
        checksum_of_present hprepared.valid.2.2 hverityPath hverity⟩
      changelog := ?_ }, rfl⟩
  · simp [hlayers, findLayerByMediaType_cons, hukiType]
  · simp [hlayers, findLayerByMediaType_cons, hukiType, hrootType]
  · simp [hlayers, findLayerByMediaType_cons, hukiType, hrootType, hverityType]
  · have hskip : findLayerByMediaType (imageOf codec config (uki :: root :: verity :: changelog)
        (ukiContent :: rootContent :: verityContent :: log.toList)).layers .changelog =
        findLayerByMediaType (List.zipWith (describeLayer codec) changelog log.toList)
          .changelog := by
      simp [hlayers, findLayerByMediaType_cons, hukiType, hrootType, hverityType]
    unfold Carries
    rw [hskip]
    exact hlog

end Record

section Publishers

variable {ι : Type} {codec : Codec} {publishers : ι → Publisher}

def scripts (codec : Codec) (publishers : ι → Publisher) (i : ι) :
    Script String (List UInt8) TaggedReference OciManifest :=
  ((publishers i).pushUpdate codec).trace

/-- Contents that are pushed have different checksums if they differ. -/
def Distinct (codec : Codec) (publishers : ι → Publisher) : Prop :=
  ∀ i j key key' a b done done', (.object key a, done) ∈ scripts codec publishers i →
    (.object key' b, done') ∈ scripts codec publishers j → codec.sha256 a = codec.sha256 b → a = b

variable {done : Bool} {publisher : Publisher}

theorem Publisher.digest_of_mem {key : String} {content : List UInt8}
    (h : (.object key content, done) ∈ (publisher.pushUpdate codec).trace) :
    key = codec.digest content := by
  have hobjects : ∀ events : List (RegistryUpload × Bool), Objects codec events →
      (.object key content, done) ∈ events → key = codec.digest content := by
    intro events hevents hin
    rcases hevents _ hin with ⟨found, heq⟩
    cases heq
    rfl
  rcases publisher.pushUpdate_cases codec with ⟨hall, -⟩ | ⟨_, _, contents, _, -, -, htrace, -⟩
  · exact hobjects _ hall h
  · rw [htrace] at h
    rcases List.mem_append.mp h with hin | hin
    · exact hobjects _ (objects_uploaded _) hin
    · cases List.mem_singleton.mp hin

theorem addressed_scripts (h : Distinct codec publishers) :
    Addressed (scripts codec publishers) := by
  intro i j key content content' done done' hi hj
  apply h i j key key content content' done done' hi hj
  rw [← Codec.digest_inj, ← Publisher.digest_of_mem hi, ← Publisher.digest_of_mem hj]

theorem objects_ne_record {events : List (RegistryUpload × Bool)} (h : Objects codec events)
    {reference : TaggedReference} {image : OciManifest} :
    (.record reference image, done) ∉ events := by
  intro hin
  rcases h _ hin with ⟨content, heq⟩
  cases heq

theorem ordered_scripts : Ordered (scripts codec publishers) fun i _ key content =>
    (.object key content, true) ∈ scripts codec publishers i := by
  intro i n reference image done hrecord key content hneeds
  unfold scripts at hrecord hneeds ⊢
  rcases (publishers i).pushUpdate_cases codec with
    ⟨hall, -⟩ | ⟨config, _, contents, _, -, -, htrace, -⟩
  · exact absurd (List.mem_of_getElem? hrecord) (objects_ne_record hall)
  · rw [htrace] at hrecord hneeds ⊢
    have hlast : (uploaded codec (contents ++ [config])).length ≤ n := by
      by_contra hlt
      rw [List.getElem?_append_left (by omega)] at hrecord
      exact objects_ne_record (objects_uploaded _) (List.mem_of_getElem? hrecord)
    rcases List.mem_append.mp hneeds with hin | hin
    · rcases List.getElem?_of_mem hin with ⟨m, hm⟩
      have hlt : m < (uploaded codec (contents ++ [config])).length :=
        (List.getElem?_eq_some_iff.mp hm).choose
      exact ⟨m, by omega, by rw [List.getElem?_append_left hlt, hm]⟩
    · cases List.mem_singleton.mp hin

theorem published_of_record {i : ι} {reference : TaggedReference} {image : OciManifest}
    (h : (.record reference image, done) ∈ scripts codec publishers i) :
    ∃ manifest files, (publishers i).options.reference = reference ∧
      Published codec (publishers i) image manifest files ∧
      ∀ content ∈ files.contents,
        (.object (codec.digest content) content, true) ∈ scripts codec publishers i := by
  unfold scripts at h ⊢
  rcases (publishers i).pushUpdate_cases codec with
    ⟨hall, -⟩ | ⟨config, inputs, contents, _, hprepare, hreads, htrace, -⟩
  · exact absurd h (objects_ne_record hall)
  · rw [htrace] at h ⊢
    rcases List.mem_append.mp h with hin | hin
    · exact absurd hin (objects_ne_record (objects_uploaded _))
    · cases List.mem_singleton.mp hin
      rcases published_of_prepare hprepare hreads with ⟨manifest, files, hpublished, hcontents⟩
      refine ⟨manifest, files, rfl, hpublished, fun content hcontent => ?_⟩
      apply List.mem_append_left
      refine List.mem_map.mpr ⟨content, ?_, rfl⟩
      rw [hcontents]
      rcases List.mem_cons.mp hcontent with rfl | hfile
      · exact List.mem_append_right _ List.mem_cons_self
      · exact List.mem_append_left _ hfile

variable [DecidableEq ι] {s : State ι String (List UInt8) TaggedReference OciManifest}
  {reference : TaggedReference} {image : OciManifest} {ls : List (ι × Bool)}

theorem exists_published (hdistinct : Distinct codec publishers)
    (hrun : run (step (scripts codec publishers)) start ls = some s)
    (himage : s.store.records reference = some image) :
    ∃ i manifest files, (publishers i).options.reference = reference ∧
      Published codec (publishers i) image manifest files ∧
      ∀ more t, run (step (scripts codec publishers)) s more = some t →
        Available codec t.store files := by
  rcases exists_publisher (addressed_scripts hdistinct) ordered_scripts hrun himage with
    ⟨i, done, hrecord, hobjects⟩
  rcases published_of_record hrecord with ⟨manifest, files, href, hpublished, hfiles⟩
  refine ⟨i, manifest, files, href, hpublished, fun more t hmore content hcontent => ?_⟩
  exact hobjects more t hmore _ _ (hfiles content hcontent)

theorem Publisher.record_of_ok {result : PushResult}
    (h : (publisher.pushUpdate codec).result = .ok result) :
    ∃ n image, n < (publisher.pushUpdate codec).trace.length ∧
      (publisher.pushUpdate codec).trace[n]? =
        some (.record publisher.options.reference image, true) := by
  rcases publisher.pushUpdate_cases codec with
    ⟨-, e, herr⟩ | ⟨config, inputs, contents, done, -, -, htrace, hdone⟩
  · cases herr.symm.trans h
  · refine ⟨(uploaded codec (contents ++ [config])).length, imageOf codec config inputs contents,
      ?_, ?_⟩
    · rw [htrace, List.length_append]
      exact Nat.lt_add_of_pos_right Nat.one_pos
    · rw [htrace, List.getElem?_concat_length, hdone result h]

/-! A release that one publisher pushes completely and another one only in part. -/

/-! The SHA-256 sums of the files. -/

def rootSum : Vector UInt8 32 :=
  #v[3, 144, 88, 198, 242, 192, 203, 73, 44, 83, 59, 10, 77, 20, 239, 119, 204, 15, 120, 171, 204,
    206, 213, 40, 125, 132, 161, 162, 1, 28, 251, 129]

def veritySum : Vector UInt8 32 :=
  #v[159, 100, 167, 71, 225, 185, 127, 19, 31, 171, 182, 180, 71, 41, 108, 155, 111, 2, 1, 231, 159,
    179, 197, 53, 110, 108, 119, 232, 155, 106, 128, 106]

def changesSum : Vector UInt8 32 :=
  #v[167, 147, 123, 100, 184, 202, 165, 143, 3, 114, 27, 182, 186, 207, 92, 120, 203, 35, 95, 235,
    224, 231, 11, 27, 132, 205, 153, 84, 20, 97, 160, 142]

def configSum : Vector UInt8 32 :=
  #v[8, 197, 125, 110, 156, 161, 200, 127, 15, 85, 155, 160, 230, 92, 37, 223, 165, 96, 226, 162,
    39, 10, 48, 212, 209, 211, 219, 216, 157, 192, 25, 248]

def releaseManifest : Image.Manifest where
  version := "2.0"
  rootVerityHash := "fedcba9876543210"
  kernel := ⟨"uki.efi", oneSum, none⟩
  store := ⟨"root.raw", rootSum, none⟩
  verity := ⟨"verity.raw", veritySum, none⟩

@[irreducible] def releaseConfig : List UInt8 :=
  [123, 10, 32, 32, 34, 109, 101, 116, 97, 34, 58, 32, 123, 125, 44, 10, 32, 32, 34, 109, 97, 110,
    105, 102, 101, 115, 116, 95, 118, 101, 114, 115, 105, 111, 110, 34, 58, 32, 48, 44, 10, 32, 32,
    34, 115, 121, 115, 116, 101, 109, 34, 58, 32, 110, 117, 108, 108, 44, 10, 32, 32, 34, 118, 101,
    114, 115, 105, 111, 110, 34, 58, 32, 34, 50, 46, 48, 34, 44, 10, 32, 32, 34, 114, 111, 111, 116,
    95, 118, 101, 114, 105, 116, 121, 95, 104, 97, 115, 104, 34, 58, 32, 34, 102, 101, 100, 99, 98,
    97, 57, 56, 55, 54, 53, 52, 51, 50, 49, 48, 34, 44, 10, 32, 32, 34, 107, 101, 114, 110, 101,
    108, 34, 58, 32, 123, 10, 32, 32, 32, 32, 34, 102, 105, 108, 101, 34, 58, 32, 34, 117, 107, 105,
    46, 101, 102, 105, 34, 44, 10, 32, 32, 32, 32, 34, 115, 104, 97, 50, 53, 54, 34, 58, 32, 34, 52,
    98, 102, 53, 49, 50, 50, 102, 51, 52, 52, 53, 53, 52, 99, 53, 51, 98, 100, 101, 50, 101, 98, 98,
    56, 99, 100, 50, 98, 55, 101, 51, 100, 49, 54, 48, 48, 97, 100, 54, 51, 49, 99, 51, 56, 53, 97,
    53, 100, 55, 99, 99, 101, 50, 51, 99, 55, 55, 56, 53, 52, 53, 57, 97, 34, 44, 10, 32, 32, 32,
    32, 34, 117, 110, 112, 97, 99, 107, 101, 100, 95, 115, 105, 122, 101, 34, 58, 32, 110, 117, 108,
    108, 10, 32, 32, 125, 44, 10, 32, 32, 34, 114, 111, 111, 116, 34, 58, 32, 123, 10, 32, 32, 32,
    32, 34, 102, 105, 108, 101, 34, 58, 32, 34, 114, 111, 111, 116, 46, 114, 97, 119, 34, 44, 10,
    32, 32, 32, 32, 34, 115, 104, 97, 50, 53, 54, 34, 58, 32, 34, 48, 51, 57, 48, 53, 56, 99, 54,
    102, 50, 99, 48, 99, 98, 52, 57, 50, 99, 53, 51, 51, 98, 48, 97, 52, 100, 49, 52, 101, 102, 55,
    55, 99, 99, 48, 102, 55, 56, 97, 98, 99, 99, 99, 101, 100, 53, 50, 56, 55, 100, 56, 52, 97, 49,
    97, 50, 48, 49, 49, 99, 102, 98, 56, 49, 34, 44, 10, 32, 32, 32, 32, 34, 117, 110, 112, 97, 99,
    107, 101, 100, 95, 115, 105, 122, 101, 34, 58, 32, 110, 117, 108, 108, 10, 32, 32, 125, 44, 10,
    32, 32, 34, 118, 101, 114, 105, 116, 121, 34, 58, 32, 123, 10, 32, 32, 32, 32, 34, 102, 105,
    108, 101, 34, 58, 32, 34, 118, 101, 114, 105, 116, 121, 46, 114, 97, 119, 34, 44, 10, 32, 32,
    32, 32, 34, 115, 104, 97, 50, 53, 54, 34, 58, 32, 34, 57, 102, 54, 52, 97, 55, 52, 55, 101, 49,
    98, 57, 55, 102, 49, 51, 49, 102, 97, 98, 98, 54, 98, 52, 52, 55, 50, 57, 54, 99, 57, 98, 54,
    102, 48, 50, 48, 49, 101, 55, 57, 102, 98, 51, 99, 53, 51, 53, 54, 101, 54, 99, 55, 55, 101, 56,
    57, 98, 54, 97, 56, 48, 54, 97, 34, 44, 10, 32, 32, 32, 32, 34, 117, 110, 112, 97, 99, 107, 101,
    100, 95, 115, 105, 122, 101, 34, 58, 32, 110, 117, 108, 108, 10, 32, 32, 125, 10, 125]

theorem toUTF8_releaseManifest : releaseManifest.text.toUTF8.toList = releaseConfig := by
  rw [Utf8.toList_eq]
  decide +kernel

def releaseCodec : Codec where
  deserialize content := if content = releaseConfig then some releaseManifest else none
  sha256 content :=
    ([([1], oneSum), ([1, 2, 3], rootSum), ([1, 2, 3, 4], veritySum),
      ([102, 105, 114, 115, 116], changesSum), (releaseConfig, configSum)].lookup content).getD
      (Vector.replicate 32 0)

theorem deserialize_releaseConfig :
    releaseCodec.deserialize releaseConfig = some releaseManifest :=
  if_pos rfl

def releaseDir : Path := Path.components "/release".toList

def releaseTree : FileTree := fun path =>
  if path = releaseDir.join "manifest.json".toList then some (.file releaseConfig)
  else if path = releaseDir.join "uki.efi".toList then some (.file [1])
  else if path = releaseDir.join "root.raw".toList then some (.file [1, 2, 3])
  else if path = releaseDir.join "verity.raw".toList then some (.file [1, 2, 3, 4])
  else if path = releaseDir.join "changes.txt".toList then some (.file [102, 105, 114, 115, 116])
  else none

def releasePublishers (refused : Bool) : Publisher where
  tree := releaseTree
  options := ⟨ghafV1, releaseDir.join "manifest.json".toList,
    some (releaseDir.join "changes.txt".toList)⟩
  auth := .ok ()
  refused i _ := if refused ∧ i = 1 then some "connection reset" else none
  url := "https://registry.example/v2/ghaf/manifests/v1"
  verified := .digest "sha256:00"

def releaseTurns : List (Bool × Bool) :=
  [(true, false), (false, false), (true, true), (false, false), (false, false), (false, false),
    (false, false), (false, false)]

def releaseRun : Option (State Bool String (List UInt8) TaggedReference OciManifest) :=
  run (step (scripts releaseCodec releasePublishers)) start releaseTurns

theorem release_samples :
    ((releaseRun.bind fun s => s.store.records ghafV1).any fun image =>
      Apart releaseManifest image.layers) = true ∧
    Manifest.normalizePaths releaseManifest = .ok releaseManifest ∧
    (∀ i j : Bool, ((scripts releaseCodec releasePublishers i).all fun a =>
      (scripts releaseCodec releasePublishers j).all fun b =>
        match a.1, b.1 with
        | .object _ x, .object _ y => x = y ∨ releaseCodec.sha256 x ≠ releaseCodec.sha256 y
        | _, _ => true) = true) := by
  decide +kernel

theorem distinct_release : Distinct releaseCodec releasePublishers := by
  intro i j key key' a b done done' ha hb hsame
  have hall := release_samples.2.2 i j
  have hboth := List.all_eq_true.mp (List.all_eq_true.mp hall _ ha) _ hb
  rcases of_decide_eq_true hboth with heq | hne
  · exact heq
  · exact absurd hsame hne

theorem exists_release : ∃ s image, releaseRun = some s ∧ s.store.records ghafV1 = some image ∧
    Apart releaseManifest image.layers := by
  have hrun := release_samples.1
  cases hstate : releaseRun with
  | none =>
      rw [hstate] at hrun
      cases hrun
  | some s =>
      rw [hstate, Option.bind_some] at hrun
      cases himage : s.store.records ghafV1 with
      | none =>
          rw [himage] at hrun
          cases hrun
      | some image =>
          rw [himage] at hrun
          exact ⟨s, image, rfl, himage, of_decide_eq_true hrun⟩

/-- Whatever order the pushes are carried out in, and wherever some of them stop: a record
that the registry shows is that of one publisher, for the files beside its manifest, whose
checksums are those in the manifest, and all of these files can be read from then on. Once a
push to a reference was reported as a success, there is such a record. -/
theorem records_complete (hdistinct : Distinct codec publishers)
    (hrun : run (step (scripts codec publishers)) start ls = some s)
    (reference : TaggedReference) :
    (∀ image, s.store.records reference = some image →
      ∃ i manifest files, (publishers i).options.reference = reference ∧
        Published codec (publishers i) image manifest files ∧
        ∀ more t, run (step (scripts codec publishers)) s more = some t →
          Available codec t.store files) ∧
    ∀ i result, ((publishers i).pushUpdate codec).result = .ok result →
      (publishers i).options.reference = reference →
      (scripts codec publishers i).length ≤ s.position i →
        ∃ image, s.store.records reference = some image := by
  constructor
  · intro image himage
    exact exists_published hdistinct hrun himage
  · intro i result hok href hend
    have hinv : Inv (scripts codec publishers) s :=
      (inv_start _).run (addressed_scripts hdistinct) hrun
    rcases Publisher.record_of_ok hok with ⟨n, image, hn, hrecord⟩
    rw [href] at hrecord
    exact Option.ne_none_iff_exists'.mp
      (hinv.visible i n reference image (Nat.lt_of_lt_of_le hn hend) hrecord)

theorem records_complete_release : ∃ s image i manifest files, releaseRun = some s ∧
    s.store.records ghafV1 = some image ∧
    Published releaseCodec (releasePublishers i) image manifest files ∧
    Available releaseCodec s.store files := by
  rcases exists_release with ⟨s, image, hrun, himage, -⟩
  rcases (records_complete distinct_release hrun ghafV1).1 image himage with
    ⟨i, manifest, files, -, hpublished, havailable⟩
  exact ⟨s, image, i, manifest, files, hrun, himage, hpublished, havailable [] s rfl⟩

end Publishers

section Downloads

variable {env : Environment} {outputDir : Path} {i : Nat} {binding : ArtifactBinding}
  {bindings : List ArtifactBinding}

theorem Environment.download_ok_of_downloadBinding
    (h : (env.downloadBinding outputDir i binding).result = .ok ()) :
    (env.download i binding.blob).2 = .ok () := by
  rw [downloadBinding_eq, Traced.result_bind] at h
  rcases Outcome.bind_eq_ok.mp h with ⟨_, -, h⟩
  rw [Traced.result_bind] at h
  rcases Outcome.bind_eq_ok.mp h with ⟨_, -, h⟩
  rw [Traced.result_bind] at h
  rcases Outcome.bind_eq_ok.mp h with ⟨_, hblob, -⟩
  unfold downloadBlobToFile at hblob
  cases hdownload : (env.download i binding.blob).2 with
  | ok done => rfl
  | error e =>
      rw [hdownload] at hblob
      cases e <;> cases hblob

theorem Environment.download_ok_of_downloadBindings
    (h : (env.downloadBindings outputDir i bindings).result = .ok ()) {n : Nat}
    (hn : bindings[n]? = some binding) : (env.download (i + n) binding.blob).2 = .ok () := by
  induction bindings generalizing i n with
  | nil => cases hn
  | cons first bindings ih =>
      rw [downloadBindings_cons, Traced.result_bind] at h
      rcases Outcome.bind_eq_ok.mp h with ⟨_, hfirst, hrest⟩
      cases n with
      | zero =>
          cases hn
          exact download_ok_of_downloadBinding hfirst
      | succ n =>
          have hlater := ih hrest hn
          rwa [Nat.add_right_comm] at hlater

end Downloads

section Normalize

variable {manifest normal : Image.Manifest}

theorem File.sha256sum_of_normalizePath {file normal : Image.File}
    (h : File.normalizePath file = .ok normal) : normal.sha256sum = file.sha256sum := by
  rcases Fallible.bind_eq_ok.mp h with ⟨name, -, hout⟩
  cases hout
  rfl

theorem File.namesOf_normalizePath {file normal : Image.File}
    (h : File.normalizePath file = .ok normal) : namesOf normal.name = namesOf file.name := by
  rcases Fallible.bind_eq_ok.mp h with ⟨name, hname, hout⟩
  cases hout
  exact namesOf_relativePath hname

theorem File.exists_normalizePath {file : Image.File} :
    (∃ normal, File.normalizePath file = .ok normal) ↔ Admissible file.name := by
  rw [← (sanitizes_relativePath _).accepts file.name]
  unfold File.normalizePath normalizeRelativePath
  simp only [Fallible.bind_eq_ok]
  constructor
  · intro h
    rcases h with ⟨_, out, hout, -⟩
    exact ⟨out, hout⟩
  · intro h
    rcases h with ⟨out, hout⟩
    exact ⟨_, out, hout, rfl⟩

theorem Manifest.normalizePaths_eq_ok : Manifest.normalizePaths manifest = .ok normal ↔
    ∃ kernel store verity, File.normalizePath manifest.kernel = .ok kernel ∧
      File.normalizePath manifest.store = .ok store ∧
      File.normalizePath manifest.verity = .ok verity ∧
      normal = { manifest with kernel, store, verity } := by
  unfold Manifest.normalizePaths
  simp only [Fallible.bind_eq_ok, Fallible.pure_eq, Except.ok.injEq]
  constructor
  · intro h
    rcases h with ⟨kernel, hkernel, store, hstore, verity, hverity, heq⟩
    exact ⟨kernel, store, verity, hkernel, hstore, hverity, heq.symm⟩
  · intro h
    rcases h with ⟨kernel, store, verity, hkernel, hstore, hverity, heq⟩
    exact ⟨kernel, hkernel, store, hstore, verity, hverity, heq.symm⟩

/-- The three names of an image can be used on a device. -/
def AdmissibleNames (manifest : Image.Manifest) : Prop :=
  Admissible manifest.kernel.name ∧ Admissible manifest.store.name ∧
    Admissible manifest.verity.name

theorem Manifest.exists_normalizePaths :
    (∃ normal, Manifest.normalizePaths manifest = .ok normal) ↔ AdmissibleNames manifest := by
  unfold AdmissibleNames
  rw [← File.exists_normalizePath, ← File.exists_normalizePath, ← File.exists_normalizePath]
  simp only [Manifest.normalizePaths_eq_ok]
  constructor
  · intro h
    rcases h with ⟨_, kernel, store, verity, hkernel, hstore, hverity, -⟩
    exact ⟨⟨kernel, hkernel⟩, ⟨store, hstore⟩, ⟨verity, hverity⟩⟩
  · intro h
    rcases h with ⟨⟨kernel, hkernel⟩, ⟨store, hstore⟩, ⟨verity, hverity⟩⟩
    exact ⟨_, kernel, store, verity, hkernel, hstore, hverity, rfl⟩

end Normalize

section Fetched

variable {codec : Codec} {publisher : Publisher} {image : OciManifest}
  {manifest : Image.Manifest} {files : ImageFiles} {registry : Registry}
  {reference : TaggedReference} {remote : RemoteImage}

theorem Available.config (h : Available codec registry files) :
    registry.objects (codec.digest files.config) = some files.config :=
  h files.config List.mem_cons_self

theorem Published.configJson (h : Published codec publisher image manifest files)
    (havailable : Available codec registry files) (himage : registry.records reference = some image)
    (hfetch : registry.fetch reference = .fetched remote) :
    remote.layers = image.layers ∧ remote.configJson.toUTF8.toList = files.config := by
  rcases Registry.fetch_eq_fetched.mp hfetch with ⟨found, config, hfound, hconfig, htext, hlayers⟩
  cases himage.symm.trans hfound
  rw [h.config_digest, havailable.config] at hconfig
  cases hconfig
  exact ⟨hlayers, Utf8.decode_eq_some.mp htext⟩

theorem Published.exists_fetch (h : Published codec publisher image manifest files)
    (havailable : Available codec registry files)
    (himage : registry.records reference = some image) (htext : files.IsText) :
    ∃ remote, registry.fetch reference = .fetched remote := by
  rcases htext with ⟨text, hfile⟩
  refine ⟨⟨text, image.layers⟩, Registry.fetch_eq_fetched.mpr
    ⟨image, files.config, himage, ?_, Utf8.decode_eq_some.mpr hfile, rfl⟩⟩
  rw [h.config_digest]
  exact havailable.config

theorem Published.fromSlice (h : Published codec publisher image manifest files) :
    Image.Manifest.fromSlice codec.deserialize files.config = .ok manifest := by
  unfold Image.Manifest.fromSlice
  rw [h.parse]
  rfl

theorem Published.exists_bindings (h : Published codec publisher image manifest files)
    (normal : Image.Manifest) :
    ∃ bindings, selectArtifactBindings normal image.layers = .ok bindings ∧
      ∀ binding ∈ bindings, ∃ content ∈ files.contents,
        binding.blob.digest = codec.digest content := by
  rcases h.layers with
    ⟨_, -, ⟨uki, huki, hukiDigest, -⟩, ⟨root, hroot, hrootDigest, -⟩,
      ⟨verity, hverity, hverityDigest, -⟩⟩
  have hlog : ∀ binding ∈ changelogBindings image.layers, ∃ content ∈ files.contents,
      binding.blob.digest = codec.digest content := by
    intro binding hbinding
    rcases Option.map_eq_some_iff.mp (Option.mem_toList.mp hbinding) with ⟨layer, hlayer, rfl⟩
    have hchangelog := h.changelog
    split at hchangelog
    · rename_i path content _ hfile
      rcases hchangelog with ⟨found, hfound, hdigest, -⟩
      cases hfound.symm.trans hlayer
      exact ⟨content, by simp [ImageFiles.contents, hfile], hdigest⟩
    · cases hchangelog.symm.trans hlayer
    · exact hchangelog.elim
  refine ⟨_, selectArtifactBindings_eq_ok.mpr ⟨uki, root, verity, huki, hroot, hverity, rfl⟩, ?_⟩
  simp only [List.forall_mem_cons]
  rcases files.mem_contents with ⟨hinUki, hinRoot, hinVerity⟩
  exact ⟨⟨files.uki, hinUki, hukiDigest⟩, ⟨files.root, hinRoot, hrootDigest⟩,
    ⟨files.verity, hinVerity, hverityDigest⟩, hlog⟩

end Fetched

/-- A device reads from the registry: the record as it is at first, and object number `i` as
it is when it is downloaded. Fetching and downloading may fail. -/
structure Session.ReadsFrom (session : Session) (codec : Codec) (reference : TaggedReference)
    (registry : Registry) (later : Nat → Registry) : Prop where
  deserialize : session.env.deserialize = codec.deserialize
  fetch : ∀ remote, session.fetch = .fetched remote → registry.fetch reference = .fetched remote
  download : ∀ i blob, (session.env.download i blob).2 = .ok () →
    (later i).objects blob.digest = some (session.env.download i blob).1

/-- The artifacts of the image are in the directory. -/
structure Delivered (codec : Codec) (dir : Path) (manifest : Image.Manifest) (files : ImageFiles)
    (tree : FileTree) : Prop where
  kernel : tree (dir.join manifest.kernel.name.toList) = some (.file files.uki)
  store : tree (dir.join manifest.store.name.toList) = some (.file files.root)
  verity : tree (dir.join manifest.verity.name.toList) = some (.file files.verity)
  valid : Manifest.validate codec tree dir true manifest = .ok ()

section Deliver

variable {codec : Codec} {publisher : Publisher} {image : OciManifest}
  {manifest normal : Image.Manifest} {files : ImageFiles} {registry : Registry}
  {later : Nat → Registry} {reference : TaggedReference} {remote : RemoteImage}
  {session : Session} {dir : Path} {bindings : List ArtifactBinding} {content : List UInt8}
  {tree : FileTree}

/-- A layer that was downloaded is the file it was made from. -/
theorem download_eq_of_carries {mediaType : MediaType} {path : Path} {i : Nat}
    {blob : BlobDescriptor} {file : List UInt8}
    (hreads : session.ReadsFrom codec reference registry later)
    (havailable : (later i).objects (codec.digest file) = some file)
    (hcarries : Carries codec publisher.tree image.layers mediaType path file)
    (hblob : findLayerByMediaType image.layers mediaType = some blob)
    (hdone : (session.env.download i blob).2 = .ok ()) :
    (session.env.download i blob).1 = file := by
  rcases hcarries with ⟨layer, hlayer, hdigest, -, -⟩
  cases hlayer.symm.trans hblob
  have hobject := hreads.download i blob hdone
  rw [hdigest, havailable] at hobject
  exact (Option.some.inj hobject).symm

theorem delivered_of_stored (hpublished : Published codec publisher image manifest files)
    (havailable : ∀ n, Available codec (later n) files)
    (hreads : session.ReadsFrom codec reference registry later)
    (hpulled : session.Pulled remote normal bindings content)
    (hlayers : remote.layers = image.layers)
    (hnormal : Manifest.normalizePaths manifest = .ok normal)
    (hdone : (session.env.downloadBindings dir 0 bindings).result = .ok ())
    (hstored : Stored session.env dir normal remote.layers tree) :
    Delivered codec dir normal files tree := by
  rcases hpublished.layers with ⟨baseDir, -, hcarryUki, hcarryRoot, hcarryVerity⟩
  rcases hpulled.artifacts with
    ⟨uki, root, verity, log, rfl, ⟨huki, -⟩, ⟨hroot, -⟩, ⟨hverity, -⟩, -⟩
  rcases hstored with ⟨⟨_, hfound0, hat0⟩, ⟨_, hfound1, hat1⟩, ⟨_, hfound2, hat2⟩, -⟩
  cases huki.symm.trans hfound0
  cases hroot.symm.trans hfound1
  cases hverity.symm.trans hfound2
  rw [hlayers] at huki hroot hverity
  have hdownload0 := Environment.download_ok_of_downloadBindings hdone (n := 0) rfl
  have hdownload1 := Environment.download_ok_of_downloadBindings hdone (n := 1) rfl
  have hdownload2 := Environment.download_ok_of_downloadBindings hdone (n := 2) rfl
  rcases files.mem_contents with ⟨hin0, hin1, hin2⟩
  have hfile0 := download_eq_of_carries hreads (havailable 0 _ hin0) hcarryUki huki hdownload0
  have hfile1 := download_eq_of_carries hreads (havailable 1 _ hin1) hcarryRoot hroot hdownload1
  have hfile2 := download_eq_of_carries hreads (havailable 2 _ hin2) hcarryVerity hverity
    hdownload2
  rw [hfile0] at hat0
  rw [hfile1] at hat1
  rw [hfile2] at hat2
  rcases Manifest.normalizePaths_eq_ok.mp hnormal with
    ⟨kernel, store, verityFile, hkernelName, hstoreName, hverityName, rfl⟩
  refine ⟨hat0, hat1, hat2, Manifest.validate_eq_ok.mpr ⟨⟨_, hat0, ?_⟩, ⟨_, hat1, ?_⟩, _, hat2, ?_⟩⟩
  · exact hpublished.checksums.1.trans (File.sha256sum_of_normalizePath hkernelName).symm
  · exact hpublished.checksums.2.1.trans (File.sha256sum_of_normalizePath hstoreName).symm
  · exact hpublished.checksums.2.2.trans (File.sha256sum_of_normalizePath hverityName).symm

end Deliver

section Pull

variable {ι : Type} [DecidableEq ι] {codec : Codec} {publishers : ι → Publisher}
  {s : State ι String (List UInt8) TaggedReference OciManifest} {ls : List (ι × Bool)}
  {later : Nat → State ι String (List UInt8) TaggedReference OciManifest}
  {reference : TaggedReference} {session : Session} {root : Path} {image : OciManifest}
  {registry : Registry}

/-- The registry answers, and the validation and the installation end well. -/
structure Session.ServedBy (session : Session) (codec : Codec) (reference : TaggedReference)
    (registry : Registry) (later : Nat → Registry) : Prop where
  deserialize : session.env.deserialize = codec.deserialize
  serialize : ∀ manifest, ∃ content, session.env.serialize manifest = .ok content
  fetch : session.fetch = registry.fetch reference
  download : ∀ i blob, session.env.download i blob = (later i).download blob
  afterwards : session.afterwards = .ok ()

theorem Session.ServedBy.readsFrom {later : Nat → Registry}
    (h : session.ServedBy codec reference registry later) :
    session.ReadsFrom codec reference registry later where
  deserialize := h.deserialize
  fetch remote hremote := h.fetch.symm.trans hremote
  download i blob hok := by
    rw [h.download] at hok ⊢
    exact Registry.download_eq_ok.mp (Prod.ext rfl hok)

def artifactPaths (manifest : Image.Manifest) (layers : List BlobDescriptor) : List RelPath :=
  namesOf manifest.kernel.name :: namesOf manifest.store.name :: namesOf manifest.verity.name ::
    (changelogBindings layers).map (·.relPath)

section Served

variable {publisher : Publisher} {image : OciManifest} {manifest normal : Image.Manifest}
  {files : ImageFiles} {registry : Registry} {later : Nat → Registry} {remote : RemoteImage}
  {bindings : List ArtifactBinding} {content : List UInt8}

theorem Session.Pulled.relPaths (h : session.Pulled remote normal bindings content)
    (hnormal : Manifest.normalizePaths manifest = .ok normal) :
    bindings.map (·.relPath) = artifactPaths manifest remote.layers := by
  rcases Manifest.normalizePaths_eq_ok.mp hnormal with
    ⟨kernel, store, verity, hkernel, hstore, hverity, rfl⟩
  rcases selectArtifactBindings_eq_ok.mp h.select with ⟨_, _, _, -, -, -, rfl⟩
  unfold artifactPaths
  rw [← File.namesOf_normalizePath hkernel, ← File.namesOf_normalizePath hstore,
    ← File.namesOf_normalizePath hverity]
  rfl

/-- What is pulled is the image that was published. -/
theorem Published.of_pulled (hpublished : Published codec publisher image manifest files)
    (havailable : Available codec registry files)
    (himage : registry.records reference = some image)
    (hserved : session.ServedBy codec reference registry later)
    (hpulled : session.Pulled remote normal bindings content) :
    files.IsText ∧ remote.layers = image.layers ∧
      Manifest.normalizePaths manifest = .ok normal := by
  have hfetch := hserved.fetch.symm.trans hpulled.fetch
  rcases hpublished.configJson havailable himage hfetch with ⟨hlayers, hconfig⟩
  rcases hpulled.parse with ⟨parsed, hparsed, hnormal⟩
  rw [hserved.deserialize, hconfig, hpublished.fromSlice] at hparsed
  cases hparsed
  exact ⟨⟨_, hconfig⟩, hlayers, hnormal⟩

theorem Published.exists_pulled (hpublished : Published codec publisher image manifest files)
    (havailable : Available codec registry files)
    (himage : registry.records reference = some image)
    (hserved : session.ServedBy codec reference registry later) (htext : files.IsText)
    (hnormal : Manifest.normalizePaths manifest = .ok normal) :
    ∃ remote bindings content, session.Pulled remote normal bindings content := by
  rcases hpublished.exists_fetch havailable himage htext with ⟨remote, hremote⟩
  rcases hpublished.configJson havailable himage hremote with ⟨hlayers, hconfig⟩
  rcases hserved.serialize normal with ⟨content, hcontent⟩
  rcases hpublished.exists_bindings normal with ⟨bindings, hselect, -⟩
  rw [← hlayers] at hselect
  refine ⟨remote, bindings, content,
    ⟨⟨hserved.fetch.trans hremote, ⟨manifest, ?_, hnormal⟩, hselect⟩, hcontent⟩⟩
  rw [hserved.deserialize, hconfig]
  exact hpublished.fromSlice

theorem Published.download_eq_ok (hpublished : Published codec publisher image manifest files)
    (hlater : ∀ n, Available codec (later n) files)
    (hserved : session.ServedBy codec reference registry later)
    (hselect : selectArtifactBindings normal image.layers = .ok bindings) (n : Nat)
    (binding : ArtifactBinding) (hn : bindings[n]? = some binding) :
    (session.env.download n binding.blob).2 = .ok () := by
  rcases hpublished.exists_bindings normal with ⟨found, hfound, hfiles⟩
  cases hfound.symm.trans hselect
  rcases hfiles binding (List.mem_of_getElem? hn) with ⟨file, hfile, hdigest⟩
  have hobject := hlater n file hfile
  rw [← hdigest] at hobject
  rw [hserved.download, Registry.download_eq_ok.mpr hobject]

end Served

def servedSession (registry : Registry) : Session where
  env :=
    { deserialize := releaseCodec.deserialize
      serialize manifest := .ok (if manifest = releaseManifest then releaseConfig else [])
      refused _ _ := none
      download _ blob := registry.download blob }
  refused _ := none
  owner := []
  fetch := registry.fetch ghafV1
  afterwards := .ok ()

theorem servedBy_servedSession (registry : Registry) :
    (servedSession registry).ServedBy releaseCodec ghafV1 registry fun _ => registry where
  deserialize := rfl
  serialize _ := ⟨_, rfl⟩
  fetch := rfl
  download _ _ := rfl
  afterwards := rfl

def releaseSession (registry : Registry) (layers : List BlobDescriptor) : Session :=
  ({ servedSession registry with
    fetch := .fetched ⟨releaseManifest.text, layers⟩ }).withParser fun _ => some releaseManifest

theorem release_pull_samples : (releaseRun.any fun s =>
    (s.store.records ghafV1).any fun image =>
      s.store.objects image.config.digest = some releaseConfig ∧
      ((releaseSession s.store image.layers).pullUpdate updatesRoot ghafV1).result =
        .ok ⟨ghafV1.outputDir updatesRoot, manifestPath (ghafV1.outputDir updatesRoot)⟩ ∧
      FileTree.Granted (FileTree.only updatesRoot)
        ((releaseSession s.store image.layers).pullUpdate updatesRoot ghafV1).trace ∧
      Fits (artifactPaths releaseManifest image.layers)) = true := by
  decide +kernel

theorem pullUpdate_servedSession (himage : registry.records ghafV1 = some image)
    (hconfig : registry.objects image.config.digest = some releaseConfig) :
    (servedSession registry).pullUpdate updatesRoot ghafV1 =
      (releaseSession registry image.layers).pullUpdate updatesRoot ghafV1 := by
  have hfetch : (servedSession registry).fetch =
      .fetched ⟨releaseManifest.text, image.layers⟩ :=
    Registry.fetch_eq_fetched.mpr ⟨image, releaseConfig, himage, hconfig,
      Utf8.decode_eq_some.mpr toUTF8_releaseManifest, rfl⟩
  have hparse : (servedSession registry).env.deserialize
      releaseManifest.text.toUTF8.toList = some releaseManifest := by
    rw [toUTF8_releaseManifest]
    exact deserialize_releaseConfig
  have hsame : ((servedSession registry).withParser fun _ => some releaseManifest).pullUpdate
      updatesRoot ghafV1 = (servedSession registry).pullUpdate updatesRoot ghafV1 :=
    pullUpdate_withParser hfetch hparse rfl _ _
  unfold releaseSession
  rw [← hsame, ← hfetch]

theorem release_pulled {s : State Bool String (List UInt8) TaggedReference OciManifest}
    (hrun : releaseRun = some s) (himage : s.store.records ghafV1 = some image) :
    s.store.objects image.config.digest = some releaseConfig ∧
      (∃ result, ((servedSession s.store).pullUpdate updatesRoot ghafV1).result = .ok result) ∧
      FileTree.Granted (FileTree.only updatesRoot)
        ((servedSession s.store).pullUpdate updatesRoot ghafV1).trace ∧
      Fits (artifactPaths releaseManifest image.layers) := by
  have hsamples := release_pull_samples
  rw [hrun, Option.any_some, himage, Option.any_some] at hsamples
  rcases of_decide_eq_true hsamples with ⟨hconfig, hresult, hgranted, hfits⟩
  rw [pullUpdate_servedSession himage hconfig]
  exact ⟨hconfig, ⟨_, hresult⟩, hgranted, hfits⟩

theorem fresh_updatesRoot : Fresh updatesRoot ghafV1 (FileTree.only updatesRoot) := by
  have hroot : updatesRoot <+: ghafV1.outputDir updatesRoot ∧
      ¬ ghafV1.outputDir updatesRoot <+: updatesRoot ∧ ¬ lockPath updatesRoot <+: updatesRoot ∧
      ¬ lockPath updatesRoot <+: ghafV1.outputDir updatesRoot := by
    decide +kernel
  rcases hroot with ⟨-, hbelow, hlock, houtside⟩
  refine ⟨fun q _ => ?_, fun p hp _ => ?_, ?_, houtside⟩
  · rintro ⟨content, hfile⟩
    unfold FileTree.only at hfile
    split at hfile
    · cases hfile
    · cases hfile
  · exact if_neg fun hup => hbelow (hp.trans hup)
  · unfold FileTree.only
    rw [if_neg hlock]
    simp

theorem stays (s : State Bool String (List UInt8) TaggedReference OciManifest) :
    ∀ _ : Nat, ∃ more, run (step (scripts releaseCodec releasePublishers)) s more = some s :=
  fun _ => ⟨[], rfl⟩

theorem manifest_of_published {i : Bool} {manifest : Image.Manifest} {files : ImageFiles}
    (h : Published releaseCodec (releasePublishers i) image manifest files) :
    manifest = releaseManifest ∧ files.IsText := by
  have hparse : (if files.config = releaseConfig then some releaseManifest else none) =
      some manifest := h.parse
  split at hparse
  · rename_i hconfig
    exact ⟨(Option.some.inj hparse).symm, releaseManifest.text,
      toUTF8_releaseManifest.trans hconfig.symm⟩
  · cases hparse

/-- While publishers push, a device that pulls a reference gets the image of one push to it,
never parts of two: the artifacts are the files of that publisher, and they pass the
validation with the manifest that was pulled with them. -/
theorem pull_delivers_published (hdistinct : Distinct codec publishers)
    (hrun : run (step (scripts codec publishers)) start ls = some s)
    (hlater : ∀ n, ∃ more, run (step (scripts codec publishers)) s more = some (later n))
    (hreads : session.ReadsFrom codec reference s.store fun n => (later n).store)
    {result : PullResult} {tree tree' : FileTree}
    (hok : (session.pullUpdate root reference).result = .ok result)
    (hsteps : FileTree.Steps tree (session.pullUpdate root reference).trace tree') :
    ∃ i image manifest normal files, s.store.records reference = some image ∧
      (publishers i).options.reference = reference ∧
      Published codec (publishers i) image manifest files ∧
      Manifest.normalizePaths manifest = .ok normal ∧
      (Apart normal image.layers →
        Delivered codec (reference.outputDir root) normal files tree') := by
  rcases session.pulled_of_ok hok with
    ⟨remote, normal, bindings, content, hpulled, hdone, before, after, hbefore, hlast, htrace⟩
  have hfetch := hreads.fetch remote hpulled.fetch
  rcases Registry.fetch_eq_fetched.mp hfetch with ⟨image, _, himage, -⟩
  rcases exists_published hdistinct hrun himage with
    ⟨i, manifest, files, href, hpublished, havailable⟩
  rcases hpublished.configJson (havailable [] s rfl) himage hfetch with ⟨hlayers, hconfig⟩
  rcases hpulled.parse with ⟨parsed, hparsed, hnormal⟩
  rw [hreads.deserialize, hconfig, hpublished.fromSlice] at hparsed
  cases hparsed
  refine ⟨i, image, manifest, normal, files, himage, href, hpublished, hnormal, fun hapart => ?_⟩
  rw [htrace] at hsteps
  have hafter := after_written hpulled hdone hbefore hlast hsteps
  have hstored : Stored session.env (reference.outputDir root) normal remote.layers tree' := by
    rw [← hlayers] at hapart
    refine (hpulled.stored_iff hafter).mpr ?_
    rcases hpulled.artifacts with ⟨uki, rootfs, verity, log, rfl, -⟩
    exact Environment.settled_of_untouched (hpulled.untouched_iff.mpr hapart)
  refine delivered_of_stored hpublished (fun n => ?_) hreads hpulled hlayers hnormal hdone hstored
  rcases hlater n with ⟨more, hmore⟩
  exact havailable more _ hmore

theorem pull_delivers_published_release : ∃ s files tree', releaseRun = some s ∧
    FileTree.Steps (FileTree.only updatesRoot)
      ((servedSession s.store).pullUpdate updatesRoot ghafV1).trace tree' ∧
    Delivered releaseCodec (ghafV1.outputDir updatesRoot) releaseManifest files tree' := by
  rcases exists_release with ⟨s, image, hrun, himage, hapart⟩
  rcases release_pulled hrun himage with ⟨-, ⟨result, hok⟩, -, -⟩
  rcases FileTree.exists_steps (FileTree.only updatesRoot)
    ((servedSession s.store).pullUpdate updatesRoot ghafV1).trace with ⟨tree', hsteps⟩
  rcases pull_delivers_published distinct_release hrun (stays s)
    (servedBy_servedSession s.store).readsFrom hok hsteps with
    ⟨i, found, manifest, normal, files, hfound, -, hpublished, hnormal, hdelivered⟩
  rcases manifest_of_published hpublished with ⟨rfl, -⟩
  cases release_samples.2.1.symm.trans hnormal
  cases himage.symm.trans hfound
  exact ⟨s, files, tree', hrun, hsteps, hdelivered hapart⟩

/-- The publisher does not look at the names of the files. On a device that refuses a call only
for what stands at its paths, and where nothing is stored yet, what is published can be pulled if
the manifest is a text, its names are relative, go nowhere up and are not empty, and no artifact
is in the way of another one, and only then. -/
theorem pull_returns_iff_admissible (hdistinct : Distinct codec publishers)
    (hrun : run (step (scripts codec publishers)) start ls = some s)
    (hlater : ∀ n, ∃ more, run (step (scripts codec publishers)) s more = some (later n))
    {image : OciManifest} (himage : s.store.records reference = some image)
    (hserved : session.ServedBy codec reference s.store fun n => (later n).store)
    {tree tree' : FileTree} (hfresh : Fresh root reference tree)
    (hcalls : tree.Served (session.pullUpdate root reference).trace tree') :
    ∃ i manifest files, (publishers i).options.reference = reference ∧
      Published codec (publishers i) image manifest files ∧
      ((∃ result, (session.pullUpdate root reference).result = .ok result) ↔
        files.IsText ∧ AdmissibleNames manifest ∧
          Fits (artifactPaths manifest image.layers)) := by
  rcases exists_published hdistinct hrun himage with
    ⟨i, manifest, files, href, hpublished, havailable⟩
  have hhere : Available codec s.store files := havailable [] s rfl
  have hthere : ∀ n, Available codec (later n).store files := by
    intro n
    rcases hlater n with ⟨more, hmore⟩
    exact havailable more _ hmore
  refine ⟨i, manifest, files, href, hpublished, ?_⟩
  have hpulled_iff : ∀ remote normal bindings content,
      session.Pulled remote normal bindings content →
      ((∃ result, (session.pullUpdate root reference).result = .ok result) ↔
        Fits (artifactPaths manifest image.layers)) := by
    intro remote normal bindings content hpulled
    rcases hpublished.of_pulled hhere himage hserved hpulled with ⟨-, hlayers, hnormal⟩
    have hselect := hpulled.select
    have hpaths := hpulled.relPaths hnormal
    rw [hlayers] at hselect hpaths
    rw [← hpaths]
    exact (hpulled.answers_pullUpdate (hpublished.download_eq_ok hthere hserved hselect)
      hserved.afterwards hfresh tree' hcalls).1
  rw [← Manifest.exists_normalizePaths]
  constructor
  · intro h
    rcases h with ⟨result, hok⟩
    rcases session.pulled_of_ok hok with ⟨remote, normal, bindings, content, hpulled, -⟩
    rcases hpublished.of_pulled hhere himage hserved hpulled with ⟨htext, -, hnormal⟩
    exact ⟨htext, ⟨normal, hnormal⟩, (hpulled_iff _ _ _ _ hpulled).mp ⟨result, hok⟩⟩
  · intro h
    rcases h with ⟨htext, ⟨normal, hnormal⟩, hfits⟩
    rcases hpublished.exists_pulled hhere himage hserved htext hnormal with
      ⟨remote, bindings, content, hpulled⟩
    exact (hpulled_iff _ _ _ _ hpulled).mpr hfits

theorem pull_returns_iff_admissible_release : ∃ s, releaseRun = some s ∧
    ∃ result, ((servedSession s.store).pullUpdate updatesRoot ghafV1).result = .ok result := by
  rcases exists_release with ⟨s, image, hrun, himage, -⟩
  rcases release_pulled hrun himage with ⟨-, -, hgranted, hfits⟩
  rcases pull_returns_iff_admissible distinct_release hrun (stays s) himage
    (servedBy_servedSession s.store) fresh_updatesRoot hgranted.served with
    ⟨i, manifest, files, -, hpublished, hiff⟩
  rcases manifest_of_published hpublished with ⟨rfl, htext⟩
  exact ⟨s, hrun, hiff.mpr
    ⟨htext, Manifest.exists_normalizePaths.mp ⟨_, release_samples.2.1⟩, hfits⟩⟩

/-- A kernel in the directory that would be the temporary file of the store. -/
example : ¬ Fits [["root.part".toList, "uki.efi".toList], ["root".toList],
    ["verity".toList]] := by
  decide

end Pull

end GhafGivc.Pull
