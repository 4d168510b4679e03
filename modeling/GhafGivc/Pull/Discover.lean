import GhafGivc.Pull.Registry

/-! # Discovery of updates

A device lists the tags of a repository and fetches the manifest of each. A tag whose manifest
cannot be fetched or read is passed over. Publishers push meanwhile.
-/

namespace GhafGivc.Pull

open Core Core.Publication

structure AvailableUpdate where
  repository : List Char
  tag : List Char
  version : String
  hash : String
deriving DecidableEq

/-- Why no list is returned: the tags cannot be listed, a tag is no tag of a reference, or the
operation is cancelled. -/
inductive DiscoverError where
  | timeout
  | tags (cause : String)
  | invalidTag (tag : String)
  | cancelled
deriving DecidableEq

/-- The address of the registry; no mirrors are set. -/
def TaggedReference.resolveRegistry (r : TaggedReference) : String :=
  if r.registry = "docker.io" then "index.docker.io" else r.registry

def TaggedReference.repositoryPath (r : TaggedReference) : List Char :=
  r.resolveRegistry.toList ++ '/' :: Path.joinNames r.repository

/-- What is answered: the tags, the reference that a tag gives with the repository, and the
manifests, by the number of the tag. -/
structure Discovery where
  tags : Except DiscoverError (List String)
  forTag : String → Option TaggedReference
  fetch : Nat → TaggedReference → Fetch
  deserialize : List UInt8 → Option Image.Manifest

namespace Discovery

variable (d : Discovery)

def available (reference : TaggedReference) (manifest : Image.Manifest) : AvailableUpdate :=
  ⟨reference.repositoryPath, reference.tagOrDigest, manifest.version, manifest.rootVerityHash⟩

def discoverFrom : Nat → List String → Except DiscoverError (List AvailableUpdate)
  | _, [] => .ok []
  | i, tag :: later =>
      match d.forTag tag with
      | none => .error (.invalidTag tag)
      | some reference =>
          match d.fetch i reference with
          | .cancelled => .error .cancelled
          | .timedOut => discoverFrom (i + 1) later
          | .failed _ => discoverFrom (i + 1) later
          | .fetched remote =>
              match Image.Manifest.fromSlice d.deserialize remote.configJson.toUTF8.toList with
              | .ok manifest => do
                  let updates ← discoverFrom (i + 1) later
                  return available reference manifest :: updates
              | _ => discoverFrom (i + 1) later

def discoverUpdates : Except DiscoverError (List AvailableUpdate) := do
  let tags ← d.tags
  d.discoverFrom 0 tags

end Discovery

/-- The manifest that is fetched and read under a number, if it is. -/
def Discovery.manifest? (d : Discovery) (i : Nat) (reference : TaggedReference) :
    Option Image.Manifest :=
  match d.fetch i reference with
  | .fetched remote => d.deserialize remote.configJson.toUTF8.toList
  | _ => none

/-- The tag of this number gives the reference, and its manifest was fetched and read. -/
structure Discovery.Reads (d : Discovery) (tags : List String) (i n : Nat)
    (reference : TaggedReference) (manifest : Image.Manifest) : Prop where
  tag : ∃ tag, tags[n]? = some tag ∧ d.forTag tag = some reference
  manifest : d.manifest? (i + n) reference = some manifest

section Loop

variable {d : Discovery} {tags : List String} {tag : String} {i : Nat}
  {updates : List AvailableUpdate} {update : AvailableUpdate}

theorem discoverFrom_cons_eq_ok (h : d.discoverFrom i (tag :: tags) = .ok updates) :
    ∃ reference rest, d.forTag tag = some reference ∧ d.discoverFrom (i + 1) tags = .ok rest ∧
      updates = ((d.manifest? i reference).map (Discovery.available reference)).toList ++ rest := by
  unfold Discovery.discoverFrom at h
  cases href : d.forTag tag with
  | none =>
      rw [href] at h
      cases h
  | some reference =>
      rw [href] at h
      unfold Discovery.manifest?
      cases hfetch : d.fetch i reference with
      | cancelled =>
          simp only [hfetch] at h
          cases h
      | timedOut =>
          simp only [hfetch] at h
          exact ⟨reference, updates, rfl, h, by simp only [hfetch]; rfl⟩
      | failed cause =>
          simp only [hfetch] at h
          exact ⟨reference, updates, rfl, h, by simp only [hfetch]; rfl⟩
      | fetched remote =>
          simp only [hfetch, Image.Manifest.fromSlice, Outcome.context] at h
          cases hparse : d.deserialize remote.configJson.toUTF8.toList with
          | none =>
              simp only [hparse] at h
              exact ⟨reference, updates, rfl, h, by simp only [hfetch, hparse]; rfl⟩
          | some manifest =>
              simp only [hparse] at h
              rcases Fallible.bind_eq_ok.mp h with ⟨rest, hrest, hout⟩
              cases hout
              exact ⟨reference, rest, rfl, hrest, by simp only [hfetch, hparse]; rfl⟩

theorem reads_cons_succ {n : Nat} {reference : TaggedReference} {manifest : Image.Manifest} :
    d.Reads (tag :: tags) i (n + 1) reference manifest ↔
      d.Reads tags (i + 1) n reference manifest := by
  have hnumber : i + (n + 1) = i + 1 + n := by omega
  constructor
  · intro h
    exact ⟨h.tag, hnumber ▸ h.manifest⟩
  · intro h
    exact ⟨h.tag, hnumber.symm ▸ h.manifest⟩

theorem mem_discoverFrom (h : d.discoverFrom i tags = .ok updates) :
    update ∈ updates ↔ ∃ n reference manifest, d.Reads tags i n reference manifest ∧
      update = Discovery.available reference manifest := by
  induction tags generalizing i updates with
  | nil =>
      cases h
      constructor
      · intro hin
        cases hin
      · intro hex
        rcases hex with ⟨n, reference, manifest, hreads, -⟩
        rcases hreads.tag with ⟨tag, htag, -⟩
        simp at htag
  | cons tag tags ih =>
      rcases discoverFrom_cons_eq_ok h with ⟨reference, rest, href, hrest, rfl⟩
      rw [List.mem_append, ih hrest, Option.mem_toList, Option.map_eq_some_iff]
      constructor
      · intro hor
        rcases hor with ⟨manifest, hmanifest, rfl⟩ | ⟨n, other, manifest, hreads, heq⟩
        · exact ⟨0, reference, manifest, ⟨⟨tag, rfl, href⟩, hmanifest⟩, rfl⟩
        · exact ⟨n + 1, other, manifest, reads_cons_succ.mpr hreads, heq⟩
      · intro hex
        rcases hex with ⟨n, other, manifest, hreads, heq⟩
        cases n with
        | zero =>
            rcases hreads.tag with ⟨found, hfound, hother⟩
            cases hfound
            cases hother.symm.trans href
            exact .inl ⟨manifest, hreads.manifest, heq.symm⟩
        | succ n => exact .inr ⟨n, other, manifest, reads_cons_succ.mp hreads, heq⟩

/-- Tags that cannot be fetched or read do not make the discovery fail. -/
theorem exists_discoverFrom (htags : ∀ tag ∈ tags, ∃ reference, d.forTag tag = some reference)
    (hfetch : ∀ i reference, d.fetch i reference ≠ .cancelled) :
    ∃ updates, d.discoverFrom i tags = .ok updates := by
  induction tags generalizing i with
  | nil => exact ⟨[], rfl⟩
  | cons tag tags ih =>
      rw [List.forall_mem_cons] at htags
      rcases htags.1 with ⟨reference, href⟩
      rcases ih htags.2 (i := i + 1) with ⟨rest, hrest⟩
      unfold Discovery.discoverFrom
      rw [href]
      dsimp only
      cases hanswer : d.fetch i reference with
      | cancelled => exact absurd hanswer (hfetch i reference)
      | timedOut => exact ⟨rest, hrest⟩
      | failed cause => exact ⟨rest, hrest⟩
      | fetched remote =>
          dsimp only
          cases Image.Manifest.fromSlice d.deserialize remote.configJson.toUTF8.toList with
          | ok manifest =>
              rw [hrest]
              exact ⟨_, rfl⟩
          | err error => exact ⟨rest, hrest⟩
          | panicked => exact ⟨rest, hrest⟩

end Loop

section Publishers

variable {ι : Type} [DecidableEq ι] {codec : Codec} {publishers : ι → Publisher} {d : Discovery}
  {tags : List String} {updates : List AvailableUpdate} {reference : TaggedReference}

/-- A manifest that is fetched is the one that the registry has at some time. -/
structure Discovery.ReadsFrom (d : Discovery) (codec : Codec) (publishers : ι → Publisher) :
    Prop where
  deserialize : d.deserialize = codec.deserialize
  fetch : ∀ i reference remote, d.fetch i reference = .fetched remote →
    ∃ ls s, run (step (scripts codec publishers)) start ls = some s ∧
      Registry.fetch s.store reference = .fetched remote

/-- The update is the image of one push, to this reference and with this manifest. -/
def PushedAs (codec : Codec) (publishers : ι → Publisher) (reference : TaggedReference)
    (update : AvailableUpdate) : Prop :=
  ∃ i image manifest files, (publishers i).options.reference = reference ∧
    Published codec (publishers i) image manifest files ∧
    update = Discovery.available reference manifest

theorem exists_manifest? (hdistinct : Distinct codec publishers)
    (hreads : d.ReadsFrom codec publishers) {i : Nat} {remote : RemoteImage}
    (hfetch : d.fetch i reference = .fetched remote) :
    ∃ manifest, d.manifest? i reference = some manifest ∧
      PushedAs codec publishers reference (Discovery.available reference manifest) := by
  rcases hreads.fetch i reference remote hfetch with ⟨ls, s, hrun, hfetched⟩
  rcases Registry.fetch_eq_fetched.mp hfetched with ⟨image, config, himage, -, -, -⟩
  rcases exists_published hdistinct hrun himage with
    ⟨j, manifest, files, href, hpublished, havailable⟩
  have hconfig := (hpublished.configJson (havailable [] s rfl) himage hfetched).2
  refine ⟨manifest, ?_, j, image, manifest, files, href, hpublished, rfl⟩
  unfold Discovery.manifest?
  rw [hfetch]
  dsimp only
  rw [hreads.deserialize, hconfig, hpublished.parse]

theorem pushedAs_of_manifest? (hdistinct : Distinct codec publishers)
    (hreads : d.ReadsFrom codec publishers) {i : Nat} {manifest : Image.Manifest}
    (h : d.manifest? i reference = some manifest) :
    PushedAs codec publishers reference (Discovery.available reference manifest) := by
  cases hfetch : d.fetch i reference with
  | fetched remote =>
      rcases exists_manifest? hdistinct hreads hfetch with ⟨found, hfound, hpushed⟩
      cases hfound.symm.trans h
      exact hpushed
  | _ =>
      rw [Discovery.manifest?, hfetch] at h
      cases h

/-- While publishers push: every update that is listed is the image of one push, with the
version and the hash of its manifest, and every tag that has a record when it is asked for, with a
manifest that is a text, and whose fetch is answered, is listed. -/
theorem discovery_lists_published (hdistinct : Distinct codec publishers)
    (hreads : d.ReadsFrom codec publishers) (htags : d.tags = .ok tags)
    (h : d.discoverUpdates = .ok updates) :
    (∀ update ∈ updates, ∃ tag ∈ tags, ∃ reference, d.forTag tag = some reference ∧
      PushedAs codec publishers reference update) ∧
    ∀ (i : Nat) (tag : String) (reference : TaggedReference), tags[i]? = some tag →
      d.forTag tag = some reference →
      (∃ ls s image, ∃ text : String, run (step (scripts codec publishers)) start ls = some s ∧
        s.store.records reference = some image ∧
        s.store.objects image.config.digest = some text.toUTF8.toList ∧
        d.fetch i reference = Registry.fetch s.store reference) →
      ∃ update ∈ updates, PushedAs codec publishers reference update := by
  unfold Discovery.discoverUpdates at h
  rw [htags] at h
  have hmem (update : AvailableUpdate) : update ∈ updates ↔ ∃ n reference manifest,
      d.Reads tags 0 n reference manifest ∧ update = Discovery.available reference manifest :=
    mem_discoverFrom h
  constructor
  · intro update hupdate
    rcases (hmem update).mp hupdate with ⟨n, reference, manifest, hread, rfl⟩
    rcases hread.tag with ⟨tag, htag, href⟩
    exact ⟨tag, List.mem_of_getElem? htag, reference, href,
      pushedAs_of_manifest? hdistinct hreads hread.manifest⟩
  · intro i tag reference htag href hrecord
    rcases hrecord with ⟨ls, s, image, text, -, himage, hconfig, hfetch⟩
    have hremote : Registry.fetch s.store reference = .fetched ⟨text, image.layers⟩ :=
      Registry.fetch_eq_fetched.mpr ⟨image, _, himage, hconfig, Utf8.decode_toUTF8 text, rfl⟩
    rcases exists_manifest? hdistinct hreads (hfetch.trans hremote) with
      ⟨manifest, hmanifest, hpushed⟩
    refine ⟨Discovery.available reference manifest, (hmem _).mpr ⟨i, reference, manifest, ?_, rfl⟩,
      hpushed⟩
    exact ⟨⟨tag, htag, href⟩, by rw [Nat.zero_add]; exact hmanifest⟩

theorem Registry.fetch_ne_cancelled (registry : Registry) (reference : TaggedReference) :
    registry.fetch reference ≠ .cancelled := by
  unfold Registry.fetch
  cases registry.records reference with
  | none => simp
  | some image =>
      dsimp only
      cases registry.objects image.config.digest with
      | none => simp
      | some config =>
          dsimp only
          cases Utf8.decode config <;> simp

def releaseDiscovery (registry : Registry) : Discovery where
  tags := .ok ["v0", "v1"]
  forTag tag := if tag = "v1" then some ghafV1 else some mirrorV1
  fetch i reference := if i = 0 then .timedOut else registry.fetch reference
  deserialize := releaseCodec.deserialize

theorem discovery_lists_published_release : ∃ s updates, releaseRun = some s ∧
    (releaseDiscovery s.store).discoverUpdates = .ok updates ∧
    ∃ update ∈ updates, PushedAs releaseCodec releasePublishers ghafV1 update := by
  rcases exists_release with ⟨s, image, hrun, himage, -⟩
  have hconfig := (release_pulled hrun himage).1
  have hreads : (releaseDiscovery s.store).ReadsFrom releaseCodec releasePublishers := by
    refine ⟨rfl, fun i reference remote hfetch => ⟨releaseTurns, s, hrun, ?_⟩⟩
    by_cases hi : i = 0
    · simp [releaseDiscovery, hi] at hfetch
    · simpa [releaseDiscovery, hi] using hfetch
  have hok : ∃ updates, (releaseDiscovery s.store).discoverUpdates = .ok updates := by
    refine exists_discoverFrom ?_ ?_
    · intro tag _
      by_cases htag : tag = "v1"
      · exact ⟨ghafV1, if_pos htag⟩
      · exact ⟨mirrorV1, if_neg htag⟩
    · intro i reference
      by_cases hi : i = 0
      · simp [releaseDiscovery, hi]
      · simpa only [releaseDiscovery, hi, if_false] using Registry.fetch_ne_cancelled _ _
  rcases hok with ⟨updates, hupdates⟩
  refine ⟨s, updates, hrun, hupdates, ?_⟩
  exact (discovery_lists_published distinct_release hreads rfl hupdates).2 1 "v1" ghafV1 rfl rfl
    ⟨releaseTurns, s, image, releaseManifest.text, hrun, himage,
      by rw [toUTF8_releaseManifest, hconfig], rfl⟩

end Publishers

end GhafGivc.Pull
