import GhafGivc.Pull.Download

/-! # Where pulled images are kept

Every image has an output directory below one destination root, made of its repository and
of its tag or digest. A pull that fails or is cancelled removes its directory.
-/

namespace GhafGivc.Pull

open Core

/-- A reference in OCI syntax: the parts of a repository, tags and digests are names, and
one of the last two is given. -/
structure TaggedReference where
  registry : String
  repository : List (List Char)
  tag : Option (List Char)
  digest : Option (List Char)
  repository_ne_nil : repository ≠ []
  isName_repository : ∀ name ∈ repository, Path.IsName name
  isName_tag : ∀ name ∈ tag, Path.IsName name
  isName_digest : ∀ name ∈ digest, Path.IsName name
  tagged : (tag.or digest).isSome
deriving DecidableEq

def sanitizePathComponent (value : List Char) : List Char :=
  value.map fun c => if c = ':' then '_' else c

namespace TaggedReference

def tagOrDigest (r : TaggedReference) : List Char := (r.tag.or r.digest).get r.tagged

/-- The name of the innermost directory. -/
def leaf (r : TaggedReference) : List Char := sanitizePathComponent r.tagOrDigest

def outputDir (root : Path) (r : TaggedReference) : Path :=
  (root.join (Path.joinNames r.repository)).join r.leaf

end TaggedReference

def lockPath (root : Path) : Path := root.join ".ota-update.lock".toList

/-! ## A whole pull -/

inductive Fetch where
  | timedOut
  | cancelled
  | failed (cause : String)
  | fetched (remote : RemoteImage)
deriving DecidableEq

/-- What the world answers in a whole run; `afterwards` is the end of the validation and
the installation, which do not write below the destination root. -/
structure Session where
  env : Environment
  refused : FileEffect → Option String
  owner : List UInt8
  fetch : Fetch
  afterwards : Except String Unit

namespace Session

variable (session : Session)

def request (effect : FileEffect) (context : String → PullError) : Pulling Unit :=
  perform (session.refused effect) effect context

/-- The part of `pull_update` that holds the lock. -/
def pullLocked (outputDir : Path) : Pulling PullResult := do
  session.request (.createDirAll outputDir) (.creatingOutputDir outputDir)
  match session.fetch with
  | .timedOut => .call (.error .fetchTimeout)
  | .cancelled => do
      session.env.discard 0 outputDir
      .call (.error .pullCancelled)
  | .failed cause => do
      session.env.discard 0 outputDir
      .call (.error (.fetchFailed cause))
  | .fetched remote => do
      let result ← session.env.pullFetched outputDir remote
      Traced.call (session.afterwards.mapError .afterwards)
      pure result

def pullUpdate (root : Path) (reference : TaggedReference) : Pulling PullResult := do
  session.request (.createDirAll root) (.creatingDestinationRoot root)
  session.request (.write (lockPath root) session.owner) (.acquiringLock (lockPath root))
  -- The lock file is removed when the guard is dropped.
  (session.pullLocked (reference.outputDir root)).ensuring
    (.removeFile (lockPath root), (session.refused (.removeFile (lockPath root))).isNone)

end Session

/-! ## Directories of different references -/

def Incomparable (a b : Path) : Prop := ¬ a <+: b ∧ ¬ b <+: a

/-- Neither reference is stored where the other one is, or further down. The registry does
not appear in it. -/
def Separate (r s : TaggedReference) : Prop :=
  ¬ (r.repository = s.repository ∧ r.leaf = s.leaf) ∧
    ¬ r.repository ++ [r.leaf] <+: s.repository ∧ ¬ s.repository ++ [s.leaf] <+: r.repository

instance (r s : TaggedReference) : Decidable (Separate r s) :=
  inferInstanceAs (Decidable (_ ∧ _ ∧ _))

section Directories

variable {root p : Path} {r s : TaggedReference} {name : List Char}

theorem isName_sanitizePathComponent (h : Path.IsName name) :
    Path.IsName (sanitizePathComponent name) := by
  rcases h with ⟨hne, hslash, hdot, hdots⟩
  refine ⟨by simpa [sanitizePathComponent] using hne, ?_, ?_, ?_⟩
  · intro hin
    rcases List.mem_map.mp hin with ⟨c, hc, heq⟩
    split at heq
    · cases heq
    · exact hslash (heq ▸ hc)
  all_goals
    intro heq
    simp only [sanitizePathComponent, List.map_eq_cons_iff, List.map_eq_nil_iff] at heq
    grind

theorem TaggedReference.isName_leaf (r : TaggedReference) : Path.IsName r.leaf := by
  apply isName_sanitizePathComponent
  have hget : r.tag.or r.digest = some r.tagOrDigest := (Option.some_get r.tagged).symm
  cases Option.or_eq_some_iff.mp hget with
  | inl htag => exact r.isName_tag _ htag
  | inr hdigest => exact r.isName_digest _ hdigest.2

theorem TaggedReference.outputDir_eq (root : Path) (r : TaggedReference) :
    r.outputDir root = root ++ (r.repository ++ [r.leaf]).map .normal := by
  have hjoin : Path.joinNames [r.leaf] = r.leaf := by simp [Path.joinNames]
  have hleaf := Path.join_joinNames (root ++ r.repository.map .normal)
    (List.cons_ne_nil r.leaf []) (by simpa using r.isName_leaf)
  rw [hjoin] at hleaf
  unfold outputDir
  rw [Path.join_joinNames root r.repository_ne_nil r.isName_repository, hleaf]
  simp

theorem outputDir_isPrefix_iff : r.outputDir root <+: s.outputDir root ↔
    r.repository ++ [r.leaf] <+: s.repository ∨ r.repository = s.repository ∧ r.leaf = s.leaf := by
  have hinj : Function.Injective Component.normal := fun a b h => Component.normal.inj h
  rw [r.outputDir_eq, s.outputDir_eq, List.prefix_append_right_inj,
    List.prefix_map_iff_of_injective hinj, List.prefix_concat_iff, or_comm]
  simp

theorem incomparable_iff_separate :
    Incomparable (r.outputDir root) (s.outputDir root) ↔ Separate r s := by
  unfold Incomparable Separate
  rw [outputDir_isPrefix_iff, outputDir_isPrefix_iff]
  grind

theorem lockPath_eq (root : Path) :
    lockPath root = root ++ [.normal ".ota-update.lock".toList] := by
  have hname : ∀ name ∈ [".ota-update.lock".toList], Path.IsName name :=
    List.forall_mem_singleton.mpr (by decide +kernel)
  exact Path.join_joinNames root (List.cons_ne_nil _ _) hname

theorem lockPath_not_below : ¬ r.outputDir root <+: lockPath root := by
  intro h
  have hlength := h.length_le
  have hrepository := List.length_pos_iff.mpr r.repository_ne_nil
  rw [r.outputDir_eq, lockPath_eq] at hlength
  simp only [List.length_append, List.length_map, List.length_cons, List.length_nil] at hlength
  omega

end Directories

/-! ## What a pull may replace -/

/-- The call replaces nothing but the lock file and what lies in the output directory. -/
def Spares (root outputDir : Path) (event : FileEffect × Bool) : Prop :=
  ∀ p, event.1.Replaces p → outputDir <+: p ∨ p = lockPath root

namespace Session

variable {session : Session} {root outputDir : Path} {reference : TaggedReference}

theorem spares_of_inside {event : FileEffect × Bool} (h : Environment.Inside outputDir event) :
    Spares root outputDir event :=
  fun _ hp => Or.inl (h.isPrefix_of_replaces hp)

theorem emits_pullLocked : (session.pullLocked outputDir).Emits (Spares root outputDir) := by
  have hdiscard : (session.env.discard 0 outputDir).Emits (Spares root outputDir) :=
    Environment.emits_discard.imp fun _ => spares_of_inside
  unfold pullLocked
  refine Traced.Emits.bind (emits_perform fun _ _ hp => hp.elim) fun _ => ?_
  cases session.fetch with
  | timedOut => exact Traced.emits_call _
  | cancelled => exact hdiscard.bind fun _ => Traced.emits_call _
  | failed cause => exact hdiscard.bind fun _ => Traced.emits_call _
  | fetched remote =>
      have hfetched : (session.env.pullFetched outputDir remote).Emits (Spares root outputDir) :=
        (Environment.emits_pullFetched _ _ _).imp fun _ => spares_of_inside
      exact hfetched.bind fun _ => (Traced.emits_call _).bind fun _ => Traced.emits_pure _

theorem emits_pullUpdate : (session.pullUpdate root reference).Emits
    (Spares root (reference.outputDir root)) := by
  unfold pullUpdate
  refine Traced.Emits.bind (emits_perform fun _ _ hp => hp.elim) fun _ => ?_
  refine Traced.Emits.bind (emits_perform fun _ _ hp => Or.inr hp) fun _ => ?_
  exact emits_pullLocked.ensuring fun _ hp => Or.inr hp

end Session

def pullEvents (root : Path) (pulls : List (Session × TaggedReference)) :
    List (FileEffect × Bool) :=
  pulls.flatMap fun pull => (pull.1.pullUpdate root pull.2).trace

/-- What is stored in a directory survives the pulls into incomparable directories. -/
theorem pulls_keep {root p : Path} {r : TaggedReference} {node : Node}
    {pulls : List (Session × TaggedReference)} {tree tree' : FileTree}
    (h : ∀ pull ∈ pulls, Incomparable (r.outputDir root) (pull.2.outputDir root))
    (hsteps : FileTree.Steps tree (pullEvents root pulls) tree') (hp : r.outputDir root <+: p)
    (hnode : tree p = some node) : tree' p = some node := by
  refine hsteps.keeps (fun event hevent hrep => ?_) hnode
  rcases List.mem_flatMap.mp hevent with ⟨pull, hpull, hin⟩
  cases Session.emits_pullUpdate event hin p hrep with
  | inl hother =>
      cases List.prefix_or_prefix_of_prefix hp hother with
      | inl hbelow => exact (h pull hpull).1 hbelow
      | inr habove => exact (h pull hpull).2 habove
  | inr hlock => exact lockPath_not_below (hlock ▸ hp)

/-- The output directories of two references are apart exactly when neither is stored in or
below the other's place, whatever their registries. Pulls of references that are apart from
`r`, however they end, leave everything in its directory as it is. -/
theorem outputDirs_apart_iff (root : Path) (r s : TaggedReference) :
    (Incomparable (r.outputDir root) (s.outputDir root) ↔ Separate r s) ∧
    ∀ pulls : List (Session × TaggedReference), (∀ pull ∈ pulls, Separate r pull.2) →
      ∀ tree tree', FileTree.Steps tree (pullEvents root pulls) tree' →
        ∀ p node, r.outputDir root <+: p → tree p = some node → tree' p = some node := by
  constructor
  · exact incomparable_iff_separate
  · intro pulls hseparate tree tree' hsteps p node hp hnode
    refine pulls_keep (fun pull hpull => ?_) hsteps hp hnode
    exact incomparable_iff_separate.mpr (hseparate pull hpull)

/-! ## The decoder

A pull asks its decoder about the fetched text only. -/

def Session.withParser (session : Session) (deserialize : List UInt8 → Option Image.Manifest) :
    Session :=
  { session with env := { session.env with deserialize } }

section Parser

variable {session : Session} {deserialize : List UInt8 → Option Image.Manifest} {outputDir : Path}
  {remote : RemoteImage} {parsed : Image.Manifest}

theorem downloadBindings_withParser (i : Nat) (bindings : List ArtifactBinding) :
    (session.withParser deserialize).env.downloadBindings outputDir i bindings =
      session.env.downloadBindings outputDir i bindings := by
  induction bindings generalizing i with
  | nil => rfl
  | cons binding bindings ih =>
      change (session.env.downloadBinding outputDir i binding >>= fun _ =>
        (session.withParser deserialize).env.downloadBindings outputDir (i + 1) bindings) = _
      rw [ih]
      rfl

theorem pullFetched_withParser
    (hold : session.env.deserialize remote.configJson.toUTF8.toList = some parsed)
    (hnew : deserialize remote.configJson.toUTF8.toList = some parsed) :
    (session.withParser deserialize).env.pullFetched outputDir remote =
      session.env.pullFetched outputDir remote := by
  have hparsed : Image.Manifest.fromSlice session.env.deserialize
      remote.configJson.toUTF8.toList = .ok parsed := congrArg (Outcome.context · _) hold
  have hparsed' : Image.Manifest.fromSlice (session.withParser deserialize).env.deserialize
      remote.configJson.toUTF8.toList = .ok parsed := congrArg (Outcome.context · _) hnew
  rw [Environment.pullFetched_of_parse outputDir hparsed,
    Environment.pullFetched_of_parse outputDir hparsed']
  unfold Environment.pullParsed
  simp only [downloadBindings_withParser]
  rfl

theorem pullUpdate_withParser (hfetch : session.fetch = .fetched remote)
    (hold : session.env.deserialize remote.configJson.toUTF8.toList = some parsed)
    (hnew : deserialize remote.configJson.toUTF8.toList = some parsed) (root : Path)
    (reference : TaggedReference) :
    (session.withParser deserialize).pullUpdate root reference =
      session.pullUpdate root reference := by
  have hlocked : (session.withParser deserialize).pullLocked (reference.outputDir root) =
      session.pullLocked (reference.outputDir root) := by
    have hfetch' : (session.withParser deserialize).fetch = .fetched remote := hfetch
    unfold Session.pullLocked
    rw [hfetch, hfetch']
    dsimp only
    rw [pullFetched_withParser hold hnew]
    rfl
  unfold Session.pullUpdate
  rw [hlocked]
  rfl

end Parser

/-! Two references that share a directory with `ghaf:v1`, and one that does not. -/

def ghafV1 : TaggedReference :=
  ⟨"registry.example", ["ghaf".toList], some "v1".toList, none, by decide, by decide, by decide,
    by decide, rfl⟩

def mirrorV1 : TaggedReference :=
  ⟨"mirror.example", ["ghaf".toList], some "v1".toList, none, by decide, by decide, by decide,
    by decide, rfl⟩

def nestedStable : TaggedReference :=
  ⟨"registry.example", ["ghaf".toList, "v1".toList], some "stable".toList, none, by decide,
    by decide, by decide, by decide, rfl⟩

def toolsDigest : TaggedReference :=
  ⟨"registry.example", ["tools".toList], none, some "sha256:0123".toList, by decide, by decide,
    by decide, by decide, rfl⟩

def fetchingSession : Session :=
  ⟨obligingEnvironment, fun _ => none, [], .fetched hostileRemote, .ok ()⟩

def failingSession : Session :=
  ⟨obligingEnvironment, fun _ => none, [], .failed "connection reset", .ok ()⟩

def updatesRoot : Path := Path.components "/persist/updates".toList

def storedTree (r : TaggedReference) : FileTree :=
  (FileTree.only updatesRoot).after (pullEvents updatesRoot [(fetchingSession, r)])

theorem pullEvents_fetchingSession (r : TaggedReference) :
    pullEvents updatesRoot [(fetchingSession, r)] =
      pullEvents updatesRoot [(fetchingSession.withParser fun _ => some hostileManifest, r)] := by
  unfold pullEvents
  rw [List.flatMap_singleton, List.flatMap_singleton, pullUpdate_withParser rfl
    hostileManifest.parse_text rfl]

def storedManifest (r : TaggedReference) : Path :=
  (r.outputDir updatesRoot).join "manifest.json".toList

theorem outputDirs_apart_iff_ghafV1 :
    Incomparable (ghafV1.outputDir updatesRoot) (toolsDigest.outputDir updatesRoot) ∧
    ∃ node, storedTree ghafV1 (storedManifest ghafV1) = some node ∧
      (storedTree ghafV1).after (pullEvents updatesRoot [(failingSession, toolsDigest)])
        (storedManifest ghafV1) = some node := by
  have hsamples : Separate ghafV1 toolsDigest ∧
      (pullEvents updatesRoot [(failingSession, toolsDigest)]).all (·.2) = true ∧
      ghafV1.outputDir updatesRoot <+: storedManifest ghafV1 ∧
      (storedTree ghafV1 (storedManifest ghafV1)).isSome = true := by
    unfold storedTree
    rw [pullEvents_fetchingSession]
    decide +kernel
  rcases hsamples with ⟨hseparate, hdone, hbelow, hstored⟩
  rcases Option.isSome_iff_exists.mp hstored with ⟨node, hnode⟩
  have hapart := outputDirs_apart_iff updatesRoot ghafV1 toolsDigest
  refine ⟨hapart.1.mpr hseparate, node, hnode, ?_⟩
  exact hapart.2 [(failingSession, toolsDigest)] (List.forall_mem_singleton.mpr hseparate) _ _
    (FileTree.steps_after (List.all_eq_true.mp hdone)) _ _ hbelow hnode

/-- A failed pull of `r` removes the image that was pulled for `other`. -/
def RemovedBy (r other : TaggedReference) : Prop :=
  other ≠ r ∧ r.outputDir updatesRoot <+: other.outputDir updatesRoot ∧
    (storedTree other (storedManifest other)).isSome = true ∧
    (∀ event ∈ pullEvents updatesRoot [(failingSession, r)], event.2 = true) ∧
    (storedTree other).after (pullEvents updatesRoot [(failingSession, r)])
      (storedManifest other) = none

/-- The image of the same name from another registry is removed, and so is that of a
repository nested below it. -/
theorem failedPull_removes_other_images :
    RemovedBy ghafV1 mirrorV1 ∧ RemovedBy ghafV1 nestedStable := by
  unfold RemovedBy storedTree
  simp only [pullEvents_fetchingSession]
  decide +kernel

end GhafGivc.Pull
