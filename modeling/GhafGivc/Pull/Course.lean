import GhafGivc.Pull.Layout

/-! # The calls of a pull

A pull can end after any of its calls, with or without removing what it has stored.
-/

namespace GhafGivc.Pull

open Core

namespace ArtifactBinding

variable (binding : ArtifactBinding) (outputDir : Path)

def target : Path := outputDir.join binding.localName.toList

def part : Path := (binding.target outputDir).withAddedExtension "part".toList

end ArtifactBinding

def manifestPath (outputDir : Path) : Path := outputDir.join "manifest.json".toList

theorem isPrefix_manifestPath (outputDir : Path) : outputDir <+: manifestPath outputDir :=
  (joined_manifest.localName outputDir).isPrefix

abbrev Calls := List (FileEffect × Bool)

/-- The call changes no file of an output directory. -/
def Calm (root : Path) : FileEffect → Prop
  | .createDirAll _ => True
  | .write file _ => file = lockPath root
  | .removeFile file => file = lockPath root
  | _ => False

def Calls.Calm (root : Path) (calls : Calls) : Prop := ∀ call ∈ calls, Pull.Calm root call.1

/-- The calls have changed no file of an output directory. -/
def Calls.Quiet (root : Path) (calls : Calls) : Prop :=
  ∀ call ∈ calls, Pull.Calm root call.1 ∨ ∃ file, call = (.create file, false)

def Calls.Dirs (calls : Calls) : Prop := ∀ call ∈ calls, ∃ dir, call.1 = .createDirAll dir

section Calm

variable {root p : Path} {reference : TaggedReference} {effect : FileEffect} {calls : Calls}

theorem Calls.Dirs.calm (h : calls.Dirs) : calls.Calm root := by
  intro call hcall
  rcases h call hcall with ⟨dir, hdir⟩
  rw [hdir]
  trivial

theorem Calls.Dirs.notMem (h : calls.Dirs) {done : Bool} (hne : ∀ dir, effect ≠ .createDirAll dir) :
    (effect, done) ∉ calls := by
  intro hin
  rcases h _ hin with ⟨dir, hdir⟩
  exact hne dir hdir

theorem Calls.Calm.quiet (h : calls.Calm root) : calls.Quiet root :=
  fun call hcall => Or.inl (h call hcall)

theorem Calm.keeps (h : Calm root effect) (hp : reference.outputDir root <+: p) :
    ¬ effect.Replaces p ∧ ∀ content, ¬ effect.Makes p (.file content) := by
  have houtside : p ≠ lockPath root := fun heq => lockPath_not_below (heq ▸ hp)
  cases effect with
  | createDirAll dir => exact ⟨not_false, fun _ hmakes => nomatch hmakes.2⟩
  | write file content =>
      exact ⟨fun heq => houtside (heq.trans h), fun _ heq => houtside (heq.trans h)⟩
  | removeFile file => exact ⟨fun heq => houtside (heq.trans h), fun _ => not_false⟩
  | create file => exact h.elim
  | rename source target => exact h.elim
  | removeDirAll dir => exact h.elim

theorem not_calm_manifest (content : List UInt8) :
    ¬ Calm root (.write (manifestPath (reference.outputDir root)) content) := by
  intro hlock
  have hbelow := isPrefix_manifestPath (reference.outputDir root)
  rw [show manifestPath (reference.outputDir root) = lockPath root from hlock] at hbelow
  exact lockPath_not_below hbelow

theorem mem_of_mem_between {before calls after : Calls} {call : FileEffect × Bool}
    (hbefore : before.Calm root) (hafter : after.Calm root) (hcall : ¬ Calm root call.1)
    (h : call ∈ before ++ (calls ++ after)) : call ∈ calls := by
  rcases List.mem_append.mp h with hin | hlater
  · exact absurd (hbefore call hin) hcall
  · rcases List.mem_append.mp hlater with hin | hlast
    · exact hin
    · exact absurd (hafter call hlast) hcall

end Calm

/-! ## One download -/

/-- The calls of one download and its result; `up` creates the parent directory. -/
inductive DownloadCourse (outputDir part target : Path) (content : List UInt8) :
    Calls → Outcome PullError Unit → Prop
  | noParent (up : Calls) (e : PullError) (h : up.Dirs) :
      DownloadCourse outputDir part target content up (.err e)
  | noPart (up : Calls) (e : PullError) (h : up.Dirs) :
      DownloadCourse outputDir part target content (up ++ [(.create part, false)]) (.err e)
  | discarded (up : Calls) (done : Bool) (e : PullError) (h : up.Dirs) :
      DownloadCourse outputDir part target content
        (up ++ [(.create part, true), (.write part content, true),
          (.removeDirAll outputDir, done)]) (.err e)
  | notRenamed (up : Calls) (e : PullError) (h : up.Dirs) :
      DownloadCourse outputDir part target content
        (up ++ [(.create part, true), (.write part content, true),
          (.rename part target, false)]) (.err e)
  | complete (up : Calls) (h : up.Dirs) :
      DownloadCourse outputDir part target content
        (up ++ [(.create part, true), (.write part content, true),
          (.rename part target, true)]) (.ok ())

variable {outputDir part target : Path}

theorem DownloadCourse.ne_panicked {content : List UInt8} {calls : Calls}
    {result : Outcome PullError Unit}
    (h : DownloadCourse outputDir part target content calls result) : result ≠ .panicked := by
  cases h <;> simp

theorem DownloadCourse.of_ok {content : List UInt8} {calls : Calls}
    (h : DownloadCourse outputDir part target content calls (.ok ())) :
    ∃ up : Calls, up.Dirs ∧ calls = up ++ [(.create part, true), (.write part content, true),
      (.rename part target, true)] := by
  cases h with
  | complete up hup => exact ⟨up, hup, rfl⟩

namespace Environment

variable {env : Environment} {outputDir part target : Path} {i : Nat}

theorem request_cases (effect : FileEffect) (context : String → PullError) :
    env.request i effect context = ⟨[(effect, true)], .ok ()⟩ ∨
      ∃ e, env.request i effect context = ⟨[(effect, false)], .err e⟩ :=
  perform_cases _ effect context

theorem createParent_cases (target : Path) : ∃ up : Calls, up.Dirs ∧
    (env.createParent i target = ⟨up, .ok ()⟩ ∨
      ∃ e, env.createParent i target = ⟨up, .err e⟩) := by
  unfold createParent
  cases target.parent with
  | none => exact ⟨[], fun _ hin => absurd hin List.not_mem_nil, Or.inl rfl⟩
  | some parent =>
      have hdirs : ∀ done, Calls.Dirs [(.createDirAll parent, done)] := fun done =>
        List.forall_mem_singleton.mpr ⟨parent, rfl⟩
      rcases request_cases (i := i) (.createDirAll parent) (.creatingParentDir parent) with
        hdone | ⟨e, hrefused⟩
      · exact ⟨_, hdirs true, Or.inl hdone⟩
      · exact ⟨_, hdirs false, Or.inr ⟨e, hrefused⟩⟩

theorem downloadBlobToFile_cases (binding : ArtifactBinding) :
    env.downloadBlobToFile outputDir part i binding =
        ⟨[(.write part (env.download i binding.blob).1, true)], .ok ()⟩ ∨
      ∃ done e, env.downloadBlobToFile outputDir part i binding =
        ⟨[(.write part (env.download i binding.blob).1, true),
          (.removeDirAll outputDir, done)], .err e⟩ := by
  unfold downloadBlobToFile
  cases (env.download i binding.blob).2 with
  | ok done => exact Or.inl rfl
  | error e =>
      cases e with
      | cancelled => exact Or.inr ⟨_, _, rfl⟩
      | failed cause => exact Or.inr ⟨_, _, rfl⟩

theorem downloadBinding_eq (binding : ArtifactBinding) :
    env.downloadBinding outputDir i binding = (do
      env.createParent i (binding.target outputDir)
      env.request i (.create (binding.part outputDir))
        (.creatingTempBlobFile (binding.part outputDir))
      env.downloadBlobToFile outputDir (binding.part outputDir) i binding
      env.request i (.rename (binding.part outputDir) (binding.target outputDir))
        (.renaming (binding.part outputDir) (binding.target outputDir))) := rfl

theorem downloadBinding_course (env : Environment) (outputDir : Path) (i : Nat)
    (binding : ArtifactBinding) :
    DownloadCourse outputDir (binding.part outputDir) (binding.target outputDir)
      (env.download i binding.blob).1 (env.downloadBinding outputDir i binding).trace
      (env.downloadBinding outputDir i binding).result := by
  rw [downloadBinding_eq]
  rcases createParent_cases (binding.target outputDir) with ⟨up, hup, hparent | ⟨e, hparent⟩⟩
  · rw [hparent]
    rcases request_cases (.create (binding.part outputDir))
      (.creatingTempBlobFile (binding.part outputDir)) with hcreate | ⟨e, hcreate⟩
    · rw [hcreate]
      rcases downloadBlobToFile_cases binding with hblob | ⟨done, e, hblob⟩
      · rw [hblob]
        rcases request_cases (.rename (binding.part outputDir) (binding.target outputDir))
          (.renaming (binding.part outputDir) (binding.target outputDir)) with
          hrename | ⟨e, hrename⟩
        · rw [hrename]
          exact .complete up hup
        · rw [hrename]
          exact .notRenamed up e hup
      · rw [hblob]
        exact .discarded up done e hup
    · rw [hcreate]
      exact .noPart up e hup
  · rw [hparent]
    exact .noParent up e hup

/-! ## The downloads -/

theorem downloadBindings_cons (binding : ArtifactBinding) (bindings : List ArtifactBinding) :
    env.downloadBindings outputDir i (binding :: bindings) =
      (env.downloadBinding outputDir i binding >>= fun _ =>
        env.downloadBindings outputDir (i + 1) bindings) := rfl

theorem downloadBindings_cases (i : Nat) (bindings : List ArtifactBinding) :
    (env.downloadBindings outputDir i bindings).result = .ok () ∨
      ∃ done binding rest e, bindings = done ++ binding :: rest ∧
        (env.downloadBindings outputDir i done).result = .ok () ∧
        (env.downloadBinding outputDir (i + done.length) binding).result = .err e ∧
        env.downloadBindings outputDir i bindings =
          ⟨(env.downloadBindings outputDir i done).trace ++
            (env.downloadBinding outputDir (i + done.length) binding).trace, .err e⟩ := by
  induction bindings generalizing i with
  | nil => exact Or.inl rfl
  | cons binding bindings ih =>
      cases hfirst : (env.downloadBinding outputDir i binding).result with
      | panicked => exact absurd hfirst (downloadBinding_course env outputDir i binding).ne_panicked
      | err e =>
          refine Or.inr ⟨[], binding, bindings, e, rfl, rfl, hfirst, ?_⟩
          rw [downloadBindings_cons, Traced.bind_of_err hfirst]
          rfl
      | ok done =>
          rw [downloadBindings_cons, Traced.bind_of_ok hfirst]
          rcases ih (i + 1) with hdone | ⟨done, last, rest, e, heq, hdone, hlast, hall⟩
          · exact Or.inl hdone
          · have hlength : i + 1 + done.length = i + (binding :: done).length := by
              rw [List.length_cons]
              omega
            rw [hlength] at hlast hall
            refine Or.inr ⟨binding :: done, last, rest, e, by rw [heq, List.cons_append], ?_, hlast,
              ?_⟩
            · rw [downloadBindings_cons, Traced.bind_of_ok hfirst]
              exact hdone
            · rw [hall, downloadBindings_cons, Traced.bind_of_ok hfirst, List.append_assoc]

end Environment

/-! ## The whole pull -/

namespace Session

/-- What a pull has fetched and selected before its first download. -/
structure Selected (session : Session) (remote : RemoteImage) (manifest : Image.Manifest)
    (bindings : List ArtifactBinding) : Prop where
  fetch : session.fetch = .fetched remote
  parse : ∃ parsed, Image.Manifest.fromSlice session.env.deserialize
    remote.configJson.toUTF8.toList = .ok parsed ∧ Manifest.normalizePaths parsed = .ok manifest
  select : selectArtifactBindings manifest remote.layers = .ok bindings

/-- The same, and the bytes of the manifest. -/
structure Pulled (session : Session) (remote : RemoteImage) (manifest : Image.Manifest)
    (bindings : List ArtifactBinding) (content : List UInt8) : Prop
    extends session.Selected remote manifest bindings where
  serialize : session.env.serialize manifest = .ok content

/-- The calls of a pull after it has created its output directory. -/
inductive Course (session : Session) (outputDir : Path) :
    Calls → Outcome PullError PullResult → Prop
  | unselected (e : PullError) : Course session outputDir [] (.err e)
  | unfetched (done : Bool) (e : PullError) :
      Course session outputDir [(.removeDirAll outputDir, done)] (.err e)
  | stopped {remote : RemoteImage} {manifest : Image.Manifest} {done : List ArtifactBinding}
      {binding : ArtifactBinding} {rest : List ArtifactBinding} {e : PullError}
      (hselected : session.Selected remote manifest (done ++ binding :: rest))
      (hdone : (session.env.downloadBindings outputDir 0 done).result = .ok ())
      (hstop : (session.env.downloadBinding outputDir done.length binding).result = .err e) :
      Course session outputDir ((session.env.downloadBindings outputDir 0 done).trace ++
        (session.env.downloadBinding outputDir done.length binding).trace) (.err e)
  | unwritten {remote : RemoteImage} {manifest : Image.Manifest}
      {bindings : List ArtifactBinding} (last : Calls) (e : PullError)
      (hselected : session.Selected remote manifest bindings)
      (hdone : (session.env.downloadBindings outputDir 0 bindings).result = .ok ())
      (hlast : last = [] ∨ ∃ content, last = [(.write (manifestPath outputDir) content, false)]) :
      Course session outputDir
        ((session.env.downloadBindings outputDir 0 bindings).trace ++ last) (.err e)
  | written {remote : RemoteImage} {manifest : Image.Manifest} {bindings : List ArtifactBinding}
      {content : List UInt8}
      (hpulled : session.Pulled remote manifest bindings content)
      (hdone : (session.env.downloadBindings outputDir 0 bindings).result = .ok ()) :
      Course session outputDir ((session.env.downloadBindings outputDir 0 bindings).trace ++
        [(.write (manifestPath outputDir) content, true)]) (.ok ⟨outputDir, manifestPath outputDir⟩)

variable {session : Session} {root outputDir : Path} {reference : TaggedReference}
  {remote : RemoteImage} {manifest : Image.Manifest} {bindings : List ArtifactBinding}
  {calls : Calls} {result : PullResult}

theorem Course.ne_panicked {result : Outcome PullError PullResult}
    (h : session.Course outputDir calls result) : result ≠ .panicked := by
  cases h <;> simp

theorem Course.of_ok (h : session.Course outputDir calls (.ok result)) :
    ∃ remote manifest bindings content, session.Pulled remote manifest bindings content ∧
      (session.env.downloadBindings outputDir 0 bindings).result = .ok () ∧
      calls = (session.env.downloadBindings outputDir 0 bindings).trace ++
        [(.write (manifestPath outputDir) content, true)] := by
  cases h with
  | written hpulled hdone => exact ⟨_, _, _, _, hpulled, hdone, rfl⟩

theorem Selected.joined (h : session.Selected remote manifest bindings) :
    ∀ binding ∈ bindings, Joined binding.localName := by
  rcases h.parse with ⟨parsed, -, hnormal⟩
  exact joined_of_mem_selectArtifactBindings hnormal h.select

theorem Selected.artifacts (h : session.Selected remote manifest bindings) :
    ∃ uki root verity log, bindings = uki :: root :: verity :: log ∧
      (findLayerByMediaType remote.layers .uki = some uki.blob ∧
        uki.localName = manifest.kernel.name) ∧
      (findLayerByMediaType remote.layers .root = some root.blob ∧
        root.localName = manifest.store.name) ∧
      (findLayerByMediaType remote.layers .verity = some verity.blob ∧
        verity.localName = manifest.verity.name) ∧
      log = changelogBindings remote.layers := by
  rcases selectArtifactBindings_eq_ok.mp h.select with ⟨_, _, _, huki, hroot, hverity, heq⟩
  exact ⟨_, _, _, _, heq, ⟨huki, rfl⟩, ⟨hroot, rfl⟩, ⟨hverity, rfl⟩, rfl⟩

theorem Selected.pullFetched_eq (h : session.Selected remote manifest bindings)
    (outputDir : Path) : session.env.pullFetched outputDir remote = (do
      session.env.downloadBindings outputDir 0 bindings
      session.env.writeToFile bindings.length manifest (manifestPath outputDir)
      pure ⟨outputDir, manifestPath outputDir⟩) := by
  rcases h.parse with ⟨parsed, hparsed, hnormal⟩
  unfold Environment.pullFetched Environment.pullParsed Traced.mapError
  simp only [hparsed, Traced.mk_ok_bind, hnormal, h.select, Except.mapError, Traced.call_ok_bind,
    List.nil_append]
  rfl

theorem pullFetched_cases (outputDir : Path) (hfetch : session.fetch = .fetched remote) :
    (∃ e, session.env.pullFetched outputDir remote = ⟨[], .err e⟩) ∨
      ∃ manifest bindings, session.Selected remote manifest bindings := by
  unfold Environment.pullFetched Environment.pullParsed Traced.mapError
  cases hparsed : Image.Manifest.fromSlice session.env.deserialize
      remote.configJson.toUTF8.toList with
  | panicked => exact absurd hparsed (Outcome.returns_context _ _)
  | err message => exact Or.inl ⟨_, rfl⟩
  | ok parsed =>
      cases hnormal : Manifest.normalizePaths parsed with
      | error message =>
          simp only [Traced.mk_ok_bind, hnormal, Except.mapError, Traced.call_error_bind]
          exact Or.inl ⟨_, rfl⟩
      | ok manifest =>
          cases hselect : selectArtifactBindings manifest remote.layers with
          | error message =>
              simp only [Traced.mk_ok_bind, hnormal, hselect, Except.mapError,
                Traced.call_ok_bind, Traced.call_error_bind]
              exact Or.inl ⟨_, rfl⟩
          | ok bindings =>
              exact Or.inr ⟨manifest, bindings, hfetch, ⟨parsed, hparsed, hnormal⟩, hselect⟩

theorem writeToFile_cases (env : Environment) (i : Nat) (manifest : Image.Manifest)
    (path : Path) :
    (∃ content, env.serialize manifest = .ok content ∧
      env.writeToFile i manifest path = ⟨[(.write path content, true)], .ok ()⟩) ∨
    ∃ last e, (last = [] ∨ ∃ content, last = [(.write path content, false)]) ∧
      env.writeToFile i manifest path = ⟨last, .err e⟩ := by
  unfold Environment.writeToFile
  cases hserialize : env.serialize manifest with
  | error message => exact Or.inr ⟨[], _, Or.inl rfl, rfl⟩
  | ok content =>
      rw [Except.mapError, Traced.call_ok_bind]
      rcases Environment.request_cases (.write path content) (.writingManifestFile path) with
        hdone | ⟨e, hrefused⟩
      · exact Or.inl ⟨content, rfl, hdone⟩
      · exact Or.inr ⟨_, e, Or.inr ⟨content, rfl⟩, hrefused⟩

/-- `pull_update` from the creation of its output directory to its last call. -/
def body (session : Session) (outputDir : Path) : Pulling PullResult :=
  match session.fetch with
  | .timedOut => .call (.error .fetchTimeout)
  | .cancelled => do
      session.env.discard 0 outputDir
      .call (.error .pullCancelled)
  | .failed cause => do
      session.env.discard 0 outputDir
      .call (.error (.fetchFailed cause))
  | .fetched remote => session.env.pullFetched outputDir remote

theorem body_course (session : Session) (outputDir : Path) :
    session.Course outputDir (session.body outputDir).trace (session.body outputDir).result := by
  unfold body
  cases hfetch : session.fetch with
  | timedOut => exact .unselected _
  | cancelled => exact .unfetched _ _
  | failed cause => exact .unfetched _ _
  | fetched remote =>
      dsimp only
      rcases pullFetched_cases outputDir hfetch with
        ⟨e, hend⟩ | ⟨manifest, bindings, hselected⟩
      · rw [hend]
        exact .unselected e
      · rw [hselected.pullFetched_eq]
        rcases Environment.downloadBindings_cases 0 bindings with
          hdone | ⟨done, binding, rest, e, rfl, hdone, hstop, hall⟩
        · rw [Traced.bind_of_ok hdone]
          rcases writeToFile_cases session.env bindings.length manifest
            (manifestPath outputDir) with ⟨content, hcontent, hwrite⟩ | ⟨last, e, hlast, hwrite⟩
          · rw [hwrite]
            exact .written ⟨hselected, hcontent⟩ hdone
          · rw [hwrite]
            exact .unwritten last e hselected hdone hlast
        · rw [Nat.zero_add] at hstop hall
          rw [hall]
          exact .stopped hselected hdone hstop

theorem pullLocked_eq : session.pullLocked outputDir = (do
    session.request (.createDirAll outputDir) (.creatingOutputDir outputDir)
    let result ← session.body outputDir
    Traced.call (session.afterwards.mapError .afterwards)
    pure result) := by
  unfold pullLocked body
  cases session.fetch <;> rfl

theorem request_cases (effect : FileEffect) (context : String → PullError) :
    session.request effect context = ⟨[(effect, true)], .ok ()⟩ ∨
      ∃ e, session.request effect context = ⟨[(effect, false)], .err e⟩ :=
  perform_cases _ effect context

theorem pullLocked_cases :
    (∃ e, session.pullLocked outputDir = ⟨[(.createDirAll outputDir, false)], .err e⟩) ∨
      (session.pullLocked outputDir).trace =
          (.createDirAll outputDir, true) :: (session.body outputDir).trace ∧
        ∀ result, (session.pullLocked outputDir).result = .ok result →
          (session.body outputDir).result = .ok result := by
  rw [pullLocked_eq]
  rcases request_cases (.createDirAll outputDir) (.creatingOutputDir outputDir) with
    hdone | ⟨e, hrefused⟩
  · rw [hdone]
    refine Or.inr ?_
    cases hbody : (session.body outputDir).result with
    | ok found =>
        rw [Traced.bind_of_ok hbody]
        cases session.afterwards with
        | ok done => exact ⟨by simp [Except.mapError], fun result h => h⟩
        | error cause => exact ⟨by simp [Except.mapError], fun result h => nomatch h⟩
    | err e =>
        rw [Traced.bind_of_err hbody]
        exact ⟨rfl, fun result h => nomatch h⟩
    | panicked => exact absurd hbody (session.body_course outputDir).ne_panicked
  · rw [hrefused]
    exact Or.inl ⟨e, rfl⟩

/-- A pull makes calm calls, and between them those of its course. -/
theorem pullUpdate_cases (session : Session) (root : Path) (reference : TaggedReference) :
    (Calls.Calm root (session.pullUpdate root reference).trace ∧
        ∃ e, (session.pullUpdate root reference).result = .err e) ∨
      ∃ before after : Calls, before.Calm root ∧ after.Calm root ∧
        (session.pullUpdate root reference).trace =
          before ++ ((session.body (reference.outputDir root)).trace ++ after) ∧
        ∀ result, (session.pullUpdate root reference).result = .ok result →
          (session.body (reference.outputDir root)).result = .ok result := by
  have hdir : ∀ dir, Calm root (.createDirAll dir) := fun _ => trivial
  have hlock : Calm root (.write (lockPath root) session.owner) := rfl
  have hremove : Calm root (.removeFile (lockPath root)) := rfl
  unfold pullUpdate
  rcases request_cases (.createDirAll root) (.creatingDestinationRoot root) with
    hroot | ⟨e, hroot⟩
  · rw [hroot]
    rcases request_cases (.write (lockPath root) session.owner) (.acquiringLock (lockPath root))
      with hacquired | ⟨e, hacquired⟩
    · rw [hacquired]
      rcases pullLocked_cases with ⟨e, hdenied⟩ | ⟨htrace, hresult⟩
      · rw [hdenied]
        refine Or.inl ⟨?_, e, rfl⟩
        simp [Calls.Calm, Traced.ensuring, hdir, hlock, hremove]
      · refine Or.inr ⟨[(.createDirAll root, true), (.write (lockPath root) session.owner, true),
          (.createDirAll (reference.outputDir root), true)],
          [(.removeFile (lockPath root), (session.refused (.removeFile (lockPath root))).isNone)],
          ?_, ?_, ?_, hresult⟩
        · simp [Calls.Calm, hdir, hlock]
        · exact List.forall_mem_singleton.mpr hremove
        · simp [Traced.ensuring, htrace]
    · rw [hacquired]
      refine Or.inl ⟨?_, e, rfl⟩
      simp [Calls.Calm, hdir, hlock]
  · rw [hroot]
    exact Or.inl ⟨List.forall_mem_singleton.mpr (hdir root), e, rfl⟩

theorem pulled_of_ok (h : (session.pullUpdate root reference).result = .ok result) :
    ∃ remote manifest bindings content, session.Pulled remote manifest bindings content ∧
      (session.env.downloadBindings (reference.outputDir root) 0 bindings).result = .ok () ∧
      ∃ before after : Calls, before.Calm root ∧ after.Calm root ∧
        (session.pullUpdate root reference).trace = before ++
          ((session.env.downloadBindings (reference.outputDir root) 0 bindings).trace ++
            [(.write (manifestPath (reference.outputDir root)) content, true)] ++ after) := by
  rcases session.pullUpdate_cases root reference with
    ⟨-, e, herr⟩ | ⟨before, after, hbefore, hafter, htrace, hresult⟩
  · cases herr.symm.trans h
  · have hcourse := session.body_course (reference.outputDir root)
    rw [hresult result h] at hcourse
    rcases hcourse.of_ok with ⟨remote, manifest, bindings, content, hpulled, hdone, hcalls⟩
    rw [hcalls] at htrace
    exact ⟨remote, manifest, bindings, content, hpulled, hdone, before, after, hbefore, hafter,
      htrace⟩

/-- Nothing that the session is asked for fails. -/
structure Obliging (session : Session) : Prop where
  refused : ∀ effect, session.refused effect = none
  env_refused : ∀ i effect, session.env.refused i effect = none
  download : ∀ i blob, (session.env.download i blob).2 = .ok ()
  afterwards : session.afterwards = .ok ()

theorem Obliging.downloadBindings (h : session.Obliging) (i : Nat)
    (bindings : List ArtifactBinding) :
    (session.env.downloadBindings outputDir i bindings).result = .ok () := by
  have hrequest : ∀ i effect context, session.env.request i effect context =
      ⟨[(effect, true)], .ok ()⟩ := by
    intro i effect context
    rw [Environment.request, h.env_refused]
    rfl
  have hone : ∀ i binding, (session.env.downloadBinding outputDir i binding).result = .ok () := by
    intro i binding
    rw [Environment.downloadBinding_eq, hrequest, hrequest]
    unfold Environment.createParent Environment.downloadBlobToFile
    rw [h.download]
    cases (binding.target outputDir).parent with
    | none => rfl
    | some parent =>
        dsimp only
        rw [hrequest]
        rfl
  induction bindings generalizing i with
  | nil => rfl
  | cons binding bindings ih =>
      rw [Environment.downloadBindings_cons, Traced.bind_of_ok (hone i binding)]
      exact ih (i + 1)

theorem Obliging.returns (h : session.Obliging) (root : Path) (reference : TaggedReference)
    {content : List UInt8} (hpulled : session.Pulled remote manifest bindings content) :
    (session.pullUpdate root reference).result =
      .ok ⟨reference.outputDir root, manifestPath (reference.outputDir root)⟩ := by
  have hrequest : ∀ effect context, session.request effect context =
      ⟨[(effect, true)], .ok ()⟩ := by
    intro effect context
    rw [request, h.refused]
    rfl
  have hbody : (session.body (reference.outputDir root)).result =
      .ok ⟨reference.outputDir root, manifestPath (reference.outputDir root)⟩ := by
    unfold body
    rw [hpulled.fetch]
    dsimp only
    rw [hpulled.pullFetched_eq, Traced.bind_of_ok (h.downloadBindings 0 bindings)]
    unfold Environment.writeToFile Environment.request
    rw [hpulled.serialize, Except.mapError, Traced.call_ok_bind, h.env_refused]
    rfl
  unfold pullUpdate
  rw [hrequest, hrequest, pullLocked_eq, hrequest, Traced.bind_of_ok hbody, h.afterwards]
  rfl

end Session

end GhafGivc.Pull
