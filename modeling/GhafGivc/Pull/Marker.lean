import GhafGivc.Pull.Stored

/-! # What `manifest.json` marks

Pruning and installation take `manifest.json` for the sign of a complete download. The run
that wrote it is ghost state beside the tree.
-/

namespace GhafGivc.Pull

open Core

/-- Where the artifacts of a manifest are, and the bytes fetched for them. -/
abbrev Artifacts := List (Path × List UInt8)

/-- The artifacts a run puts in place, if it gets as far as selecting them. -/
def Session.artifacts (session : Session) (outputDir : Path) : Artifacts :=
  match session.fetch with
  | .fetched remote =>
      match Image.Manifest.fromSlice session.env.deserialize remote.configJson.toUTF8.toList with
      | .ok parsed =>
          match Manifest.normalizePaths parsed with
          | .ok manifest =>
              match selectArtifactBindings manifest remote.layers with
              | .ok bindings => ((session.env.puts outputDir 0 bindings).take 3).map fun put =>
                  (put.target, put.content)
              | .error _ => []
          | .error _ => []
      | _ => []
  | _ => []

/-- The tree, and the artifacts of the run that wrote the `manifest.json` in it. -/
structure Store where
  tree : FileTree
  writer : Option Artifacts

namespace Store

/-- Who has written the manifest after a call of the run `artifacts`. A refused call counts
when it has changed the file. -/
def writerAfter (outputDir : Path) (artifacts : Artifacts) (tree tree' : FileTree)
    (writer : Option Artifacts) : FileEffect × Bool → Option Artifacts
  | (.write file _, done) =>
      if file = manifestPath outputDir ∧ (done = true ∨ tree' file ≠ tree file) then
        some artifacts
      else writer
  | (.rename _ target, done) =>
      if target = manifestPath outputDir ∧ (done = true ∨ tree' target ≠ tree target) then none
      else writer
  | _ => writer

def Step (outputDir : Path) (artifacts : Artifacts) (store : Store) (call : FileEffect × Bool)
    (store' : Store) : Prop :=
  FileTree.Step store.tree call store'.tree ∧
    store'.writer = writerAfter outputDir artifacts store.tree store'.tree store.writer call

def Steps (outputDir : Path) (artifacts : Artifacts) : Store → Calls → Store → Prop
  | store, [], store' => store' = store
  | store, call :: calls, store' =>
      ∃ mid, Step outputDir artifacts store call mid ∧ Steps outputDir artifacts mid calls store'

def Run (root : Path) (reference : TaggedReference) (store : Store) (session : Session)
    (store' : Store) : Prop :=
  Steps (reference.outputDir root) (session.artifacts (reference.outputDir root)) store
    (session.pullUpdate root reference).trace store'

/-- Runs into one output directory, one after the other. -/
def Runs (root : Path) (reference : TaggedReference) : Store → List Session → Store → Prop
  | store, [], store' => store' = store
  | store, session :: sessions, store' =>
      ∃ mid, Run root reference store session mid ∧ Runs root reference mid sessions store'

/-- If there is a `manifest.json`, the artifacts fetched by the run that wrote it are in the
directory. -/
def Marked (outputDir : Path) (store : Store) : Prop :=
  ∀ content, store.tree (manifestPath outputDir) = some (.file content) →
    ∃ artifacts, store.writer = some artifacts ∧
      ∀ artifact ∈ artifacts, outputDir <+: artifact.1 ∧
        store.tree artifact.1 = some (.file artifact.2)

end Store

/-- The run has changed no file of its directory, or removed all of them, or written the
manifest, and the names and bytes of what it puts in place are such that its artifacts
remain. -/
def Session.Clean (session : Session) (root : Path) (reference : TaggedReference) : Prop :=
  Calls.Quiet root (session.pullUpdate root reference).trace ∨
  (.removeDirAll (reference.outputDir root), true) ∈ (session.pullUpdate root reference).trace ∨
  ∃ remote manifest bindings content, session.Pulled remote manifest bindings content ∧
    (.write (manifestPath (reference.outputDir root)) content, true) ∈
      (session.pullUpdate root reference).trace ∧
    session.env.ArtifactsRemain bindings content

/-! ## Steps -/

namespace Store

variable {outputDir : Path} {artifacts : Artifacts} {store mid store' : Store} {calls later : Calls}

theorem steps_append : Steps outputDir artifacts store (calls ++ later) store' ↔
    ∃ mid, Steps outputDir artifacts store calls mid ∧
      Steps outputDir artifacts mid later store' := by
  induction calls generalizing store with
  | nil => simp [Steps]
  | cons call calls ih =>
      constructor
      · intro h
        rcases h with ⟨next, hstep, hrest⟩
        rcases ih.mp hrest with ⟨mid, hfirst, hlater⟩
        exact ⟨mid, ⟨next, hstep, hfirst⟩, hlater⟩
      · intro h
        rcases h with ⟨mid, ⟨next, hstep, hfirst⟩, hlater⟩
        exact ⟨next, hstep, ih.mpr ⟨mid, hfirst, hlater⟩⟩

theorem Steps.tree (h : Steps outputDir artifacts store calls store') :
    FileTree.Steps store.tree calls store'.tree := by
  induction calls generalizing store with
  | nil =>
      cases h
      rfl
  | cons call calls ih =>
      rcases h with ⟨mid, hstep, hrest⟩
      exact ⟨mid.tree, hstep.1, ih hrest⟩

theorem Steps.writer_of_quiet {root : Path} {reference : TaggedReference}
    (h : Steps (reference.outputDir root) artifacts store calls store')
    (hquiet : calls.Quiet root) : store'.writer = store.writer := by
  induction calls generalizing store with
  | nil =>
      cases h
      rfl
  | cons call calls ih =>
      rw [Calls.Quiet, List.forall_mem_cons] at hquiet
      rcases h with ⟨mid, hstep, hrest⟩
      rw [ih hrest hquiet.2, hstep.2]
      rcases hquiet.1 with hcalm | ⟨file, rfl⟩
      · rcases call with ⟨effect, done⟩
        cases effect with
        | write file content =>
            have hne : file ≠ manifestPath (reference.outputDir root) := by
              intro heq
              rw [heq] at hcalm
              exact not_calm_manifest content hcalm
            simp [writerAfter, hne]
        | rename source target => exact hcalm.elim
        | createDirAll dir => rfl
        | create file => rfl
        | removeFile file => rfl
        | removeDirAll dir => rfl
      · rfl

theorem Marked.of_after_nil (h : Marked outputDir store)
    (hafter : Put.After outputDir store.tree [] store'.tree)
    (hwriter : store'.writer = store.writer) : Marked outputDir store' := by
  intro content hcontent
  have hold := (hafter _ content (isPrefix_manifestPath outputDir)).mp hcontent
  rcases h content hold with ⟨artifacts, hartifacts, hall⟩
  refine ⟨artifacts, hwriter.trans hartifacts, fun artifact hin => ?_⟩
  rcases hall artifact hin with ⟨hbelow, hfile⟩
  exact ⟨hbelow, (hafter _ _ hbelow).mpr hfile⟩

end Store

section Calls

variable {env : Environment} {session : Session} {root outputDir : Path}
  {reference : TaggedReference} {i : Nat} {calls : Calls} {done : Bool}
  {bindings : List ArtifactBinding} {content : List UInt8} {result : Outcome PullError Unit}

theorem append_part_ne_manifest (name : String) : name ++ ".part" ≠ "manifest.json" := by
  intro heq
  have hend := congrArg (fun name : String => name.toList.getLast?) heq
  simp at hend

theorem part_ne_manifestPath {binding : ArtifactBinding} (h : Joined binding.localName)
    (outputDir : Path) : binding.part outputDir ≠ manifestPath outputDir := by
  intro heq
  have hsame : binding.localName ++ ".part" = "manifest.json" :=
    (join_inj_of_joined outputDir (joined_part h).1 joined_manifest).mp
      (((joined_part h).2 outputDir).symm.trans heq)
  exact append_part_ne_manifest _ hsame

theorem downloadBindings_calls (h : ∀ binding ∈ bindings, Joined binding.localName)
    (hok : (env.downloadBindings outputDir i bindings).result = .ok ()) :
    ∀ call ∈ (env.downloadBindings outputDir i bindings).trace,
      (∀ dir, call.1 ≠ .removeDirAll dir) ∧
        ∀ content, call.1 ≠ .write (manifestPath outputDir) content := by
  induction bindings generalizing i with
  | nil => exact fun _ hin => absurd hin List.not_mem_nil
  | cons binding bindings ih =>
      rw [List.forall_mem_cons] at h
      rw [Environment.downloadBindings_cons] at hok ⊢
      rw [Traced.result_bind] at hok
      rcases Outcome.bind_eq_ok.mp hok with ⟨_, hfirst, hrest⟩
      have hcourse := Environment.downloadBinding_course env outputDir i binding
      rw [hfirst] at hcourse
      rcases hcourse.of_ok with ⟨up, hup, htrace⟩
      rw [Traced.bind_of_ok hfirst, htrace]
      have hpart := part_ne_manifestPath h.1 outputDir
      intro call hcall
      rcases List.mem_append.mp hcall with hhere | hlater
      · rcases List.mem_append.mp hhere with hdir | hthree
        · rcases hup call hdir with ⟨dir, heq⟩
          simp [heq]
        · simp only [List.mem_cons, List.not_mem_nil, or_false] at hthree
          rcases hthree with rfl | rfl | rfl
          · simp
          · simp [hpart]
          · simp
      · exact ih h.2 hrest call hlater

/-- A directory is removed by the last call of a download only. -/
theorem DownloadCourse.removed_last {part target : Path}
    (h : DownloadCourse outputDir part target content calls result)
    (hin : (.removeDirAll outputDir, done) ∈ calls) :
    ∃ front, calls = front ++ [(.removeDirAll outputDir, done)] := by
  have hdirs (up : Calls) (hup : up.Dirs) : (FileEffect.removeDirAll outputDir, done) ∉ up :=
    hup.notMem (by simp)
  cases h with
  | noParent up e hup => exact absurd hin (hdirs _ hup)
  | noPart up e hup => simp [hdirs up hup] at hin
  | discarded up last e hup =>
      have hsame : done = last := by simpa [hdirs up hup] using hin
      subst hsame
      exact ⟨up ++ [(.create part, true), (.write part content, true)], by simp⟩
  | notRenamed up e hup => simp [hdirs up hup] at hin
  | complete up hup => simp [hdirs up hup] at hin

theorem DownloadCourse.not_written {part target file : Path} {content found : List UInt8}
    (h : DownloadCourse outputDir part target content calls result) (hne : part ≠ file) :
    (.write file found, done) ∉ calls := by
  have hdirs (up : Calls) (hup : up.Dirs) : (FileEffect.write file found, done) ∉ up :=
    hup.notMem (by simp)
  cases h with
  | noParent up e hup => exact hdirs _ hup
  | noPart up e hup => simp [hdirs up hup]
  | discarded up last e hup => simp [hdirs up hup, hne.symm]
  | notRenamed up e hup => simp [hdirs up hup, hne.symm]
  | complete up hup => simp [hdirs up hup, hne.symm]

theorem Session.Course.removed_last {result : Outcome PullError PullResult}
    (h : session.Course outputDir calls result) (hin : (.removeDirAll outputDir, done) ∈ calls) :
    ∃ front, calls = front ++ [(.removeDirAll outputDir, done)] := by
  cases h with
  | unselected e => exact absurd hin List.not_mem_nil
  | unfetched last e =>
      rw [List.mem_singleton] at hin
      exact ⟨[], by rw [hin]; rfl⟩
  | stopped hselected hdone hstop =>
      have hjoined := hselected.joined
      rw [List.forall_mem_append] at hjoined
      rcases List.mem_append.mp hin with hdownloads | hlast
      · exact absurd rfl ((downloadBindings_calls hjoined.1 hdone _ hdownloads).1 outputDir)
      · rcases (Environment.downloadBinding_course _ _ _ _).removed_last hlast with ⟨front, heq⟩
        exact ⟨_ ++ front, by rw [heq, List.append_assoc]⟩
  | unwritten last e hselected hdone hlast =>
      rcases List.mem_append.mp hin with hdownloads | hend
      · exact absurd rfl ((downloadBindings_calls hselected.joined hdone _ hdownloads).1 outputDir)
      · rcases hlast with rfl | ⟨content, rfl⟩
        · exact absurd hend List.not_mem_nil
        · simp at hend
  | written hpulled hdone =>
      rcases List.mem_append.mp hin with hdownloads | hend
      · exact absurd rfl ((downloadBindings_calls hpulled.joined hdone _ hdownloads).1 outputDir)
      · simp at hend

/-- The manifest is written by the last call of a complete run only. -/
theorem Session.Course.of_written {result : Outcome PullError PullResult}
    (h : session.Course outputDir calls result)
    (hin : (.write (manifestPath outputDir) content, true) ∈ calls) :
    ∃ remote manifest bindings, session.Pulled remote manifest bindings content ∧
      (session.env.downloadBindings outputDir 0 bindings).result = .ok () ∧
      calls = (session.env.downloadBindings outputDir 0 bindings).trace ++
        [(.write (manifestPath outputDir) content, true)] := by
  cases h with
  | unselected e => exact absurd hin List.not_mem_nil
  | unfetched last e => simp at hin
  | stopped hselected hdone hstop =>
      have hjoined := hselected.joined
      rw [List.forall_mem_append, List.forall_mem_cons] at hjoined
      rcases List.mem_append.mp hin with hdownloads | hlast
      · exact absurd rfl ((downloadBindings_calls hjoined.1 hdone _ hdownloads).2 content)
      · exact absurd hlast ((Environment.downloadBinding_course _ _ _ _).not_written
          (part_ne_manifestPath hjoined.2.1 outputDir))
  | unwritten last e hselected hdone hlast =>
      rcases List.mem_append.mp hin with hdownloads | hend
      · exact absurd rfl ((downloadBindings_calls hselected.joined hdone _ hdownloads).2 content)
      · rcases hlast with rfl | ⟨content, rfl⟩
        · exact absurd hend List.not_mem_nil
        · simp at hend
  | written hpulled hdone =>
      rcases List.mem_append.mp hin with hdownloads | hend
      · exact absurd rfl ((downloadBindings_calls hpulled.joined hdone _ hdownloads).2 content)
      · cases List.mem_singleton.mp hend
        exact ⟨_, _, _, hpulled, hdone, rfl⟩

theorem Session.Selected.unique {remote remote' : RemoteImage}
    {manifest manifest' : Image.Manifest} {bindings bindings' : List ArtifactBinding}
    (h : session.Selected remote manifest bindings)
    (h' : session.Selected remote' manifest' bindings') : bindings = bindings' := by
  cases h.fetch.symm.trans h'.fetch
  rcases h.parse with ⟨parsed, hparsed, hnormal⟩
  rcases h'.parse with ⟨parsed', hparsed', hnormal'⟩
  cases hparsed.symm.trans hparsed'
  cases hnormal.symm.trans hnormal'
  cases h.select.symm.trans h'.select
  rfl

theorem Session.Selected.artifacts_eq {remote : RemoteImage} {manifest : Image.Manifest}
    (h : session.Selected remote manifest bindings) (outputDir : Path) (content : List UInt8) :
    session.artifacts outputDir =
      ((session.env.allPuts outputDir bindings content).take 3).map fun put =>
        (put.target, put.content) := by
  rcases h.parse with ⟨parsed, hparsed, hnormal⟩
  rcases h.artifacts with ⟨uki, root, verity, log, hbindings, -⟩
  unfold Session.artifacts
  rw [h.fetch]
  dsimp only
  rw [hparsed]
  dsimp only
  rw [hnormal]
  dsimp only
  rw [h.select, hbindings]
  rfl

end Calls

/-! ## Clean runs -/

namespace Store

variable {session : Session} {root : Path} {reference : TaggedReference} {store store' : Store}
  {artifacts : Artifacts}

theorem marked_of_quiet {calls : Calls} (h : Marked (reference.outputDir root) store)
    (hquiet : calls.Quiet root)
    (hsteps : Steps (reference.outputDir root) artifacts store calls store') :
    Marked (reference.outputDir root) store' :=
  h.of_after_nil (hquiet.after hsteps.tree) (hsteps.writer_of_quiet hquiet)

theorem marked_of_removed {before after : Calls} (hafter : after.Calm root)
    (hsteps : Steps (reference.outputDir root) artifacts store
      (before ++ (.removeDirAll (reference.outputDir root), true) :: after) store') :
    Marked (reference.outputDir root) store' := by
  rcases steps_append.mp hsteps with ⟨mid, -, next, hremove, hrest⟩
  have hgone : Marked (reference.outputDir root) next := by
    intro content hcontent
    have htree : next.tree = (FileEffect.removeDirAll (reference.outputDir root)).apply mid.tree :=
      hremove.1
    have hnone : next.tree (manifestPath (reference.outputDir root)) = none := by
      rw [htree]
      exact if_pos (isPrefix_manifestPath _)
    cases hnone.symm.trans hcontent
  exact marked_of_quiet hgone hafter.quiet hrest

section Written

variable {remote : RemoteImage} {manifest : Image.Manifest} {bindings : List ArtifactBinding}
  {content : List UInt8} {before after : Calls}

def written (session : Session) (outputDir : Path) (bindings : List ArtifactBinding)
    (content : List UInt8) (before after : Calls) : Calls :=
  before ++ ((session.env.downloadBindings outputDir 0 bindings).trace ++
    [(.write (manifestPath outputDir) content, true)] ++ after)

theorem writer_of_written (hafter : after.Calm root)
    (hsteps : Steps (reference.outputDir root) (session.artifacts (reference.outputDir root)) store
      (written session (reference.outputDir root) bindings content before after) store') :
    store'.writer = some (session.artifacts (reference.outputDir root)) := by
  rcases steps_append.mp hsteps with ⟨_, -, hsteps⟩
  rcases steps_append.mp hsteps with ⟨_, hsteps, hlast⟩
  rcases steps_append.mp hsteps with ⟨mid, -, next, hwrite, rfl⟩
  rw [hlast.writer_of_quiet hafter.quiet, hwrite.2]
  simp [writerAfter]

theorem manifest_of_after {tree tree' : FileTree}
    (h : Put.After (reference.outputDir root) tree
      (session.env.allPuts (reference.outputDir root) bindings content) tree') :
    tree' (manifestPath (reference.outputDir root)) = some (.file content) :=
  (h.file_iff_settled ⟨none, manifestPath _, content⟩
    (List.mem_append_right _ List.mem_cons_self) (isPrefix_manifestPath _)).mpr
    (Put.settled_of_untouched _ _ fun _ hin => absurd hin List.not_mem_nil)

/-- After the manifest is written, it marks the artifacts that are at their places. -/
theorem marked_iff_of_written (hpulled : session.Pulled remote manifest bindings content)
    (hdone : (session.env.downloadBindings (reference.outputDir root) 0 bindings).result = .ok ())
    (hbefore : before.Calm root) (hafter : after.Calm root)
    (hsteps : Steps (reference.outputDir root) (session.artifacts (reference.outputDir root)) store
      (written session (reference.outputDir root) bindings content before after) store') :
    Marked (reference.outputDir root) store' ↔
      session.env.Settled (reference.outputDir root) bindings content := by
  have hplaced := after_written hpulled hdone hbefore hafter hsteps.tree
  have hwriter := writer_of_written hafter hsteps
  have hartifacts := hpulled.artifacts_eq (reference.outputDir root) content
  constructor
  · intro hmarked put hput
    rcases hmarked content (manifest_of_after hplaced) with ⟨artifacts, hwrote, hall⟩
    cases hwriter.symm.trans hwrote
    rw [hartifacts] at hall
    rcases hall _ (List.mem_map_of_mem hput) with ⟨hbelow, hat⟩
    exact (hplaced.file_iff_settled put (List.mem_of_mem_take hput) hbelow).mp hat
  · intro hsettled found _
    refine ⟨_, hwriter, fun artifact hin => ?_⟩
    rw [hartifacts] at hin
    rcases List.mem_map.mp hin with ⟨put, hput, rfl⟩
    have hmem := List.mem_of_mem_take hput
    have hbelow := Environment.isPrefix_target_of_mem hpulled.joined hmem
    exact ⟨hbelow, (hplaced.file_iff_settled put hmem hbelow).mpr (hsettled put hput)⟩

end Written

theorem Marked.of_clean (hclean : session.Clean root reference)
    (h : Marked (reference.outputDir root) store) (hrun : Run root reference store session store') :
    Marked (reference.outputDir root) store' := by
  rcases session.pullUpdate_cases root reference with
    ⟨hcalm, -⟩ | ⟨before, after, hbefore, hafter, htrace, -⟩
  · exact marked_of_quiet h hcalm.quiet hrun
  have hcourse := session.body_course (reference.outputDir root)
  rcases hclean with
    hquiet | hremoved | ⟨remote, manifest, bindings, content, hpulled, hin, hremain⟩
  · exact marked_of_quiet h hquiet hrun
  · unfold Run at hrun
    rw [htrace] at hrun hremoved
    rcases hcourse.removed_last (mem_of_mem_between hbefore hafter not_false hremoved) with
      ⟨front, hfront⟩
    rw [hfront, List.append_assoc, ← List.append_assoc] at hrun
    exact marked_of_removed hafter hrun
  · unfold Run at hrun
    rw [htrace] at hrun hin
    rcases hcourse.of_written
      (mem_of_mem_between hbefore hafter (not_calm_manifest content) hin) with
      ⟨remote', manifest', bindings', hpulled', hdone, hcalls⟩
    cases hpulled.toSelected.unique hpulled'.toSelected
    rw [hcalls] at hrun
    exact (marked_iff_of_written hpulled' hdone hbefore hafter hrun).mpr
      ((hpulled.toSelected.artifactsRemain_iff _).mp hremain)

theorem Marked.of_clean_runs {sessions : List Session}
    (hclean : ∀ session ∈ sessions, session.Clean root reference)
    (h : Marked (reference.outputDir root) store)
    (hruns : Runs root reference store sessions store') :
    Marked (reference.outputDir root) store' := by
  induction sessions generalizing store with
  | nil =>
      cases hruns
      exact h
  | cons session sessions ih =>
      rw [List.forall_mem_cons] at hclean
      rcases hruns with ⟨mid, hrun, hrest⟩
      exact ih hclean.2 (h.of_clean hclean.1 hrun) hrest

end Store

end GhafGivc.Pull
