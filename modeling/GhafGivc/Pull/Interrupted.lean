import GhafGivc.Pull.Marker

/-! # Interrupted pulls

A run that is not clean can end with the manifest of an earlier run beside artifacts of its
own. The file that is lost is one where its first temporary file is created.
-/

namespace GhafGivc.Pull

open Core

namespace Store

/-- A tree after the call. A refused removal has removed `q`, and other refused calls have
done nothing. -/
def spoilTree (q : Path) (tree : FileTree) : FileEffect × Bool → FileTree
  | (effect, true) => effect.apply tree
  | (.removeDirAll dir, false) =>
      fun p => if p = q then (FileEffect.removeDirAll dir).apply tree p else tree p
  | (_, false) => tree

def spoil (outputDir : Path) (artifacts : Artifacts) (q : Path) (store : Store)
    (call : FileEffect × Bool) : Store where
  tree := spoilTree q store.tree call
  writer := writerAfter outputDir artifacts store.tree (spoilTree q store.tree call) store.writer
    call

/-- The call takes no file but that at `q`, and does not bring `content` back to it. -/
def Mild (outputDir q : Path) (content : List UInt8) : FileEffect × Bool → Prop
  | (.createDirAll _, _) => True
  | (.create file, _) => file ≠ manifestPath outputDir
  | (.write file found, done) =>
      (done = true → file ≠ manifestPath outputDir) ∧ (file = q → found ≠ content)
  | (.rename _ _, done) => done = false
  | (.removeFile file, _) => file ≠ manifestPath outputDir
  | (.removeDirAll _, done) => done = false

section Spoil

variable {outputDir q : Path} {artifacts : Artifacts} {content : List UInt8} {calls : Calls}
  {call : FileEffect × Bool} {tree : FileTree} {store : Store} {marks : Artifacts}

theorem step_spoilTree : FileTree.Step tree call (spoilTree q tree call) := by
  rcases call with ⟨effect, done⟩
  cases done with
  | true => rfl
  | false =>
      intro p
      cases effect with
      | createDirAll dir => exact Or.inl rfl
      | create file => exact Or.inl rfl
      | write file content => exact Or.inl rfl
      | rename source target => exact Or.inl rfl
      | removeFile file => exact Or.inl rfl
      | removeDirAll dir =>
          by_cases hp : p = q
          · exact Or.inr (if_pos hp)
          · exact Or.inl (if_neg hp)

theorem steps_spoil :
    Steps outputDir artifacts store calls (calls.foldl (spoil outputDir artifacts q) store) := by
  induction calls generalizing store with
  | nil => rfl
  | cons call calls ih => exact ⟨_, ⟨step_spoilTree, rfl⟩, ih⟩

/-- A run in which refused calls have gone wrong that way. -/
def spoilRun (root : Path) (reference : TaggedReference) (q : Path) (store : Store)
    (session : Session) : Store :=
  (session.pullUpdate root reference).trace.foldl
    (spoil (reference.outputDir root) (session.artifacts (reference.outputDir root)) q) store

theorem run_spoilRun {session : Session} {root : Path} {reference : TaggedReference} :
    Run root reference store session (spoilRun root reference q store session) :=
  steps_spoil

theorem manifest_spoilTree (hq : q ≠ manifestPath outputDir) (hmild : Mild outputDir q content call)
    (h : ∃ found, tree (manifestPath outputDir) = some (.file found)) :
    ∃ found, spoilTree q tree call (manifestPath outputDir) = some (.file found) := by
  rcases h with ⟨found, hfound⟩
  refine ⟨found, ?_⟩
  rcases call with ⟨effect, done⟩
  cases effect with
  | createDirAll dir => exact step_spoilTree.keeps not_false hfound
  | create file => exact step_spoilTree.keeps (Ne.symm hmild) hfound
  | removeFile file => exact step_spoilTree.keeps (Ne.symm hmild) hfound
  | write file written =>
      cases done with
      | true => exact step_spoilTree.keeps (hmild.1 rfl).symm hfound
      | false => exact hfound
  | rename source target =>
      cases done with
      | true => cases hmild
      | false => exact hfound
  | removeDirAll dir =>
      cases done with
      | true => cases hmild
      | false => exact (if_neg (Ne.symm hq)).trans hfound

theorem lost_spoilTree (hcontent : content ≠ []) (hmild : Mild outputDir q content call)
    (h : tree q ≠ some (.file content)) : spoilTree q tree call q ≠ some (.file content) := by
  intro hfound
  rcases step_spoilTree.makes hfound with hold | hmade
  · exact h hold
  rcases call with ⟨effect, done⟩
  cases effect with
  | createDirAll dir => cases hmade.2
  | create file =>
      cases hmade
      cases done with
      | true =>
          have hempty : spoilTree q tree (.create q, true) q = some (.file []) :=
            Function.update_self _ _ _
          cases hempty.symm.trans hfound
          exact hcontent rfl
      | false => exact h hfound
  | write file written =>
      cases hmade
      cases done with
      | true =>
          have hwritten : spoilTree q tree (.write q written, true) q = some (.file written) :=
            Function.update_self _ _ _
          cases hwritten.symm.trans hfound
          exact hmild.2 rfl rfl
      | false => exact h hfound
  | rename source target =>
      cases done with
      | true => cases hmild
      | false => exact h hfound
  | removeFile file => exact hmade.elim
  | removeDirAll dir => exact hmade.elim

theorem writer_spoil (hcall : ∀ found, call ≠ (.write (manifestPath outputDir) found, true))
    (h : store.writer = none ∨ store.writer = some marks) :
    (spoil outputDir artifacts q store call).writer = none ∨
      (spoil outputDir artifacts q store call).writer = some marks := by
  rcases call with ⟨effect, done⟩
  cases effect with
  | write file written =>
      unfold spoil writerAfter
      dsimp only
      rw [if_neg]
      · exact h
      · intro hwrite
        rcases hwrite with ⟨rfl, hdone | hchanged⟩
        · exact hcall written (by rw [hdone])
        · cases done with
          | true => exact hcall written rfl
          | false => exact hchanged rfl
  | rename source target =>
      unfold spoil writerAfter
      dsimp only
      split
      · exact Or.inl rfl
      · exact h
  | createDirAll dir => exact h
  | create file => exact h
  | removeFile file => exact h
  | removeDirAll dir => exact h

/-- The manifest is there and `content` is not at `q`. -/
structure Broken (outputDir q : Path) (content : List UInt8) (tree : FileTree) : Prop where
  manifest : ∃ found, tree (manifestPath outputDir) = some (.file found)
  lost : tree q ≠ some (.file content)

theorem Broken.not_marked (h : Broken outputDir q content store.tree)
    (hmarks : (q, content) ∈ marks) (hwriter : store.writer = none ∨ store.writer = some marks) :
    ¬ Marked outputDir store := by
  intro hmarked
  rcases h.manifest with ⟨found, hfound⟩
  rcases hmarked found hfound with ⟨artifacts, hartifacts, hall⟩
  rcases hwriter with hnone | hsome
  · cases hnone.symm.trans hartifacts
  · cases hsome.symm.trans hartifacts
    exact h.lost (hall (q, content) hmarks).2

/-- The call empties or removes `q`. -/
def Hits (q : Path) (call : FileEffect × Bool) : Prop :=
  call = (.create q, true) ∨ ∃ dir, dir <+: q ∧ call = (.removeDirAll dir, false)

theorem lost_of_hits (hcontent : content ≠ []) (h : Hits q call) :
    spoilTree q tree call q ≠ some (.file content) := by
  rcases h with rfl | ⟨dir, hdir, rfl⟩
  · have hempty : spoilTree q tree (.create q, true) q = some (.file []) :=
      Function.update_self _ _ _
    rw [hempty]
    simpa using hcontent.symm
  · have hnone : spoilTree q tree (.removeDirAll dir, false) q = none :=
      (if_pos rfl).trans (if_pos hdir)
    rw [hnone]
    simp

theorem writer_foldl (hcalls : ∀ found, (.write (manifestPath outputDir) found, true) ∉ calls)
    (h : store.writer = none ∨ store.writer = some marks) :
    (calls.foldl (spoil outputDir artifacts q) store).writer = none ∨
      (calls.foldl (spoil outputDir artifacts q) store).writer = some marks := by
  induction calls generalizing store with
  | nil => exact h
  | cons call calls ih =>
      refine ih (fun found hin => hcalls found (List.mem_cons_of_mem call hin)) ?_
      refine writer_spoil (fun found heq => hcalls found ?_) h
      rw [heq]
      exact List.mem_cons_self

theorem broken_foldl (hcontent : content ≠ []) (hq : q ≠ manifestPath outputDir)
    (hmild : ∀ call ∈ calls, Mild outputDir q content call)
    (h : Broken outputDir q content store.tree) :
    Broken outputDir q content (calls.foldl (spoil outputDir artifacts q) store).tree := by
  induction calls generalizing store with
  | nil => exact h
  | cons call calls ih =>
      rw [List.forall_mem_cons] at hmild
      exact ih hmild.2
        ⟨manifest_spoilTree hq hmild.1 h.manifest, lost_spoilTree hcontent hmild.1 h.lost⟩

theorem manifest_foldl (content : List UInt8) (hq : q ≠ manifestPath outputDir)
    (hmild : ∀ call ∈ calls, Mild outputDir q content call)
    (h : ∃ found, store.tree (manifestPath outputDir) = some (.file found)) :
    ∃ found, (calls.foldl (spoil outputDir artifacts q) store).tree (manifestPath outputDir) =
      some (.file found) := by
  induction calls generalizing store with
  | nil => exact h
  | cons call calls ih =>
      rw [List.forall_mem_cons] at hmild
      exact ih hmild.2 (manifest_spoilTree hq hmild.1 h)

theorem broken_of_hits (hcontent : content ≠ []) (hq : q ≠ manifestPath outputDir)
    (hmild : ∀ call ∈ calls, Mild outputDir q content call) (hhits : ∃ call ∈ calls, Hits q call)
    (h : ∃ found, store.tree (manifestPath outputDir) = some (.file found)) :
    Broken outputDir q content (calls.foldl (spoil outputDir artifacts q) store).tree := by
  rcases hhits with ⟨call, hin, hcall⟩
  rcases List.mem_iff_append.mp hin with ⟨before, after, rfl⟩
  rw [List.forall_mem_append, List.forall_mem_cons] at hmild
  rw [List.foldl_append, List.foldl_cons]
  refine broken_foldl hcontent hq hmild.2.2 ⟨?_, lost_of_hits hcontent hcall⟩
  exact manifest_spoilTree hq hmild.2.1 (manifest_foldl content hq hmild.1 h)

end Spoil

end Store

section Ends

open Store

variable {session : Session} {env : Environment} {root outputDir q : Path}
  {reference : TaggedReference} {content : List UInt8} {calls : Calls} {tree tree' : FileTree}
  {i : Nat} {bytes : List UInt8} {bindings : List ArtifactBinding} {binding : ArtifactBinding}
  {part target : Path} {name : String}

theorem Calls.Dirs.mild (h : calls.Dirs) : ∀ call ∈ calls, Mild outputDir q content call := by
  intro call hin
  rcases h call hin with ⟨dir, hdir⟩
  rcases call with ⟨effect, done⟩
  cases hdir
  trivial

theorem Calls.Calm.mild (h : calls.Calm root) (hq : reference.outputDir root <+: q) :
    ∀ call ∈ calls, Mild (reference.outputDir root) q content call := by
  have hlock : lockPath root ≠ manifestPath (reference.outputDir root) := by
    intro heq
    exact not_calm_manifest [] heq.symm
  intro call hin
  have hcall := h call hin
  rcases call with ⟨effect, done⟩
  cases effect with
  | createDirAll dir => trivial
  | write file found =>
      cases hcall
      exact ⟨fun _ => hlock, fun heq => absurd (heq ▸ hq) lockPath_not_below⟩
  | removeFile file =>
      cases hcall
      exact hlock
  | create file => exact hcall.elim
  | rename source target => exact hcall.elim
  | removeDirAll dir => exact hcall.elim

theorem DownloadCourse.mild {e : PullError}
    (h : DownloadCourse outputDir part target bytes calls (.err e))
    (hremoved : (.removeDirAll outputDir, true) ∉ calls) (hpart : part ≠ manifestPath outputDir)
    (hbytes : bytes ≠ content) : ∀ call ∈ calls, Mild outputDir q content call := by
  have hwrite : Mild outputDir q content (.write part bytes, true) :=
    ⟨fun _ => hpart, fun _ => hbytes⟩
  cases h with
  | noParent up e hup => exact hup.mild
  | noPart up e hup =>
      exact List.forall_mem_append.mpr ⟨hup.mild, List.forall_mem_singleton.mpr hpart⟩
  | discarded up done e hup =>
      have hdone : done = false := by
        cases done with
        | true => simp at hremoved
        | false => rfl
      rw [List.forall_mem_append]
      simp only [List.forall_mem_cons]
      exact ⟨hup.mild, hpart, hwrite, hdone, fun _ hin => absurd hin List.not_mem_nil⟩
  | notRenamed up e hup =>
      rw [List.forall_mem_append]
      simp only [List.forall_mem_cons]
      exact ⟨hup.mild, hpart, hwrite, rfl, fun _ hin => absurd hin List.not_mem_nil⟩

theorem DownloadCourse.quiet_or_hits {result : Outcome PullError Unit} (root : Path)
    (h : DownloadCourse outputDir part target bytes calls result) :
    calls.Quiet root ∨ ∃ call ∈ calls, Hits part call := by
  cases h with
  | noParent up e hup => exact Or.inl hup.calm.quiet
  | noPart up e hup =>
      refine Or.inl (List.forall_mem_append.mpr ⟨hup.calm.quiet, ?_⟩)
      exact List.forall_mem_singleton.mpr (Or.inr ⟨part, rfl⟩)
  | discarded up done e hup => exact Or.inr ⟨(.create part, true), by simp, Or.inl rfl⟩
  | notRenamed up e hup => exact Or.inr ⟨(.create part, true), by simp, Or.inl rfl⟩
  | complete up hup => exact Or.inr ⟨(.create part, true), by simp, Or.inl rfl⟩

theorem temp_ne_manifestPath (h : ∀ binding ∈ bindings, Joined binding.localName) :
    ∀ put ∈ env.puts outputDir i bindings, put.temp ≠ some (manifestPath outputDir) := by
  induction bindings generalizing i with
  | nil => exact fun _ hin => absurd hin List.not_mem_nil
  | cons binding bindings ih =>
      rw [List.forall_mem_cons] at h
      refine List.forall_mem_cons.mpr ⟨?_, ih h.2⟩
      intro heq
      exact part_ne_manifestPath h.1 outputDir (Option.some.inj heq)

/-- The first download takes what stood at the place of its temporary file. -/
theorem broken_of_downloads (h : ∀ other ∈ binding :: bindings, Joined other.localName)
    (hok : (env.downloadBindings outputDir i (binding :: bindings)).result = .ok ())
    (hcontent : ∀ put ∈ env.puts outputDir i (binding :: bindings), put.content ≠ content)
    (hsteps : FileTree.Steps tree (env.downloadBindings outputDir i (binding :: bindings)).trace
      tree') (hmanifest : ∃ found, tree (manifestPath outputDir) = some (.file found)) :
    Broken outputDir (binding.part outputDir) content tree' := by
  have hafter := after_downloadBindings h hok hsteps
  have hbelow : outputDir <+: binding.part outputDir :=
    ((h binding List.mem_cons_self).localName outputDir |>.withAddedExtension (by decide)
      (by decide)).isPrefix
  constructor
  · cases hlast : Put.lastTouch (env.puts outputDir i (binding :: bindings))
      (manifestPath outputDir) with
    | none =>
        rcases hmanifest with ⟨found, hfound⟩
        refine ⟨found, (hafter _ found (isPrefix_manifestPath _)).mpr ?_⟩
        rw [hlast]
        exact hfound
    | some put =>
        rcases Put.lastTouch_eq_some hlast with ⟨hin, htarget | htemp⟩
        · refine ⟨put.content, (hafter _ put.content (isPrefix_manifestPath _)).mpr ?_⟩
          rw [hlast]
          exact ⟨htarget, rfl⟩
        · exact absurd htemp (temp_ne_manifestPath h put hin)
  · intro hfound
    have hat := (hafter _ content hbelow).mp hfound
    cases hlast : Put.lastTouch (env.puts outputDir i (binding :: bindings))
      (binding.part outputDir) with
    | none => exact absurd (Or.inr rfl) (Put.lastTouch_eq_none.mp hlast _ List.mem_cons_self)
    | some put =>
        rw [hlast] at hat
        exact hcontent put (Put.lastTouch_eq_some hlast).1 hat.2

theorem exists_fresh (contents : List (List UInt8)) : ∃ content, content ∉ contents := by
  refine ⟨0 :: contents.flatten, fun hin => ?_⟩
  have hlength := (List.sublist_flatten_of_mem hin).length_le
  simp at hlength

/-- The calls keep a manifest and can lose some other file that a pull has stored. -/
def Loses (outputDir : Path) (calls : Calls) : Prop :=
  ∃ (name : String) (content : List UInt8), Joined name ∧
    outputDir.join name.toList ≠ manifestPath outputDir ∧ content ≠ [] ∧
    ∀ artifacts store, (∃ found, store.tree (manifestPath outputDir) = some (.file found)) →
      Broken outputDir (outputDir.join name.toList) content
        (calls.foldl (spoil outputDir artifacts (outputDir.join name.toList)) store).tree

theorem loses_part (hjoined : Joined binding.localName) (hne : content ≠ [])
    (hbroken : ∀ artifacts store,
      (∃ found, store.tree (manifestPath outputDir) = some (.file found)) →
        Broken outputDir (binding.part outputDir) content
          (calls.foldl (spoil outputDir artifacts (binding.part outputDir)) store).tree) :
    Loses outputDir calls := by
  have hq := part_ne_manifestPath hjoined outputDir
  rcases joined_part hjoined with ⟨hname, hjoin⟩
  have hpart : binding.part outputDir = outputDir.join (binding.localName ++ ".part").toList :=
    hjoin outputDir
  rw [hpart] at hq hbroken
  exact ⟨_, content, hname, hq, hne, hbroken⟩

theorem loses_refusedRemoval (outputDir : Path) :
    Loses outputDir [(.removeDirAll outputDir, false)] := by
  have hname : Joined "uki" := joined_of_isName (by decide +kernel)
  have hq : outputDir.join "uki".toList ≠ manifestPath outputDir := by
    intro heq
    exact absurd ((join_inj_of_joined outputDir hname joined_manifest).mp heq) (by decide)
  have hbelow := (hname.localName outputDir).isPrefix
  refine ⟨"uki", [0], hname, hq, by simp, ?_⟩
  intro artifacts store hmanifest
  exact broken_of_hits (by simp) hq (List.forall_mem_singleton.mpr rfl)
    ⟨_, List.mem_cons_self, Or.inr ⟨outputDir, hbelow, rfl⟩⟩ hmanifest

theorem loses_of_hits (hjoined : Joined binding.localName)
    (hmild : ∀ content ∉ [bytes], ∀ call ∈ calls,
      Mild outputDir (binding.part outputDir) content call)
    (hhits : ∃ call ∈ calls, Hits (binding.part outputDir) call) : Loses outputDir calls := by
  rcases exists_fresh [[], bytes] with ⟨content, hfresh⟩
  rw [List.mem_cons, not_or] at hfresh
  apply loses_part hjoined hfresh.1
  intro artifacts store hmanifest
  exact broken_of_hits hfresh.1 (part_ne_manifestPath hjoined outputDir)
    (hmild content hfresh.2) hhits hmanifest

theorem loses_of_completed {first : ArtifactBinding} {last : Calls} (contents : List (List UInt8))
    (hjoined : ∀ binding ∈ first :: bindings, Joined binding.localName)
    (hdone : (env.downloadBindings outputDir 0 (first :: bindings)).result = .ok ())
    (hlast : ∀ content ∉ contents, ∀ call ∈ last,
      Mild outputDir (first.part outputDir) content call) :
    Loses outputDir ((env.downloadBindings outputDir 0 (first :: bindings)).trace ++ last) := by
  have hfirst := hjoined first List.mem_cons_self
  rcases exists_fresh ([] :: contents ++
    (env.puts outputDir 0 (first :: bindings)).map (·.content)) with ⟨content, hfresh⟩
  simp only [List.cons_append, List.mem_cons, List.mem_append, not_or] at hfresh
  rcases hfresh with ⟨hne, hcontents, hputs⟩
  apply loses_part hfirst hne
  intro artifacts store hmanifest
  rw [List.foldl_append]
  apply broken_foldl hne (part_ne_manifestPath hfirst outputDir) (hlast content hcontents)
  refine broken_of_downloads hjoined hdone (fun put hin heq => hputs ?_) steps_spoil.tree hmanifest
  rw [← heq]
  exact List.mem_map_of_mem hin

/-- A run that ends without a manifest and without removing its directory can lose a file
that stood there. -/
theorem Session.Course.loses {result : Outcome PullError PullResult}
    (h : session.Course outputDir calls result) (hchanged : ¬ calls.Quiet root)
    (hremoved : (.removeDirAll outputDir, true) ∉ calls)
    (hwritten : ∀ found, (.write (manifestPath outputDir) found, true) ∉ calls) :
    Loses outputDir calls := by
  cases h with
  | unselected e => exact absurd (fun _ hin => absurd hin List.not_mem_nil) hchanged
  | written hpulled hdone => exact absurd (List.mem_append_right _ List.mem_cons_self) (hwritten _)
  | unfetched done e =>
      cases done with
      | true => exact absurd List.mem_cons_self hremoved
      | false => exact loses_refusedRemoval outputDir
  | unwritten last e hselected hdone hlast =>
      have hjoined := hselected.joined
      rcases hselected.artifacts with ⟨uki, _, _, _, rfl, -⟩
      have hq := part_ne_manifestPath (hjoined uki List.mem_cons_self) outputDir
      apply loses_of_completed [] hjoined hdone
      intro content _ call hin
      rcases hlast with rfl | ⟨found, rfl⟩
      · exact absurd hin List.not_mem_nil
      · rw [List.mem_singleton.mp hin]
        exact ⟨fun hfalse => absurd hfalse (by decide), fun heq => absurd heq.symm hq⟩
  | stopped hselected hdone hstop =>
      rename_i remote manifest done binding rest e
      have hjoined := hselected.joined
      rw [List.forall_mem_append, List.forall_mem_cons] at hjoined
      have hcourse := session.env.downloadBinding_course outputDir done.length binding
      rw [hstop] at hcourse
      have hlast : ∀ q, ∀ content ∉ [(session.env.download done.length binding.blob).1],
          ∀ call ∈ (session.env.downloadBinding outputDir done.length binding).trace,
            Mild outputDir q content call := by
        intro q content hcontent
        refine hcourse.mild (fun hin => hremoved (List.mem_append_right _ hin))
          (part_ne_manifestPath hjoined.2.1 outputDir) ?_
        simpa [eq_comm] using hcontent
      cases done with
      | nil =>
          have hhits := (hcourse.quiet_or_hits root).resolve_left hchanged
          exact loses_of_hits hjoined.2.1 (hlast _) hhits
      | cons first done => exact loses_of_completed _ hjoined.1 hdone (hlast _)

def earlierManifest (name : String) : Image.Manifest :=
  namedManifest name (name ++ ".part") (name ++ ".part" ++ ".part")

def earlierSession (name : String) (content : List UInt8) : Session where
  env :=
    { deserialize := (earlierManifest name).parse
      serialize _ := .ok []
      refused _ _ := none
      download i _ := (if i = 0 then content else [], .ok ()) }
  refused _ := none
  owner := []
  fetch := .fetched ⟨(earlierManifest name).text, namedLayers⟩
  afterwards := .ok ()

theorem apart_earlier (hne : name ≠ "manifest.json") :
    Apart (earlierManifest name) namedLayers := by
  have hlog : changelogBindings namedLayers = [] := by decide +kernel
  have hlonger : ∀ base more : String, more.length ≠ 0 → base ++ more ≠ base := by
    intro base more hmore heq
    have hlength := congrArg String.length heq
    simp only [String.length_append] at hlength
    omega
  have hpart : ∀ base : String, base ++ ".part" ≠ base := fun base => hlonger base _ (by decide)
  have hparts : ∀ base : String, base ++ ".part" ++ ".part" ≠ base := fun base => by
    rw [String.append_assoc]
    exact hlonger base _ (by decide)
  have hthree : ∀ base : String, base ++ ".part" ++ ".part" ++ ".part" ≠ base := fun base => by
    rw [String.append_assoc, String.append_assoc]
    exact hlonger base _ (by decide)
  unfold Apart
  rw [hlog]
  simp only [ApartFrom, earlierManifest, namedManifest, List.map_nil, List.forall_mem_cons,
    List.not_mem_nil, IsEmpty.forall_iff, implies_true, and_true]
  exact ⟨⟨hne, ⟨hpart name, hparts name⟩, hparts name, hthree name⟩,
    ⟨append_part_ne_manifest name, hpart _, hparts _⟩, append_part_ne_manifest _⟩

theorem exists_earlier (root : Path) (reference : TaggedReference) (hname : Joined name)
    (hne : name ≠ "manifest.json") (content : List UInt8) :
    (earlierSession name content).Clean root reference ∧
      ∃ store, Run root reference ⟨fun _ => none, none⟩ (earlierSession name content) store ∧
        (∃ found, store.tree (manifestPath (reference.outputDir root)) = some (.file found)) ∧
        ∃ marks, store.writer = some marks ∧
          ((reference.outputDir root).join name.toList, content) ∈ marks := by
  have hpart := (joined_part hname).1
  have hobliging : (earlierSession name content).Obliging :=
    ⟨fun _ => rfl, fun _ _ => rfl, fun _ _ => rfl, rfl⟩
  have hpulled : (earlierSession name content).Pulled ⟨(earlierManifest name).text, namedLayers⟩
      (earlierManifest name) _ [] :=
    ⟨⟨rfl, ⟨_, congrArg (Outcome.context · _) (earlierManifest name).parse_text,
        Manifest.normalizePaths_of_joined hname hpart (joined_part hpart).1⟩,
      selectArtifactBindings_eq_ok.mpr ⟨_, _, _, rfl, rfl, rfl, rfl⟩⟩, rfl⟩
  have hremain : (earlierSession name content).env.ArtifactsRemain _ [] :=
    (hpulled.toSelected.artifactsRemain_iff (reference.outputDir root)).mpr
      (Environment.settled_of_untouched (hpulled.untouched_iff.mpr (apart_earlier hne)))
  have hreturns := hobliging.returns root reference hpulled
  rcases Session.pulled_of_ok hreturns with
    ⟨_, _, _, _, hpulled', hdone, before, after, hbefore, hafter, htrace⟩
  cases hpulled.toSelected.unique hpulled'.toSelected
  cases hpulled'.serialize
  constructor
  · refine Or.inr (Or.inr ⟨_, _, _, _, hpulled, ?_, hremain⟩)
    rw [htrace]
    simp
  · unfold Run
    rw [htrace]
    refine ⟨_, steps_spoil (q := []), ⟨_, manifest_of_after (after_written hpulled' hdone hbefore
      hafter steps_spoil.tree)⟩, _, writer_of_written hafter steps_spoil, ?_⟩
    rw [hpulled.artifacts_eq (reference.outputDir root) []]
    exact List.mem_cons_self

/-- The mark of a run that is not clean is wrong. -/
theorem unmarked_of_written {store store' : Store} (h : ¬ session.Clean root reference)
    (hin : (.write (manifestPath (reference.outputDir root)) content, true) ∈
      (session.pullUpdate root reference).trace)
    (hrun : Run root reference store session store') :
    ¬ Marked (reference.outputDir root) store' := by
  rcases session.pullUpdate_cases root reference with
    ⟨hcalm, -⟩ | ⟨before, after, hbefore, hafter, htrace, -⟩
  · exact absurd (Or.inl hcalm.quiet) h
  have hbody := mem_of_mem_between hbefore hafter (not_calm_manifest content) (htrace ▸ hin)
  rcases (session.body_course _).of_written hbody with
    ⟨remote, manifest, bindings, hpulled, hdone, hcalls⟩
  unfold Run at hrun
  rw [htrace, hcalls] at hrun
  intro hmarked
  have hsettled := (marked_iff_of_written hpulled hdone hbefore hafter hrun).mp hmarked
  exact h (Or.inr (Or.inr ⟨remote, manifest, bindings, content, hpulled, hin,
    (hpulled.toSelected.artifactsRemain_iff _).mpr hsettled⟩))

/-- A run that is not clean can leave the manifest of an earlier run without one of its
artifacts. -/
theorem unmarked_of_unwritten (h : ¬ session.Clean root reference)
    (hwritten : ∀ found, (.write (manifestPath (reference.outputDir root)) found, true) ∉
      (session.pullUpdate root reference).trace) :
    ∃ (name : String) (content : List UInt8), Joined name ∧ name ≠ "manifest.json" ∧
      ∀ store marks, store.writer = some marks →
        ((reference.outputDir root).join name.toList, content) ∈ marks →
        (∃ found, store.tree (manifestPath (reference.outputDir root)) = some (.file found)) →
        ∃ store', Run root reference store session store' ∧
          ¬ Marked (reference.outputDir root) store' := by
  rcases session.pullUpdate_cases root reference with
    ⟨hcalm, -⟩ | ⟨before, after, hbefore, hafter, htrace, -⟩
  · exact absurd (Or.inl hcalm.quiet) h
  have hmem : ∀ call ∈ (session.body (reference.outputDir root)).trace,
      call ∈ (session.pullUpdate root reference).trace := by
    intro call hin
    rw [htrace]
    exact List.mem_append_right _ (List.mem_append_left _ hin)
  have hchanged : ¬ Calls.Quiet root (session.body (reference.outputDir root)).trace := by
    intro hquiet
    refine h (Or.inl ?_)
    rw [htrace]
    exact List.forall_mem_append.mpr
      ⟨hbefore.quiet, List.forall_mem_append.mpr ⟨hquiet, hafter.quiet⟩⟩
  rcases (session.body_course (reference.outputDir root)).loses hchanged
    (fun hin => h (Or.inr (Or.inl (hmem _ hin)))) (fun found hin => hwritten found (hmem _ hin))
    with ⟨name, content, hname, hq, hne, hbroken⟩
  have hbelow := (hname.localName (reference.outputDir root)).isPrefix
  refine ⟨name, content, hname, fun heq => hq (by rw [heq]; rfl), ?_⟩
  intro store marks hmarks hin hmanifest
  refine ⟨_, run_spoilRun (q := (reference.outputDir root).join name.toList),
    Broken.not_marked ?_ hin (writer_foldl hwritten (Or.inr hmarks))⟩
  rw [spoilRun, htrace, List.foldl_append, List.foldl_append]
  refine broken_foldl hne hq (hafter.mild hbelow) ?_
  exact hbroken _ _ (manifest_foldl content hq (hbefore.mild hbelow) hmanifest)

theorem exists_unmarked (h : ¬ session.Clean root reference) :
    ∃ sessions store', (∀ earlier ∈ sessions, earlier.Clean root reference) ∧
      Runs root reference ⟨fun _ => none, none⟩ (sessions ++ [session]) store' ∧
      ¬ Marked (reference.outputDir root) store' := by
  by_cases hwritten : ∃ content, (FileEffect.write (manifestPath (reference.outputDir root))
      content, true) ∈ (session.pullUpdate root reference).trace
  · rcases hwritten with ⟨content, hin⟩
    have hrun : Run root reference ⟨fun _ => none, none⟩ session _ := run_spoilRun (q := [])
    exact ⟨[], _, fun _ hnil => absurd hnil List.not_mem_nil, ⟨_, hrun, rfl⟩,
      unmarked_of_written h hin hrun⟩
  · rcases unmarked_of_unwritten h fun found hin => hwritten ⟨found, hin⟩ with
      ⟨name, content, hname, hne, hspoils⟩
    rcases exists_earlier root reference hname hne content with
      ⟨hclean, store, hearlier, hmanifest, marks, hmarks, hin⟩
    rcases hspoils store marks hmarks hin hmanifest with ⟨store', hrun, hunmarked⟩
    exact ⟨[earlierSession name content], store', List.forall_mem_singleton.mpr hclean,
      ⟨store, hearlier, store', hrun, rfl⟩, hunmarked⟩

end Ends

/-- After any sequence of clean runs into one directory, `manifest.json` marks a complete
download. A run may follow every such sequence exactly when it is clean itself. -/
theorem pulls_mark_complete_iff (root : Path) (reference : TaggedReference) (session : Session) :
    (∀ (sessions : List Session) (store store' : Store),
      (∀ earlier ∈ sessions, earlier.Clean root reference) →
      store.tree (manifestPath (reference.outputDir root)) = none →
      Store.Runs root reference store (sessions ++ [session]) store' →
      Store.Marked (reference.outputDir root) store') ↔ session.Clean root reference := by
  constructor
  · intro hkeeps
    by_contra hclean
    rcases exists_unmarked hclean with ⟨sessions, store', hsessions, hruns, hunmarked⟩
    exact hunmarked (hkeeps sessions _ store' hsessions rfl hruns)
  · intro hclean sessions store store' hsessions hnone hruns
    have hmarked : Store.Marked (reference.outputDir root) store := by
      intro content hcontent
      cases hnone.symm.trans hcontent
    refine hmarked.of_clean_runs (fun earlier hin => ?_) hruns
    rcases List.mem_append.mp hin with hbefore | hlast
    · exact hsessions earlier hbefore
    · rw [List.mem_singleton.mp hlast]
      exact hclean

section Sample

variable {deserialize : List UInt8 → Option Image.Manifest} {session : Session}
  {remote : RemoteImage} {parsed : Image.Manifest}

theorem puts_withParser {outputDir : Path} (i : Nat) (bindings : List ArtifactBinding) :
    (session.withParser deserialize).env.puts outputDir i bindings =
      session.env.puts outputDir i bindings := by
  induction bindings generalizing i with
  | nil => rfl
  | cons binding bindings ih =>
      exact congrArg (session.env.put outputDir i binding :: ·) (ih (i + 1))

theorem artifacts_withParser (hfetch : session.fetch = .fetched remote)
    (hold : session.env.deserialize remote.configJson.toUTF8.toList = some parsed)
    (hnew : deserialize remote.configJson.toUTF8.toList = some parsed) (outputDir : Path) :
    (session.withParser deserialize).artifacts outputDir = session.artifacts outputDir := by
  have hfetch' : (session.withParser deserialize).fetch = .fetched remote := hfetch
  have hnew' : (session.withParser deserialize).env.deserialize remote.configJson.toUTF8.toList =
      some parsed := hnew
  unfold Session.artifacts Image.Manifest.fromSlice
  rw [hfetch, hfetch']
  dsimp only
  rw [hold, hnew']
  simp only [puts_withParser]

theorem spoilRun_withParser (hfetch : session.fetch = .fetched remote)
    (hold : session.env.deserialize remote.configJson.toUTF8.toList = some parsed)
    (hnew : deserialize remote.configJson.toUTF8.toList = some parsed) (root : Path)
    (reference : TaggedReference) (q : Path) (store : Store) :
    Store.spoilRun root reference q store (session.withParser deserialize) =
      Store.spoilRun root reference q store session := by
  unfold Store.spoilRun
  rw [pullUpdate_withParser hfetch hold hnew, artifacts_withParser hfetch hold hnew]

def tenSum : Vector UInt8 32 :=
  #v[1, 186, 71, 25, 200, 11, 111, 233, 17, 176, 145, 167, 192, 81, 36, 182, 78, 238, 206, 150, 78,
    9, 192, 88, 239, 143, 152, 5, 218, 202, 84, 107]

def newerManifest : Image.Manifest :=
  { namedManifest "uki" "root" "verity" with version := "1.1", kernel := ⟨"uki", tenSum, none⟩ }

/-- A newer image under the same tag; the disk is full when the second temporary file is
created. -/
def fullDiskSession : Session where
  env :=
    { deserialize := newerManifest.parse
      serialize _ := .ok [19]
      refused i effect :=
        match i, effect with
        | 1, .create _ => some "No space left on device (os error 28)"
        | _, _ => none
      download i _ := ([if i = 0 then 10 else UInt8.ofNat i], .ok ()) }
  refused _ := none
  owner := []
  fetch := .fetched ⟨newerManifest.text,
    ⟨digestOf tenSum, MediaType.uki.asRef, 1, none⟩ :: (titledLayers "log").drop 1⟩
  afterwards := .ok ()

def completeStore : Store :=
  Store.spoilRun updatesRoot ghafV1 [] ⟨FileTree.only updatesRoot, none⟩
    (namedSession "uki" "root" "verity" "log")

def mixedStore : Store := Store.spoilRun updatesRoot ghafV1 [] completeStore fullDiskSession

theorem mixedStore_eq : mixedStore = Store.spoilRun updatesRoot ghafV1 []
    (Store.spoilRun updatesRoot ghafV1 [] ⟨FileTree.only updatesRoot, none⟩
      ((namedSession "uki" "root" "verity" "log").withParser fun _ =>
        some (namedManifest "uki" "root" "verity")))
    (fullDiskSession.withParser fun _ => some newerManifest) := by
  rw [spoilRun_withParser rfl newerManifest.parse_text rfl,
    spoilRun_withParser rfl (namedManifest "uki" "root" "verity").parse_text rfl]
  rfl

/-- The kernel of the newer image stands beside the manifest of the older one. -/
theorem pull_mixes_downloads :
    Store.Runs updatesRoot ghafV1 ⟨FileTree.only updatesRoot, none⟩
      [namedSession "uki" "root" "verity" "log", fullDiskSession] mixedStore ∧
    mixedStore.tree (storedManifest ghafV1) = some (.file [9]) ∧
    mixedStore.tree ((ghafV1.outputDir updatesRoot).join "uki".toList) = some (.file [10]) ∧
    ¬ Store.Marked (ghafV1.outputDir updatesRoot) mixedStore := by
  have hartifacts : (namedSession "uki" "root" "verity" "log").artifacts
      (ghafV1.outputDir updatesRoot) =
      ((namedSession "uki" "root" "verity" "log").withParser fun _ =>
        some (namedManifest "uki" "root" "verity")).artifacts (ghafV1.outputDir updatesRoot) :=
    (artifacts_withParser rfl (namedManifest "uki" "root" "verity").parse_text rfl _).symm
  have hsamples : mixedStore.tree (storedManifest ghafV1) = some (.file [9]) ∧
      mixedStore.tree ((ghafV1.outputDir updatesRoot).join "uki".toList) = some (.file [10]) ∧
      mixedStore.writer = some ((namedSession "uki" "root" "verity" "log").artifacts
        (ghafV1.outputDir updatesRoot)) ∧
      ((ghafV1.outputDir updatesRoot).join "uki".toList, [0]) ∈
        (namedSession "uki" "root" "verity" "log").artifacts (ghafV1.outputDir updatesRoot) := by
    rw [mixedStore_eq, hartifacts]
    decide +kernel
  rcases hsamples with ⟨hmanifest, huki, hwriter, hin⟩
  have hpath : manifestPath (ghafV1.outputDir updatesRoot) = storedManifest ghafV1 := rfl
  have hbroken : Store.Broken (ghafV1.outputDir updatesRoot)
      ((ghafV1.outputDir updatesRoot).join "uki".toList) [0] mixedStore.tree :=
    ⟨⟨[9], by rw [hpath, hmanifest]⟩, by rw [huki]; decide⟩
  exact ⟨⟨completeStore, Store.run_spoilRun, mixedStore, Store.run_spoilRun, rfl⟩, hmanifest, huki,
    hbroken.not_marked hin (Or.inr hwriter)⟩

end Sample

end GhafGivc.Pull
