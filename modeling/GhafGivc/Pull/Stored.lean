import GhafGivc.Core.Placed
import GhafGivc.Pull.Course

/-! # What a pull leaves in its output directory

The artifacts, their temporary files and `manifest.json` share one directory, under names
that come from the registry.
-/

namespace GhafGivc.Pull

open Core

/-- The files of a complete pull are the blobs of the layers and the manifest. -/
def Stored (env : Environment) (outputDir : Path) (manifest : Image.Manifest)
    (layers : List BlobDescriptor) (tree : FileTree) : Prop :=
  (∃ uki, findLayerByMediaType layers .uki = some uki ∧
    tree (outputDir.join manifest.kernel.name.toList) = some (.file (env.download 0 uki).1)) ∧
  (∃ root, findLayerByMediaType layers .root = some root ∧
    tree (outputDir.join manifest.store.name.toList) = some (.file (env.download 1 root).1)) ∧
  (∃ verity, findLayerByMediaType layers .verity = some verity ∧
    tree (outputDir.join manifest.verity.name.toList) = some (.file (env.download 2 verity).1)) ∧
  ∃ content, env.serialize manifest = .ok content ∧
    tree (manifestPath outputDir) = some (.file content)

/-- Nothing that is written after the artifact `name` has its name. -/
def ApartFrom (name : String) (later : List String) : Prop :=
  name ≠ "manifest.json" ∧ ∀ other ∈ later, other ≠ name ∧ other ++ ".part" ≠ name

instance (name : String) (later : List String) : Decidable (ApartFrom name later) :=
  inferInstanceAs (Decidable (_ ∧ _))

/-- No artifact is hit by what is written after it. -/
def Apart (manifest : Image.Manifest) (layers : List BlobDescriptor) : Prop :=
  let changelog := (changelogBindings layers).map (·.localName)
  ApartFrom manifest.kernel.name (manifest.store.name :: manifest.verity.name :: changelog) ∧
    ApartFrom manifest.store.name (manifest.verity.name :: changelog) ∧
    ApartFrom manifest.verity.name changelog

instance (manifest : Image.Manifest) (layers : List BlobDescriptor) :
    Decidable (Apart manifest layers) := inferInstanceAs (Decidable (_ ∧ _ ∧ _))

section Names

variable {name other : String}

theorem join_inj_of_joined (dir : Path) (h : Joined name) (hother : Joined other) :
    dir.join name.toList = dir.join other.toList ↔ name = other := by
  rcases h with ⟨ns, hne, hnames, heq⟩
  rcases hother with ⟨ms, hne', hnames', heq'⟩
  constructor
  · intro hjoin
    rw [heq, heq', Path.join_joinNames dir hne hnames, Path.join_joinNames dir hne' hnames',
      List.append_cancel_left_eq] at hjoin
    have hsame : ns = ms :=
      List.map_injective_iff.mpr (fun _ _ h => Component.normal.inj h) hjoin
    exact String.toList_injective (by rw [heq, heq', hsame])
  · intro hsame
    rw [hsame]

theorem joined_part (h : Joined name) : Joined (name ++ ".part") ∧
    ∀ dir : Path, (dir.join name.toList).withAddedExtension "part".toList =
      dir.join (name ++ ".part").toList := by
  rcases h with ⟨ns, hne, hnames, heq⟩
  rcases List.eq_nil_or_concat' ns with hnil | ⟨front, last, hns⟩
  · exact absurd hnil hne
  · subst hns
    have hlast : Path.IsName (last ++ '.' :: "part".toList) :=
      Path.isName_addExtension (hnames last (by simp)) (by decide) (by decide)
    have hnames' : ∀ part ∈ front ++ [last ++ '.' :: "part".toList], Path.IsName part := by
      intro part hpart
      rcases List.mem_append.mp hpart with hfront | hend
      · exact hnames part (List.mem_append_left _ hfront)
      · exact List.mem_singleton.mp hend ▸ hlast
    have heq' : (name ++ ".part").toList =
        Path.joinNames (front ++ [last ++ '.' :: "part".toList]) := by
      rw [String.toList_append, heq]
      exact Path.joinNames_concat_append front last _
    constructor
    · exact ⟨_, by simp, hnames', heq'⟩
    · intro dir
      rw [heq, heq', Path.join_joinNames dir hne hnames, Path.join_joinNames dir (by simp) hnames',
        List.map_append, List.map_append, ← List.append_assoc, ← List.append_assoc]
      exact Path.withAddedExtension_concat _ last (by decide)

theorem part_ne_target {binding : ArtifactBinding} (h : Joined binding.localName) (dir : Path) :
    binding.part dir ≠ binding.target dir := by
  intro heq
  have hsame : binding.localName ++ ".part" = binding.localName :=
    (join_inj_of_joined dir (joined_part h).1 h).mp (((joined_part h).2 dir).symm.trans heq)
  have hlength := congrArg String.length hsame
  simp at hlength

end Names

/-! ## The files put in place -/

namespace Environment

def put (env : Environment) (outputDir : Path) (i : Nat) (binding : ArtifactBinding) : Put :=
  ⟨some (binding.part outputDir), binding.target outputDir, (env.download i binding.blob).1⟩

/-- The artifacts from number `i` on, in the order of their downloads. -/
def puts (env : Environment) (outputDir : Path) : Nat → List ArtifactBinding → List Put
  | _, [] => []
  | i, binding :: bindings =>
      env.put outputDir i binding :: puts env outputDir (i + 1) bindings

def allPuts (env : Environment) (outputDir : Path) (bindings : List ArtifactBinding)
    (content : List UInt8) : List Put :=
  env.puts outputDir 0 bindings ++ [⟨none, manifestPath outputDir, content⟩]

variable {dir : Path} {env : Environment} {binding : ArtifactBinding}

theorem touches_iff {i : Nat} {binding other : ArtifactBinding} (h : Joined binding.localName)
    (hother : Joined other.localName) :
    (env.put dir i other).Touches (binding.target dir) ↔
      other.localName = binding.localName ∨ other.localName ++ ".part" = binding.localName := by
  have hpart : other.part dir = dir.join (other.localName ++ ".part").toList :=
    (joined_part hother).2 dir
  unfold Put.Touches put
  rw [Option.some_inj, hpart]
  exact or_congr (join_inj_of_joined dir hother h)
    (join_inj_of_joined dir (joined_part hother).1 h)

variable {content : List UInt8}

theorem manifest_touches_iff (h : Joined binding.localName) :
    (Put.mk none (manifestPath dir) content).Touches (binding.target dir) ↔
      binding.localName = "manifest.json" := by
  unfold Put.Touches
  rw [or_iff_left (by simp)]
  exact (join_inj_of_joined dir joined_manifest h).trans eq_comm

/-- What is put in place after an artifact leaves it alone. -/
theorem untouched_iff {i : Nat} {later : List ArtifactBinding} (h : Joined binding.localName)
    (hlater : ∀ other ∈ later, Joined other.localName) :
    (∀ put ∈ env.puts dir i later ++ [⟨none, manifestPath dir, content⟩],
      ¬ put.Touches (binding.target dir)) ↔
      ApartFrom binding.localName (later.map (·.localName)) := by
  induction later generalizing i with
  | nil =>
      simp [puts, ApartFrom, manifest_touches_iff h]
  | cons other later ih =>
      rw [List.forall_mem_cons] at hlater
      have hrest := ih (i := i + 1) hlater.2
      rw [puts, List.cons_append, List.forall_mem_cons, hrest, touches_iff h hlater.1]
      simp only [ApartFrom, List.map_cons, List.forall_mem_cons, not_or]
      exact ⟨fun ⟨hother, hname, hall⟩ => ⟨hname, hother, hall⟩,
        fun ⟨hname, hother, hall⟩ => ⟨hother, hname, hall⟩⟩

theorem isPrefix_target_of_mem {bindings : List ArtifactBinding} {put : Put}
    (h : ∀ binding ∈ bindings, Joined binding.localName)
    (hin : put ∈ env.allPuts dir bindings content) : dir <+: put.target := by
  have hputs : ∀ i, ∀ put ∈ env.puts dir i bindings, dir <+: put.target := by
    clear hin
    induction bindings with
    | nil => exact fun _ _ hin => absurd hin List.not_mem_nil
    | cons binding bindings ih =>
        rw [List.forall_mem_cons] at h
        intro i put hin
        rcases List.mem_cons.mp hin with rfl | hlater
        · exact (h.1.localName dir).isPrefix
        · exact ih h.2 (i + 1) put hlater
  rcases List.mem_append.mp hin with hartifact | hmanifest
  · exact hputs 0 put hartifact
  · rw [List.mem_singleton.mp hmanifest]
    exact isPrefix_manifestPath dir

section Artifacts

variable {env : Environment} {dir : Path} {uki root verity : ArtifactBinding}
  {log : List ArtifactBinding} {content : List UInt8}

/-- The three artifacts of a manifest are at their places in the end. -/
def Settled (env : Environment) (dir : Path) (bindings : List ArtifactBinding)
    (content : List UInt8) : Prop :=
  ∀ put ∈ (env.allPuts dir bindings content).take 3,
    Put.Settled (env.allPuts dir bindings content) put

theorem settled_iff : env.Settled dir (uki :: root :: verity :: log) content ↔
    Put.Settled (env.allPuts dir (uki :: root :: verity :: log) content) (env.put dir 0 uki) ∧
    Put.Settled (env.allPuts dir (uki :: root :: verity :: log) content) (env.put dir 1 root) ∧
    Put.Settled (env.allPuts dir (uki :: root :: verity :: log) content)
      (env.put dir 2 verity) := by
  simp [Settled, allPuts, puts]

/-- The three artifacts are hit by nothing that is written after them. -/
def Untouched (env : Environment) (dir : Path) (uki root verity : ArtifactBinding)
    (log : List ArtifactBinding) (content : List UInt8) : Prop :=
  (∀ put ∈ env.puts dir 1 (root :: verity :: log) ++ [⟨none, manifestPath dir, content⟩],
    ¬ put.Touches (uki.target dir)) ∧
  (∀ put ∈ env.puts dir 2 (verity :: log) ++ [⟨none, manifestPath dir, content⟩],
    ¬ put.Touches (root.target dir)) ∧
  ∀ put ∈ env.puts dir 3 log ++ [⟨none, manifestPath dir, content⟩],
    ¬ put.Touches (verity.target dir)

theorem settled_of_untouched (h : env.Untouched dir uki root verity log content) :
    env.Settled dir (uki :: root :: verity :: log) content := by
  have hkernel := Put.settled_of_untouched [] (env.put dir 0 uki) h.1
  have hstore := Put.settled_of_untouched [env.put dir 0 uki] (env.put dir 1 root) h.2.1
  have hverity := Put.settled_of_untouched [env.put dir 0 uki, env.put dir 1 root]
    (env.put dir 2 verity) h.2.2
  exact settled_iff.mpr ⟨hkernel, hstore, hverity⟩

/-- With contents that differ, every hit is seen. -/
theorem untouched_of_settled
    (hcontents : ((env.allPuts dir (uki :: root :: verity :: log) content).map
      (·.content)).Nodup)
    (h : env.Settled dir (uki :: root :: verity :: log) content) :
    env.Untouched dir uki root verity log content := by
  rcases settled_iff.mp h with ⟨hkernel, hstore, hverity⟩
  have hdiffer : ∀ (before later : List Put) (put : Put),
      ((before ++ put :: later).map (·.content)).Nodup →
        ∀ other ∈ later, other.content ≠ put.content := by
    intro before later put hnodup other hother heq
    rw [List.map_append, List.map_cons, List.nodup_append] at hnodup
    exact (List.nodup_cons.mp hnodup.2.1).1 (heq ▸ List.mem_map_of_mem hother)
  have hcontents0 := hdiffer [] _ (env.put dir 0 uki) hcontents
  have hcontents1 := hdiffer [env.put dir 0 uki] _ (env.put dir 1 root) hcontents
  have hcontents2 := hdiffer [env.put dir 0 uki, env.put dir 1 root] _ (env.put dir 2 verity)
    hcontents
  exact ⟨Put.Settled.untouched [] hkernel hcontents0,
    Put.Settled.untouched [env.put dir 0 uki] hstore hcontents1,
    Put.Settled.untouched [env.put dir 0 uki, env.put dir 1 root] hverity hcontents2⟩

end Artifacts

end Environment

section Run

variable {env : Environment} {session : Session} {root outputDir : Path}
  {reference : TaggedReference} {tree tree' : FileTree} {i : Nat} {calls : Calls}
  {bindings : List ArtifactBinding}

theorem Calls.Dirs.after (h : calls.Dirs) (hsteps : FileTree.Steps tree calls tree') :
    Put.After outputDir tree [] tree' := by
  refine Put.after_nil_of_outside hsteps (fun event hin p hp => ?_) fun event hin p content hp => ?_
  · rcases h event hin with ⟨dir, hdir⟩
    rw [hdir]
    exact not_false
  · rcases h event hin with ⟨dir, hdir⟩
    rw [hdir]
    exact fun hmakes => nomatch hmakes.2

theorem Calls.Calm.after (h : calls.Calm root) (hsteps : FileTree.Steps tree calls tree') :
    Put.After (reference.outputDir root) tree [] tree' :=
  Put.after_nil_of_outside hsteps (fun event hin _ hp => ((h event hin).keeps hp).1)
    fun event hin _ content hp => ((h event hin).keeps hp).2 content

theorem Calls.Quiet.after (h : calls.Quiet root) (hsteps : FileTree.Steps tree calls tree') :
    Put.After (reference.outputDir root) tree [] tree' := by
  induction calls generalizing tree with
  | nil =>
      cases hsteps
      exact fun p content _ => Iff.rfl
  | cons call calls ih =>
      rw [Calls.Quiet, List.forall_mem_cons] at h
      rcases hsteps with ⟨mid, hstep, hrest⟩
      have hone : Put.After (reference.outputDir root) tree [] mid := by
        rcases h.1 with hcalm | ⟨file, rfl⟩
        · exact Calls.Calm.after (List.forall_mem_singleton.mpr hcalm) ⟨mid, hstep, rfl⟩
        · rw [hstep.eq_of_refused_create]
          exact fun p content _ => Iff.rfl
      exact hone.append (ih h.2 hrest)

theorem after_downloadBinding {binding : ArtifactBinding} (h : Joined binding.localName)
    (hok : (env.downloadBinding outputDir i binding).result = .ok ())
    (hsteps : FileTree.Steps tree (env.downloadBinding outputDir i binding).trace tree') :
    Put.After outputDir tree [env.put outputDir i binding] tree' := by
  have hcourse := Environment.downloadBinding_course env outputDir i binding
  rw [hok] at hcourse
  rcases hcourse.of_ok with ⟨up, hup, htrace⟩
  rw [htrace] at hsteps
  rcases FileTree.steps_append.mp hsteps with ⟨mid, hfirst, _, hcreate, _, hwrite, _, hrename, hend⟩
  cases hcreate
  cases hwrite
  cases hrename
  cases hend
  exact (hup.after hfirst).append (Put.after_rename outputDir (part_ne_target h outputDir))

theorem after_downloadBindings (h : ∀ binding ∈ bindings, Joined binding.localName)
    (hok : (env.downloadBindings outputDir i bindings).result = .ok ())
    (hsteps : FileTree.Steps tree (env.downloadBindings outputDir i bindings).trace tree') :
    Put.After outputDir tree (env.puts outputDir i bindings) tree' := by
  induction bindings generalizing i tree with
  | nil =>
      cases hsteps
      exact fun p content _ => Iff.rfl
  | cons binding bindings ih =>
      rw [List.forall_mem_cons] at h
      rw [Environment.downloadBindings_cons] at hok hsteps
      rw [Traced.result_bind] at hok
      rcases Outcome.bind_eq_ok.mp hok with ⟨_, hfirst, hrest⟩
      rw [Traced.bind_of_ok hfirst] at hsteps
      rcases FileTree.steps_append.mp hsteps with ⟨mid, hbefore, hafter⟩
      exact (after_downloadBinding h.1 hfirst hbefore).append (ih h.2 hrest hafter)

/-- The artifacts and the manifest are put in place between the calls for the lock. -/
theorem after_written {remote : RemoteImage} {manifest : Image.Manifest} {content : List UInt8}
    {before after : Calls} (hpulled : session.Pulled remote manifest bindings content)
    (hdone : (session.env.downloadBindings (reference.outputDir root) 0 bindings).result = .ok ())
    (hbefore : before.Calm root) (hafter : after.Calm root) (hsteps : FileTree.Steps tree (before ++
      ((session.env.downloadBindings (reference.outputDir root) 0 bindings).trace ++
        [(.write (manifestPath (reference.outputDir root)) content, true)] ++ after)) tree') :
    Put.After (reference.outputDir root) tree
      (session.env.allPuts (reference.outputDir root) bindings content) tree' := by
  rcases FileTree.steps_append.mp hsteps with ⟨_, hfirst, hsteps⟩
  rcases FileTree.steps_append.mp hsteps with ⟨_, hsteps, hlast⟩
  rcases FileTree.steps_append.mp hsteps with ⟨_, hdownloads, _, hwrite, hend⟩
  cases hwrite
  cases hend
  have hfiles := after_downloadBindings hpulled.joined hdone hdownloads
  have hall := ((hbefore.after hfirst).append (hfiles.append
    (Put.after_write (reference.outputDir root) _ content))).append (hafter.after hlast)
  rw [List.nil_append, List.append_nil] at hall
  exact hall

end Run

section Whole

variable {root : Path} {reference : TaggedReference}

namespace Session

variable {session : Session} {remote : RemoteImage} {manifest : Image.Manifest}
  {bindings : List ArtifactBinding} {content : List UInt8}

theorem Pulled.untouched_iff {dir : Path} {uki root verity : ArtifactBinding}
    {log : List ArtifactBinding}
    (h : session.Pulled remote manifest (uki :: root :: verity :: log) content) :
    session.env.Untouched dir uki root verity log content ↔ Apart manifest remote.layers := by
  have hjoined := h.joined
  rcases h.artifacts with ⟨_, _, _, _, heq, ⟨-, huki⟩, ⟨-, hroot⟩, ⟨-, hverity⟩, hlog⟩
  cases heq
  simp only [List.forall_mem_cons] at hjoined
  rcases hjoined with ⟨hk, hs, hv, hl⟩
  have hlater : ∀ other ∈ verity :: log, Joined other.localName :=
    List.forall_mem_cons.mpr ⟨hv, hl⟩
  unfold Environment.Untouched Apart
  rw [Environment.untouched_iff hk (List.forall_mem_cons.mpr ⟨hs, hlater⟩),
    Environment.untouched_iff hs hlater, Environment.untouched_iff hv hl]
  simp only [List.map_cons, huki, hroot, hverity, hlog]

theorem Pulled.stored_iff {dir : Path} {tree tree' : FileTree}
    (h : session.Pulled remote manifest bindings content)
    (hafter : Put.After dir tree (session.env.allPuts dir bindings content) tree') :
    Stored session.env dir manifest remote.layers tree' ↔
      session.env.Settled dir bindings content := by
  have hjoined := h.joined
  rcases h.artifacts with ⟨uki, root, verity, log, rfl, ⟨huki, hkernel⟩, ⟨hroot, hstore⟩,
    ⟨hverity, hverityName⟩, -⟩
  simp only [List.forall_mem_cons] at hjoined
  rcases hjoined with ⟨hk, hs, hv, -⟩
  have hmanifest : tree' (manifestPath dir) = some (.file content) := by
    have hput := hafter.file_iff_settled ⟨none, manifestPath dir, content⟩
      (List.mem_append_right _ List.mem_cons_self) (isPrefix_manifestPath dir)
    exact hput.mpr (Put.settled_of_untouched _ _ fun _ hin => absurd hin List.not_mem_nil)
  have hat0 := hafter.file_iff_settled (session.env.put dir 0 uki) List.mem_cons_self
    (hk.localName dir).isPrefix
  have hat1 := hafter.file_iff_settled (session.env.put dir 1 root)
    (List.mem_cons_of_mem _ List.mem_cons_self) (hs.localName dir).isPrefix
  have hat2 := hafter.file_iff_settled (session.env.put dir 2 verity)
    (List.mem_cons_of_mem _ (List.mem_cons_of_mem _ List.mem_cons_self)) (hv.localName dir).isPrefix
  rw [Environment.settled_iff, ← hat0, ← hat1, ← hat2]
  unfold Stored
  rw [huki, hroot, hverity, ← hkernel, ← hstore, ← hverityName, h.serialize]
  constructor
  · intro hstored
    rcases hstored with ⟨⟨_, hblob0, h0⟩, ⟨_, hblob1, h1⟩, ⟨_, hblob2, h2⟩, -⟩
    cases hblob0
    cases hblob1
    cases hblob2
    exact ⟨h0, h1, h2⟩
  · intro hat
    exact ⟨⟨_, rfl, hat.1⟩, ⟨_, rfl, hat.2.1⟩, ⟨_, rfl, hat.2.2⟩, content, rfl, hmanifest⟩

end Session

/-! ## The files of a pull by their names -/

def putNamed (dir : Path) (file : String × List UInt8) : Put :=
  ⟨some (dir.join (file.1 ++ ".part").toList), dir.join file.1.toList, file.2⟩

namespace Environment

variable {env : Environment} {dir : Path} {i : Nat} {bindings : List ArtifactBinding}
  {content bytes : List UInt8} {name : String}

/-- The names and the bytes of the artifacts from number `i` on, in the order of their
downloads. -/
def files (env : Environment) : Nat → List ArtifactBinding → List (String × List UInt8)
  | _, [] => []
  | i, binding :: bindings =>
      (binding.localName, (env.download i binding.blob).1) :: files env (i + 1) bindings

theorem puts_eq_files (h : ∀ binding ∈ bindings, Joined binding.localName) :
    env.puts dir i bindings = (env.files i bindings).map (putNamed dir) := by
  induction bindings generalizing i with
  | nil => rfl
  | cons binding bindings ih =>
      rw [List.forall_mem_cons] at h
      rw [puts, files, List.map_cons, ← ih h.2, putNamed, ← (joined_part h.1).2]
      rfl

theorem joined_of_mem_files (h : ∀ binding ∈ bindings, Joined binding.localName) :
    ∀ file ∈ env.files i bindings, Joined file.1 := by
  induction bindings generalizing i with
  | nil => exact fun _ hin => absurd hin List.not_mem_nil
  | cons binding bindings ih =>
      rw [List.forall_mem_cons] at h
      exact List.forall_mem_cons.mpr ⟨h.1, ih h.2⟩

end Environment

/-- A pull that downloads these files and then writes `content` to `manifest.json` leaves
`bytes` under the name: the last file that has the name, or whose temporary file has it, is
called so itself and has the bytes. -/
def Remains (files : List (String × List UInt8)) (content : List UInt8) (name : String)
    (bytes : List UInt8) : Prop :=
  if name = "manifest.json" then content = bytes
  else (files.filter fun file => file.1 = name ∨ file.1 ++ ".part" = name).getLast? =
    some (name, bytes)

instance (files : List (String × List UInt8)) (content : List UInt8) (name : String)
    (bytes : List UInt8) : Decidable (Remains files content name bytes) :=
  inferInstanceAs (Decidable (ite _ _ _))

section Remains

variable {files : List (String × List UInt8)} {content bytes : List UInt8} {name : String}

theorem putNamed_touches_iff {dir : Path} {file : String × List UInt8} (hfile : Joined file.1)
    (hname : Joined name) :
    (putNamed dir file).Touches (dir.join name.toList) ↔
      file.1 = name ∨ file.1 ++ ".part" = name := by
  unfold Put.Touches putNamed
  rw [Option.some_inj]
  exact or_congr (join_inj_of_joined dir hfile hname)
    (join_inj_of_joined dir (joined_part hfile).1 hname)

theorem lastTouch_putNamed (dir : Path) (hfiles : ∀ file ∈ files, Joined file.1)
    (hname : Joined name) :
    Put.lastTouch (files.map (putNamed dir)) (dir.join name.toList) =
      (files.filter fun file => file.1 = name ∨ file.1 ++ ".part" = name).getLast?.map
        (putNamed dir) := by
  have hsame : files.filter (fun file => (putNamed dir file).Touches (dir.join name.toList)) =
      files.filter fun file => file.1 = name ∨ file.1 ++ ".part" = name := by
    refine List.filter_congr fun file hin => ?_
    rw [decide_eq_decide]
    exact putNamed_touches_iff (hfiles file hin) hname
  rw [Put.lastTouch, List.filter_map, List.getLast?_map, ← hsame]
  rfl

theorem remains_iff_settled (dir : Path) (temp : Option Path)
    (hfiles : ∀ file ∈ files, Joined file.1) (hname : Joined name) :
    Remains files content name bytes ↔
      Put.Settled (files.map (putNamed dir) ++ [⟨none, manifestPath dir, content⟩])
        ⟨temp, dir.join name.toList, bytes⟩ := by
  unfold Remains Put.Settled
  rw [Put.lastTouch_append]
  by_cases hmanifest : name = "manifest.json"
  · subst hmanifest
    have hlast : Put.lastTouch [⟨none, manifestPath dir, content⟩]
        (dir.join "manifest.json".toList) = some ⟨none, manifestPath dir, content⟩ :=
      Put.lastTouch_self _
    rw [hlast, Option.some_or, if_pos rfl]
    constructor
    · intro hbytes
      exact ⟨_, rfl, rfl, hbytes⟩
    · rintro ⟨last, hlast, -, hbytes⟩
      cases hlast
      exact hbytes
  · have hnone : Put.lastTouch [⟨none, manifestPath dir, content⟩] (dir.join name.toList) =
        none := by
      refine Put.lastTouch_eq_none.mpr (List.forall_mem_singleton.mpr ?_)
      rintro (htarget | htemp)
      · exact hmanifest ((join_inj_of_joined dir joined_manifest hname).mp htarget).symm
      · cases htemp
    rw [hnone, Option.none_or, lastTouch_putNamed dir hfiles hname, if_neg hmanifest]
    constructor
    · intro hlast
      rw [hlast]
      exact ⟨_, rfl, rfl, rfl⟩
    · rintro ⟨last, hlast, htarget, hbytes⟩
      rcases Option.map_eq_some_iff.mp hlast with ⟨file, hfile, rfl⟩
      have hin : file ∈ files := (List.mem_filter.mp (List.mem_of_getLast? hfile)).1
      have hsame : file.1 = name := (join_inj_of_joined dir (hfiles file hin) hname).mp htarget
      rw [hfile]
      exact congrArg some (Prod.ext hsame hbytes)

/-- The three artifacts of the manifest remain. -/
def Environment.ArtifactsRemain (env : Environment) (bindings : List ArtifactBinding)
    (content : List UInt8) : Prop :=
  ∀ file ∈ (env.files 0 bindings).take 3, Remains (env.files 0 bindings) content file.1 file.2

theorem Session.Selected.artifactsRemain_iff {session : Session} {remote : RemoteImage}
    {manifest : Image.Manifest} {bindings : List ArtifactBinding}
    (h : session.Selected remote manifest bindings) (dir : Path) :
    session.env.ArtifactsRemain bindings content ↔ session.env.Settled dir bindings content := by
  have hfiles : ∀ file ∈ session.env.files 0 bindings, Joined file.1 :=
    Environment.joined_of_mem_files h.joined
  have htake : (session.env.allPuts dir bindings content).take 3 =
      ((session.env.files 0 bindings).take 3).map (putNamed dir) := by
    rw [List.map_take, ← Environment.puts_eq_files h.joined]
    rcases h.artifacts with ⟨uki, root, verity, log, rfl, -⟩
    rfl
  unfold Environment.ArtifactsRemain Environment.Settled
  rw [htake, List.forall_mem_map]
  refine forall₂_congr fun file hin => ?_
  rw [remains_iff_settled dir _ hfiles (hfiles file (List.mem_of_mem_take hin)),
    ← Environment.puts_eq_files h.joined]
  rfl

end Remains

/-- A pull that returns has stored the blobs its manifest names exactly when the last write
to the place of each artifact is the artifact, or one with the same bytes. Names that are
apart are enough for that, and for files that differ they are needed. -/
theorem pullUpdate_stores_iff {session : Session} {result : PullResult} {tree tree' : FileTree}
    (hok : (session.pullUpdate root reference).result = .ok result)
    (hsteps : FileTree.Steps tree (session.pullUpdate root reference).trace tree') :
    ∃ remote manifest bindings content, session.Pulled remote manifest bindings content ∧
      (Stored session.env (reference.outputDir root) manifest remote.layers tree' ↔
        session.env.Settled (reference.outputDir root) bindings content) ∧
      (Apart manifest remote.layers →
        Stored session.env (reference.outputDir root) manifest remote.layers tree') ∧
      (((session.env.allPuts (reference.outputDir root) bindings content).map
        (·.content)).Nodup →
        Stored session.env (reference.outputDir root) manifest remote.layers tree' →
          Apart manifest remote.layers) := by
  rcases session.pulled_of_ok hok with
    ⟨remote, manifest, bindings, content, hpulled, hdone, before, after, hbefore, hlast, htrace⟩
  rw [htrace] at hsteps
  have hafter := after_written hpulled hdone hbefore hlast hsteps
  have hstored := hpulled.stored_iff hafter
  have hartifacts := hpulled.artifacts
  refine ⟨remote, manifest, bindings, content, hpulled, hstored, ?_, ?_⟩
  · intro hapart
    rcases hartifacts with ⟨uki, rootfs, verity, log, rfl, -⟩
    exact hstored.mpr (Environment.settled_of_untouched (hpulled.untouched_iff.mpr hapart))
  · intro hcontents hfiles
    rcases hartifacts with ⟨uki, rootfs, verity, log, rfl, -⟩
    exact hpulled.untouched_iff.mp
      (Environment.untouched_of_settled hcontents (hstored.mp hfiles))

end Whole

section Sample

/-- The SHA-256 sums of the bytes 0 to 3, each on its own. -/
def byteSum : Nat → Vector UInt8 32
  | 0 =>
    #v[110, 52, 11, 156, 255, 179, 122, 152, 156, 165, 68, 230, 187, 120, 10, 44, 120, 144, 29, 63,
      179, 55, 56, 118, 133, 17, 163, 6, 23, 175, 160, 29]
  | 1 => oneSum
  | 2 =>
    #v[219, 193, 180, 201, 0, 255, 228, 141, 87, 91, 93, 165, 198, 56, 4, 1, 37, 246, 93, 176, 254,
      62, 36, 73, 75, 118, 234, 152, 100, 87, 217, 134]
  | _ =>
    #v[8, 79, 237, 8, 185, 120, 175, 77, 125, 25, 106, 116, 70, 168, 107, 88, 0, 158, 99, 107, 97,
      29, 177, 98, 17, 182, 90, 154, 173, 255, 41, 197]

def namedManifest (kernel store verity : String) : Image.Manifest :=
  { hostileManifest with
    kernel := ⟨kernel, byteSum 0, none⟩
    store := ⟨store, byteSum 1, none⟩
    verity := ⟨verity, byteSum 2, none⟩ }

def namedLayers : List BlobDescriptor :=
  [⟨digestOf (byteSum 0), MediaType.uki.asRef, 1, none⟩,
    ⟨digestOf (byteSum 1), MediaType.root.asRef, 1, none⟩,
    ⟨digestOf (byteSum 2), MediaType.verity.asRef, 1, none⟩]

def titledLayers (changelog : String) : List BlobDescriptor :=
  namedLayers ++ [⟨digestOf (byteSum 3), MediaType.changelog.asRef, 1,
    some [("org.opencontainers.image.title", changelog)]⟩]

/-- A registry whose image has these names, and whose blobs are told apart by their bytes. -/
def namedSession (kernel store verity changelog : String) : Session where
  env :=
    { deserialize := (namedManifest kernel store verity).parse
      serialize _ := .ok [9]
      refused _ _ := none
      download i _ := ([UInt8.ofNat i], .ok ()) }
  refused _ := none
  owner := []
  fetch := .fetched ⟨(namedManifest kernel store verity).text, titledLayers changelog⟩
  afterwards := .ok ()

def pulledTree (session : Session) : FileTree :=
  (FileTree.only updatesRoot).after (session.pullUpdate updatesRoot ghafV1).trace

def Session.Returns (session : Session) : Prop :=
  (session.pullUpdate updatesRoot ghafV1).result =
      .ok ⟨ghafV1.outputDir updatesRoot, storedManifest ghafV1⟩ ∧
    (session.pullUpdate updatesRoot ghafV1).trace.all (·.2) = true

instance (session : Session) : Decidable session.Returns :=
  inferInstanceAs (Decidable (_ ∧ _))

/-- What a pull of the session leaves under the name. -/
def leftAt (session : Session) (name : String) : Option Node :=
  pulledTree session ((ghafV1.outputDir updatesRoot).join name.toList)

theorem pullUpdate_namedSession (kernel store verity changelog : String) :
    (namedSession kernel store verity changelog).pullUpdate updatesRoot ghafV1 =
      ((namedSession kernel store verity changelog).withParser fun _ =>
        some (namedManifest kernel store verity)).pullUpdate updatesRoot ghafV1 :=
  (pullUpdate_withParser rfl (namedManifest kernel store verity).parse_text rfl _ _).symm

theorem pullUpdate_stores_iff_apart :
    Stored (namedSession "uki" "root" "verity" "log").env (ghafV1.outputDir updatesRoot)
      (namedManifest "uki" "root" "verity") (titledLayers "log")
      (pulledTree (namedSession "uki" "root" "verity" "log")) := by
  have hsamples : (namedSession "uki" "root" "verity" "log").Returns ∧
      Manifest.normalizePaths (namedManifest "uki" "root" "verity") =
        .ok (namedManifest "uki" "root" "verity") ∧
      Apart (namedManifest "uki" "root" "verity") (titledLayers "log") := by
    unfold Session.Returns
    rw [pullUpdate_namedSession]
    decide +kernel
  rcases hsamples with ⟨⟨hok, hdone⟩, hnormal, hapart⟩
  rcases pullUpdate_stores_iff hok (FileTree.steps_after (List.all_eq_true.mp hdone)) with
    ⟨remote, manifest, bindings, content, hpulled, -, hstored, -⟩
  rcases hpulled.parse with ⟨parsed, hparsed, hmanifest⟩
  cases hpulled.fetch
  cases (congrArg (Outcome.context · _)
    (namedManifest "uki" "root" "verity").parse_text).symm.trans hparsed
  cases hnormal.symm.trans hmanifest
  exact hstored hapart

/-- Two artifacts with one name; an artifact that is called like the temporary file of the
next one; a changelog that is called like an artifact; and an artifact that is called like
the manifest. -/
theorem pullUpdate_overwrites_artifacts :
    ((namedSession "image" "image" "verity" "log").Returns ∧
      leftAt (namedSession "image" "image" "verity" "log") "image" = some (.file [1])) ∧
    ((namedSession "root.part" "root" "verity" "log").Returns ∧
      leftAt (namedSession "root.part" "root" "verity" "log") "root.part" = none) ∧
    ((namedSession "uki" "root" "verity" "uki").Returns ∧
      leftAt (namedSession "uki" "root" "verity" "uki") "uki" = some (.file [3])) ∧
    (namedSession "manifest.json" "root" "verity" "log").Returns ∧
      leftAt (namedSession "manifest.json" "root" "verity" "log") "manifest.json" =
        some (.file [9]) := by
  unfold leftAt pulledTree Session.Returns
  simp only [pullUpdate_namedSession]
  decide +kernel

end Sample

end GhafGivc.Pull
