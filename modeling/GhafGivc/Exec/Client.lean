import GhafGivc.Core.Fallible
import GhafGivc.Exec.Output

/-! # Remote commands of the update service

The client of the exec server collects the responses of one command and returns the code
of the Finished event. The update service runs `ota-update` on the host through it.
-/

namespace GhafGivc.Exec

open Core

/-- What follows the messages of a response stream. -/
inductive Trailers where
  | absent
  | status (code : Nat) (message : String)
  | invalid
deriving DecidableEq

/-- A response stream: its messages, of which some carry no event, a failure of the
transport after them, and the trailers. -/
structure Replies where
  messages : List (Option CommandResponse)
  failure : Option String
  trailers : Trailers
deriving DecidableEq

/-- The exec server as a client reaches it. -/
structure Remote where
  connect : Except String Unit
  runCommand : StartCommand → Except String Replies

def checkTrailers (replies : Replies) : Except String Unit :=
  match replies.failure, replies.trailers with
  -- the rest of the stream is drained first
  | some e, _ => .error e
  | none, .absent => .ok ()
  | none, .status code message => if code = 0 then .ok () else .error message
  | none, .invalid => .error "invalid grpc-status trailer"

/-- Output handed to a callback of the caller. -/
structure Chunk where
  output : Output
  payload : Bytes
deriving DecidableEq

/-- The loop over the responses, with the return code it ends with. -/
def receive (failure : Option String) : List (Option CommandResponse) → Traced Chunk String Int32
  | [] =>
      match failure with
      | some e => Traced.call (.error e)
      | none => pure (-1)
  | some (.stdout payload) :: rest => do
      Traced.emit ⟨.stdout, payload⟩
      receive failure rest
  | some (.stderr payload) :: rest => do
      Traced.emit ⟨.stderr, payload⟩
      receive failure rest
  | some (.finished rc) :: _ => pure rc
  | some (.started _) :: rest | none :: rest => receive failure rest

namespace Remote

def startCommand (remote : Remote) (start : StartCommand) : Traced Chunk String Int32 := do
  let replies ← Traced.call (remote.runCommand start)
  let rc ← receive replies.failure replies.messages
  Traced.call (checkTrailers replies)
  pure rc

def getProgramOutput (remote : Remote) (start : StartCommand) :
    Outcome String (Bytes × Bytes × Int32) := do
  let program := remote.startCommand start
  let collect (o : Output) := program.trace.flatMap fun c => if c.output = o then c.payload else []
  let rc ← program.result
  pure (collect .stdout, collect .stderr, rc)

end Remote

/-! ## The update service -/

/-- The fields that are passed on; `storePath` is what `into_string` gives. -/
structure GenerationDetails where
  generation : Int32
  nixosVersion : String
  kernelVersion : String
  configurationRevision : Option String
  storePath : Except Bytes String
  current : Bool

structure Generation where
  generation : Int32
  date : String
  nixosVersion : String
  kernelVersion : String
  configurationRevision : String
  specialisations : List String
  current : Bool
  storePath : String
deriving DecidableEq

def GenerationDetails.toGeneration (g : GenerationDetails) : Outcome String Generation :=
  match g.storePath with
  | .error _ => .err "Decode UTF-8"
  | .ok storePath =>
      .ok ⟨g.generation, "bogus", g.nixosVersion, g.kernelVersion,
        g.configurationRevision.getD "unknown", [], g.current, storePath⟩

structure Cachix where
  pin : String
  cache : String
  token : Option String
  cachixHost : Option String
deriving DecidableEq

structure SetGenerationResponse where
  finished : Bool
  output : Option String
  error : Option String
deriving DecidableEq

/-- The texts of bytes and the JSON of the generations, as their libraries read them. -/
structure Decoders where
  lossy : Bytes → String
  generations : Bytes → Except String (List GenerationDetails)

namespace Ota

def command (arguments : List String) : StartCommand := ⟨"ota-update", arguments, none, [], none⟩

def getCommand : StartCommand := command ["get"]

def cachixCommand (req : Cachix) : StartCommand :=
  command (["cachix", req.pin, "--cache", req.cache] ++
    (match req.token with
      | some token => ["--token", token]
      | none => []) ++
    match req.cachixHost with
      | some host => ["--cachix-host", host]
      | none => [])

def list (decode : Decoders) (remote : Remote) : Outcome String (List Generation) :=
  match remote.connect with
  | .error e => .err e
  | .ok () => do
      let (stdout, stderr, rc) ← remote.getProgramOutput getCommand
      if 0 < rc then .err ("Exec error: " ++ decode.lossy stderr)
      else
        match decode.generations stdout with
        | .error e => .err e
        | .ok gens => gens.mapM GenerationDetails.toGeneration

/-- The response stream of an installation: its items, then its end. -/
def installViaCachix (decode : Decoders) (remote : Remote) (req : Cachix) :
    Except String (Traced SetGenerationResponse String Unit) := do
  remote.connect
  let program := remote.startCommand (cachixCommand req)
  let items := program.trace.map fun c =>
    match c.output with
    | .stdout => (⟨false, some (decode.lossy c.payload), none⟩ : SetGenerationResponse)
    | .stderr => ⟨false, none, some (decode.lossy c.payload)⟩
  pure ⟨items ++ (match program.result with
      | .ok _ => [⟨true, none, none⟩]
      | _ => []),
    do
      let rc ← program.result
      if 0 < rc then .err ("Execution of ota-update failed, RC code is " ++ toString rc.toInt)
      else pure ()⟩

end Ota

/-! ## What a reported success says -/

/-- How the process really ended. -/
inductive Termination where
  | exited (code : Int32)
  | killed (signal : Nat)
deriving DecidableEq

/-- What `Cmd.Wait` returns in the agent; it may fail on its own account. -/
def Termination.wait (t : Termination) (failure : Option String) : WaitResult :=
  match failure, t with
  | some e, _ => .otherError e
  | none, .exited code => if code = 0 then .success else .exitError code.toInt
  | none, .killed _ => .exitError (-1)

def CommandResponse.finished? : Option CommandResponse → Option Int32
  | some (.finished rc) => some rc
  | _ => none

/-- The code of the first Finished event, and the default without one. -/
def Replies.returnCode (replies : Replies) : Int32 :=
  (replies.messages.findSome? CommandResponse.finished?).getD (-1)

def Replies.Finished (replies : Replies) (rc : Int32) : Prop :=
  some (.finished rc) ∈ replies.messages

def Remote.answer (remote : Remote) (start : StartCommand) : Except String Replies :=
  match remote.connect with
  | .error e => .error e
  | .ok () => remote.runCommand start

/-- The agent fills in the code of a Finished event from the end of the process. -/
def Reported (answer : Except String Replies) (t : Termination) (failure : Option String) : Prop :=
  ∀ replies, answer = .ok replies → ∀ rc, replies.Finished rc →
    rc = Int32.ofInt (t.wait failure).exitCode

/-- A Finished event with code 0 was received and the process did exit with 0. -/
def Succeeded (answer : Except String Replies) (t : Termination) : Prop :=
  ∃ replies, answer = .ok replies ∧ replies.Finished 0 ∧ t = .exited 0

def ListTruthful (decode : Decoders) (remote : Remote) (t : Termination) : Prop :=
  ∀ gens, Ota.list decode remote = .ok gens → Succeeded (remote.answer Ota.getCommand) t

def InstallTruthful (decode : Decoders) (remote : Remote) (req : Cachix) (t : Termination) : Prop :=
  ∀ stream, Ota.installViaCachix decode remote req = .ok stream → stream.result = .ok () →
    Succeeded (remote.answer (Ota.cachixCommand req)) t

def CommandResponse.stdout? : Option CommandResponse → Bytes
  | some (.stdout payload) => payload
  | _ => []

/-- The standard output that precedes the first Finished event. -/
def Replies.stdout (replies : Replies) : Bytes :=
  (replies.messages.takeWhile (CommandResponse.finished? · = none)).flatMap CommandResponse.stdout?

/-- The output is the JSON of a list of generations whose store paths are texts. -/
def Decoders.Accepts (decode : Decoders) (stdout : Bytes) : Prop :=
  ∃ gens, decode.generations stdout = .ok gens ∧ ∀ g ∈ gens, ∃ path, g.storePath = .ok path

/-- The stream carries a Finished event, and the process exited with 0, or with a positive
code that `Cmd.Wait` could report. -/
def Replies.Conclusive (replies : Replies) (t : Termination) (failure : Option String) : Prop :=
  (∃ rc, replies.Finished rc) ∧
    (t = .exited 0 ∨ ∃ code, 0 < code ∧ t = .exited code ∧ failure = none)

section Client

variable {remote : Remote} {start : StartCommand} {replies : Replies} {rc : Int32} {t : Termination}
  {failure : Option String} {decode : Decoders}

theorem receive_result (messages : List (Option CommandResponse)) :
    (receive none messages).result =
      .ok ((messages.findSome? CommandResponse.finished?).getD (-1)) := by
  induction messages with
  | nil => rfl
  | cons m ms ih =>
      cases m with
      | none => simpa [receive, List.findSome?_cons, CommandResponse.finished?] using ih
      | some response =>
          cases response <;>
            simp [receive, List.findSome?_cons, CommandResponse.finished?, ih]

theorem failure_of_checkTrailers (h : checkTrailers replies = .ok ()) : replies.failure = none := by
  cases hf : replies.failure with
  | none => rfl
  | some e => simp [checkTrailers, hf] at h

theorem startCommand_result_eq_ok :
    (remote.startCommand start).result = .ok rc ↔
      ∃ replies, remote.runCommand start = .ok replies ∧ checkTrailers replies = .ok () ∧
        rc = replies.returnCode := by
  unfold Remote.startCommand
  simp only [Traced.result_bind, Outcome.bind_eq_ok, Traced.result_call_eq_ok]
  refine exists_congr fun replies => and_congr_right fun _ => ?_
  constructor
  · rintro ⟨rc', hrc, ⟨⟩, htrailers, hpure⟩
    rw [failure_of_checkTrailers htrailers, receive_result] at hrc
    cases hpure
    exact ⟨htrailers, (Outcome.ok.inj hrc).symm⟩
  · rintro ⟨htrailers, rfl⟩
    refine ⟨_, ?_, (), htrailers, rfl⟩
    rw [failure_of_checkTrailers htrailers, receive_result]
    rfl

theorem returnCode_of_reported
    (h : ∀ rc, replies.Finished rc → rc = Int32.ofInt (t.wait failure).exitCode) :
    ((∃ rc, replies.Finished rc) ∧ replies.Finished replies.returnCode ∧
        replies.returnCode = Int32.ofInt (t.wait failure).exitCode) ∨
      ((∀ rc, ¬ replies.Finished rc) ∧ replies.returnCode = -1) := by
  cases hfind : replies.messages.findSome? CommandResponse.finished? with
  | none =>
      refine Or.inr ⟨fun rc hrc => ?_, by simp [Replies.returnCode, hfind]⟩
      have hnone := List.findSome?_eq_none_iff.mp hfind _ hrc
      simp [CommandResponse.finished?] at hnone
  | some rc =>
      obtain ⟨m, hm, hrc⟩ := List.exists_of_findSome?_eq_some hfind
      have hfin : replies.Finished rc := by
        unfold CommandResponse.finished? at hrc
        split at hrc
        · cases hrc
          exact hm
        · cases hrc
      have hcode : replies.returnCode = rc := by simp [Replies.returnCode, hfind]
      rw [hcode]
      exact Or.inl ⟨⟨rc, hfin⟩, hfin, h rc hfin⟩

theorem exitCode_exited_zero (failure : Option String) :
    Int32.ofInt ((Termination.exited 0).wait failure).exitCode = 0 := by
  cases failure <;> rfl

theorem exitCode_pos_iff :
    0 < Int32.ofInt (t.wait failure).exitCode ↔
      ∃ code, 0 < code ∧ t = .exited code ∧ failure = none := by
  cases failure with
  | some e => simp [Termination.wait, WaitResult.exitCode]
  | none =>
      cases t with
      | killed signal =>
          simp only [Termination.wait, WaitResult.exitCode, reduceCtorEq, false_and, and_false,
            exists_false, iff_false]
          decide
      | exited code =>
          by_cases hc : code = 0
          · subst hc
            simp [Termination.wait, WaitResult.exitCode]
          · simp [Termination.wait, WaitResult.exitCode, hc]

/-- A code that is not positive stands for success exactly in the conclusive cases. -/
theorem succeeded_iff_conclusive (h : Reported (remote.answer start) t failure)
    (hanswer : remote.answer start = .ok replies) :
    (¬ 0 < replies.returnCode → Succeeded (remote.answer start) t) ↔
      replies.Conclusive t failure := by
  have hcode := returnCode_of_reported (h replies hanswer)
  constructor
  · intro hsucc
    rcases hcode with ⟨hfin, _, hrc⟩ | ⟨hnone, hrc⟩
    · refine ⟨hfin, ?_⟩
      by_cases hpos : 0 < replies.returnCode
      · exact Or.inr (exitCode_pos_iff.mp (hrc ▸ hpos))
      · obtain ⟨_, _, _, ht⟩ := hsucc hpos
        exact Or.inl ht
    · obtain ⟨replies', hanswer', hfin, _⟩ := hsucc (by rw [hrc]; decide)
      obtain rfl := Except.ok.inj (hanswer.symm.trans hanswer')
      exact absurd hfin (hnone 0)
  · rintro ⟨⟨rc, hrc'⟩, ht⟩ hpos
    obtain ⟨_, hfin, hrc⟩ | ⟨hnone, _⟩ := hcode
    · rcases ht with rfl | ht
      · rw [exitCode_exited_zero] at hrc
        exact ⟨replies, hanswer, hrc ▸ hfin, rfl⟩
      · exact absurd (hrc ▸ exitCode_pos_iff.mpr ht) hpos
    · exact absurd hrc' (hnone rc)

theorem answer_of_connect (h : remote.connect = .ok ()) :
    remote.answer start = remote.runCommand start := by
  simp [Remote.answer, h]

theorem receive_stdout (messages : List (Option CommandResponse)) :
    ((receive none messages).trace.flatMap fun c => if c.output = .stdout then c.payload else []) =
      (messages.takeWhile (CommandResponse.finished? · = none)).flatMap
        CommandResponse.stdout? := by
  induction messages with
  | nil => rfl
  | cons m ms ih =>
      cases m with
      | none => simpa [receive, CommandResponse.finished?, CommandResponse.stdout?] using ih
      | some response =>
          cases response <;>
            simp [receive, CommandResponse.finished?, CommandResponse.stdout?, ih]

theorem getProgramOutput_of_replies (hreplies : remote.runCommand start = .ok replies)
    (htrailers : checkTrailers replies = .ok ()) :
    ∃ stderr, remote.getProgramOutput start = .ok (replies.stdout, stderr, replies.returnCode) := by
  have hresult := startCommand_result_eq_ok.mpr ⟨replies, hreplies, htrailers, rfl⟩
  have htrace : (remote.startCommand start).trace = (receive none replies.messages).trace := by
    simp [Remote.startCommand, hreplies, failure_of_checkTrailers htrailers, htrailers,
      Traced.trace_bind_of_ok (receive_result replies.messages)]
  refine ⟨(receive none replies.messages).trace.flatMap fun c =>
    if c.output = .stderr then c.payload else [], ?_⟩
  rw [Remote.getProgramOutput, hresult, Outcome.ok_bind, htrace, Replies.stdout,
    ← receive_stdout]
  rfl

theorem getProgramOutput_eq_ok {output : Bytes × Bytes × Int32}
    (h : remote.getProgramOutput start = .ok output) :
    ∃ replies, remote.runCommand start = .ok replies ∧ checkTrailers replies = .ok () ∧
      output.1 = replies.stdout ∧ output.2.2 = replies.returnCode := by
  obtain ⟨rc, hrc, _⟩ := Outcome.bind_eq_ok.mp h
  obtain ⟨replies, hreplies, htrailers, _⟩ := startCommand_result_eq_ok.mp hrc
  obtain ⟨stderr, hout⟩ := getProgramOutput_of_replies hreplies htrailers
  cases hout.symm.trans h
  exact ⟨replies, hreplies, htrailers, rfl, rfl⟩

theorem toGeneration_eq_ok {g : GenerationDetails} :
    (∃ generation, g.toGeneration = .ok generation) ↔ ∃ path, g.storePath = .ok path := by
  unfold GenerationDetails.toGeneration
  cases g.storePath <;> simp

theorem list_eq_ok_iff :
    (∃ gens, Ota.list decode remote = .ok gens) ↔
      ∃ replies, remote.answer Ota.getCommand = .ok replies ∧ checkTrailers replies = .ok () ∧
        decode.Accepts replies.stdout ∧ ¬ 0 < replies.returnCode := by
  cases hc : remote.connect with
  | error e => simp [Ota.list, Remote.answer, hc]
  | ok u =>
      simp only [Ota.list, hc, answer_of_connect hc, Outcome.bind_eq_ok]
      constructor
      · intro h
        obtain ⟨gens, ⟨stdout, stderr, rc⟩, hout, h⟩ := h
        obtain ⟨replies, hreplies, htrailers, rfl, rfl⟩ := getProgramOutput_eq_ok hout
        by_cases hpos : 0 < replies.returnCode
        · simp [hpos] at h
        · cases hread : decode.generations replies.stdout with
          | error e => simp [hpos, hread] at h
          | ok details =>
              simp only [hpos, hread, if_false] at h
              have hpaths := Outcome.exists_mapM_eq_ok.mp ⟨gens, h⟩
              exact ⟨replies, hreplies, htrailers,
                ⟨details, hread, fun g hg => toGeneration_eq_ok.mp (hpaths g hg)⟩, hpos⟩
      · intro h
        obtain ⟨replies, hreplies, htrailers, ⟨details, hread, hpaths⟩, hpos⟩ := h
        obtain ⟨stderr, hout⟩ := getProgramOutput_of_replies hreplies htrailers
        obtain ⟨gens, hgens⟩ :=
          Outcome.exists_mapM_eq_ok.mpr fun g hg => toGeneration_eq_ok.mpr (hpaths g hg)
        refine ⟨gens, _, hout, ?_⟩
        simp [hpos, hread, hgens]

theorem listTruthful_iff :
    ListTruthful decode remote t ↔
      ∀ replies, remote.answer Ota.getCommand = .ok replies → checkTrailers replies = .ok () →
        decode.Accepts replies.stdout → ¬ 0 < replies.returnCode →
          Succeeded (remote.answer Ota.getCommand) t := by
  constructor
  · intro h replies hanswer htrailers haccepts hpos
    obtain ⟨gens, hlist⟩ := list_eq_ok_iff.mpr ⟨replies, hanswer, htrailers, haccepts, hpos⟩
    exact h gens hlist
  · intro h gens hlist
    obtain ⟨replies, hanswer, htrailers, haccepts, hpos⟩ := list_eq_ok_iff.mp ⟨gens, hlist⟩
    exact h replies hanswer htrailers haccepts hpos

/-- The installation stream ends well when the code is not positive. -/
theorem installViaCachix_ends_iff (decode : Decoders) (req : Cachix) :
    (∃ stream, Ota.installViaCachix decode remote req = .ok stream ∧ stream.result = .ok ()) ↔
      ∃ replies, remote.answer (Ota.cachixCommand req) = .ok replies ∧
        checkTrailers replies = .ok () ∧ ¬ 0 < replies.returnCode := by
  cases hc : remote.connect with
  | error e => simp [Ota.installViaCachix, Remote.answer, hc]
  | ok u =>
      simp only [Ota.installViaCachix, hc, Fallible.ok_bind, Fallible.pure_eq, Except.ok.injEq,
        exists_eq_left', answer_of_connect hc]
      constructor
      · intro h
        obtain ⟨rc, hrc, hpos⟩ := Outcome.bind_eq_ok.mp h
        obtain ⟨replies, hreplies, htrailers, rfl⟩ := startCommand_result_eq_ok.mp hrc
        refine ⟨replies, hreplies, htrailers, fun hlt => ?_⟩
        simp [hlt] at hpos
      · rintro ⟨replies, hreplies, htrailers, hpos⟩
        refine Outcome.bind_eq_ok.mpr ⟨replies.returnCode, ?_, by simp [hpos]⟩
        exact startCommand_result_eq_ok.mpr ⟨replies, hreplies, htrailers, rfl⟩

theorem installTruthful_iff {req : Cachix} :
    InstallTruthful decode remote req t ↔
      ∀ replies, remote.answer (Ota.cachixCommand req) = .ok replies →
        checkTrailers replies = .ok () → ¬ 0 < replies.returnCode →
          Succeeded (remote.answer (Ota.cachixCommand req)) t := by
  constructor
  · intro h replies hanswer htrailers hpos
    obtain ⟨stream, hstream, hend⟩ := (installViaCachix_ends_iff decode req).mpr
      ⟨replies, hanswer, htrailers, hpos⟩
    exact h stream hstream hend
  · intro h stream hstream hend
    obtain ⟨replies, hanswer, htrailers, hpos⟩ :=
      (installViaCachix_ends_iff decode req).mp ⟨stream, hstream, hend⟩
    exact h replies hanswer htrailers hpos

/-- An operation is reported successful only after the process exited with 0, exactly when
the streams that it can report are conclusive. -/
theorem ota_truthful_iff {decode : Decoders} {req : Cachix} {t t' : Termination}
    {failure failure' : Option String}
    (hlist : Reported (remote.answer Ota.getCommand) t failure)
    (hinstall : Reported (remote.answer (Ota.cachixCommand req)) t' failure') :
    ListTruthful decode remote t ∧ InstallTruthful decode remote req t' ↔
      (∀ replies, remote.answer Ota.getCommand = .ok replies → checkTrailers replies = .ok () →
        decode.Accepts replies.stdout → replies.Conclusive t failure) ∧
      ∀ replies, remote.answer (Ota.cachixCommand req) = .ok replies →
        checkTrailers replies = .ok () → replies.Conclusive t' failure' := by
  rw [listTruthful_iff, installTruthful_iff]
  refine and_congr ?_ ?_
  · refine forall_congr' fun replies => forall_congr' fun hanswer => ?_
    rw [succeeded_iff_conclusive hlist hanswer]
  · refine forall_congr' fun replies => forall_congr' fun hanswer => ?_
    rw [succeeded_iff_conclusive hinstall hanswer]

end Client

def sampleRequest : Cachix := ⟨"ghaf", "ghaf-dev", none, none⟩

def plainDecoders : Decoders where
  lossy bytes := String.ofList (bytes.map fun b => Char.ofNat b.toNat)
  generations bytes :=
    if bytes = [91, 93] then .ok [] else .error "expected value at line 1 column 1"

def answering (replies : Replies) : Remote := ⟨.ok (), fun _ => .ok replies⟩

def exitReplies (rc : Int32) : Replies :=
  ⟨[some (.started 7), some (.stdout [91, 93]), some (.finished rc)], none, .status 0 ""⟩

theorem reported_exitReplies {t : Termination} {rc : Int32} (failure : Option String)
    (start : StartCommand) (h : Int32.ofInt (t.wait failure).exitCode = rc) :
    Reported ((answering (exitReplies rc)).answer start) t failure := by
  intro replies hr rc' hfin
  obtain rfl := Except.ok.inj hr
  simpa [Replies.Finished, exitReplies, h] using hfin

theorem ota_truthful_iff_exitReplies :
    ListTruthful plainDecoders (answering (exitReplies 0)) (.exited 0) ∧
      InstallTruthful plainDecoders (answering (exitReplies 0)) sampleRequest (.exited 0) := by
  have hconclusive : (exitReplies 0).Conclusive (.exited 0) none :=
    ⟨⟨0, by simp [Replies.Finished, exitReplies]⟩, Or.inl rfl⟩
  refine (ota_truthful_iff (reported_exitReplies none Ota.getCommand (by decide))
    (reported_exitReplies none (Ota.cachixCommand sampleRequest) (by decide))).mpr ⟨?_, ?_⟩
  · intro replies hr _ _
    obtain rfl := Except.ok.inj hr
    exact hconclusive
  · intro replies hr _
    obtain rfl := Except.ok.inj hr
    exact hconclusive

/-- A process killed by a signal has the code -1, which is not positive. -/
theorem ota_reports_killed :
    Reported ((answering (exitReplies (-1))).answer (Ota.cachixCommand sampleRequest))
        (.killed 9) none ∧
      ¬ ListTruthful plainDecoders (answering (exitReplies (-1))) (.killed 9) ∧
      ¬ InstallTruthful plainDecoders (answering (exitReplies (-1))) sampleRequest
        (.killed 9) := by
  refine ⟨reported_exitReplies _ _ (by decide), fun h => ?_, fun h => ?_⟩
  · obtain ⟨_, _, _, ht⟩ := h [] rfl
    cases ht
  · obtain ⟨_, _, _, ht⟩ := h _ rfl rfl
    cases ht

end GhafGivc.Exec
