import GhafGivc.Exec.Transport

/-! # What a client can make the exec server do

Both results are about every message sequence and every behaviour of the host.
-/

namespace GhafGivc.Exec

open Core

/-- Messages after which the input loop reads no further: a second start command and,
without a writer to the process, input for it. -/
def CommandRequest.endsInput (writer : Bool) : CommandRequest → Bool
  | start _ => true
  | stdin _ => !writer
  | _ => false

/-- What the input loop reads of a message sequence while nothing else stops it. -/
def inputs (writer : Bool) : List CommandRequest → List CommandRequest
  | [] => []
  | request :: rest => request :: if request.endsInput writer then [] else inputs writer rest

/-- What the server reads of a message sequence while nothing else stops it. -/
def readable : List CommandRequest → List CommandRequest
  | [] => []
  | .start req :: rest => .start req :: inputs req.stdin.isSome rest
  | request :: _ => [request]

def obligingHost : Host where
  openStdio _ _ := .ok ()
  start _ := .ok 1
  send _ := .ok ()
  writeInitial _ := .ok ()
  cancelled _ := false
  write _ := .ok ()
  signal _ := .ok ()
  wait := .success

section Start

variable {host : Host} {req : StartCommand} {proc : Process}

theorem startCommand_emits :
    (startCommand host req).Emits fun e =>
      (∀ cmd, e = .spawned cmd → cmd.command = req.command) ∧ ∀ request, e ≠ .received request := by
  unfold startCommand
  refine (Traced.emits_call _).bind fun _ => (Traced.emits_call _).bind fun _ =>
    (Traced.emits_call _).bind fun _ => (Traced.emits_call _).bind fun pid =>
    (Traced.emits_emit ?_).bind fun _ => (Traced.emits_call _).bind fun _ =>
    (Traced.emits_emit (by simp)).bind fun _ => (Traced.emits_emit (by simp)).bind fun _ =>
    (Traced.emits_emit (by simp)).bind fun _ => ?_
  · simp
  · split
    · split
      · exact (Traced.emits_emit (by simp)).bind fun _ => Traced.emits_pure _
      · exact Traced.emits_call _
    · exact Traced.emits_pure _

theorem startCommand_ensures :
    (startCommand host req).Ensures fun proc => proc.stdin = req.stdin.isSome := by
  unfold startCommand
  refine (Traced.ensures_call _).bind fun _ _ => (Traced.ensures_call _).bind fun _ _ =>
    (Traced.ensures_call _).bind fun _ _ => (Traced.ensures_call _).bind fun pid _ =>
    (Traced.ensures_emit _).bind fun _ _ => (Traced.ensures_call _).bind fun _ _ =>
    (Traced.ensures_emit _).bind fun _ _ => (Traced.ensures_emit _).bind fun _ _ =>
    (Traced.ensures_emit _).bind fun _ _ => ?_
  split
  · rename_i payload hs
    rw [hs]
    split
    · exact (Traced.ensures_emit _).bind fun _ _ => Traced.ensures_pure rfl
    · exact Traced.ensures_error _
  · rename_i hs
    rw [hs]
    exact Traced.ensures_pure rfl

theorem startCommand_obligingHost (req : StartCommand) :
    ∃ proc, (startCommand obligingHost req).result = .ok proc ∧
      proc.stdin = req.stdin.isSome := by
  cases hs : req.stdin <;> simp [startCommand, obligingHost, hs]

end Start

/-! ## The input loop -/

/-- Effects that neither read a message nor spawn a process. -/
def Effect.IsReaction (e : Effect) : Prop :=
  (∀ cmd, e ≠ .spawned cmd) ∧ ∀ request, e ≠ .received request

/-- One turn of the input loop: it does not read, it returns after logging, it hits the
missing writer, or it reacts to the message and goes on. -/
inductive Turn (host : Host) (failure : Option String) (proc : Process) (i : Nat)
    (request : CommandRequest) (rest : List CommandRequest) : Action Unit → Prop
  | cancelled (h : host.cancelled i = true) : Turn host failure proc i request rest (pure ())
  | returned (message : String)
      (reason : request.endsInput proc.stdin = true ∨ (∃ e, host.write i = .error e) ∨
        ∃ e, host.signal i = .error e)
      (rejected : ∀ payload, request = .stdin payload → ∃ e, host.write i = .error e ∧
        message = "handleInput: write to stdin failed: " ++ e) :
      Turn host failure proc i request rest ⟨[.received request, .logged message], .ok ()⟩
  | crashed (payload : Bytes) (input : request = .stdin payload) (writer : proc.stdin = false) :
      Turn host failure proc i request rest ⟨[.received request], .panicked⟩
  | reacted (effect : Effect) (reaction : effect.IsReaction)
      (goesOn : request.endsInput proc.stdin = false)
      (written : ∀ payload, request = .stdin payload → effect = .wrote payload) :
      Turn host failure proc i request rest
        ⟨.received request :: effect ::
            (handleInput host failure (some proc) (i + 1) rest).trace,
          (handleInput host failure (some proc) (i + 1) rest).result⟩

section Input

variable {host : Host} {failure : Option String} {proc : Process} {rest : List CommandRequest}
  {writer : Bool} {request : CommandRequest}

theorem handleInput_turn (i : Nat) (request : CommandRequest) (rest : List CommandRequest) :
    Turn host failure proc i request rest
      (handleInput host failure (some proc) i (request :: rest)) := by
  obtain ⟨cmd, pid, writer⟩ := proc
  unfold handleInput
  split
  · rename_i hcancelled
    exact .cancelled hcancelled
  · cases request with
    | start req => exact .returned _ (Or.inl rfl) (fun _ h => nomatch h)
    | stdin payload =>
        cases writer with
        | false => exact .crashed payload rfl rfl
        | true =>
            cases hw : host.write i with
            | ok u =>
                refine .reacted (.wrote payload) ⟨by simp, by simp⟩ rfl fun p hp => ?_
                rw [CommandRequest.stdin.inj hp]
            | error e => exact .returned _ (Or.inr (Or.inl ⟨e, hw⟩)) fun _ _ => ⟨e, hw, rfl⟩
    | signal signal =>
        cases hw : host.signal i with
        | ok u => exact .reacted (.signalled signal) ⟨by simp, by simp⟩ rfl (fun _ h => nomatch h)
        | error e => exact .returned _ (Or.inr (Or.inr ⟨e, hw⟩)) (fun _ h => nomatch h)
    | unset => exact .reacted (.logged _) ⟨by simp, by simp⟩ rfl (fun _ h => nomatch h)

theorem mem_inputs_head : request ∈ inputs writer (request :: rest) := by
  simp [inputs]

theorem mem_inputs_tail {request r : CommandRequest} (hends : request.endsInput writer = false)
    (h : r ∈ inputs writer rest) : r ∈ inputs writer (request :: rest) := by
  simp [inputs, hends, h]

theorem mem_inputs_cons {request r : CommandRequest} (h : r ∈ inputs writer (request :: rest)) :
    r = request ∨ request.endsInput writer = false ∧ r ∈ inputs writer rest := by
  rcases List.mem_cons.mp h with rfl | h
  · exact Or.inl rfl
  · cases hends : request.endsInput writer <;> simp [hends] at h
    exact Or.inr ⟨rfl, h⟩

theorem handleInput_emits (i : Nat) (requests : List CommandRequest) :
    (handleInput host failure (some proc) i requests).Emits fun e =>
      (∀ cmd, e ≠ .spawned cmd) ∧
        ∀ request, e = .received request → request ∈ inputs proc.stdin requests := by
  induction requests generalizing i with
  | nil =>
      unfold handleInput
      split
      · exact Traced.emits_pure _
      · split
        · exact Traced.emits_pure _
        · exact Traced.emits_emit (by simp)
  | cons request rest ih =>
      intro e he
      have hhead : (∀ cmd, Effect.received request ≠ .spawned cmd) ∧
          ∀ r, Effect.received request = .received r → r ∈ inputs proc.stdin (request :: rest) :=
        ⟨by simp, fun r hr => Effect.received.inj hr ▸ mem_inputs_head⟩
      have hturn : Turn host failure proc i request rest _ := handleInput_turn i request rest
      generalize handleInput host failure (some proc) i (request :: rest) = turn at hturn he
      cases hturn with
      | cancelled => cases he
      | returned message =>
          rcases List.mem_cons.mp he with rfl | he
          · exact hhead
          · rw [List.mem_singleton.mp he]
            simp
      | crashed =>
          rw [List.mem_singleton.mp he]
          exact hhead
      | reacted effect reaction goesOn =>
          rcases List.mem_cons.mp he with rfl | he
          · exact hhead
          · rcases List.mem_cons.mp he with rfl | he
            · exact ⟨reaction.1, fun r hr => absurd hr (reaction.2 r)⟩
            · obtain ⟨hspawn, hread⟩ := ih (i + 1) e he
              exact ⟨hspawn, fun r hr => mem_inputs_tail goesOn (hread r hr)⟩

/-- A host that obliges stops the loop at no message before the end of the input. -/
theorem not_returned_of_obliging {i : Nat} (hends : request.endsInput proc.stdin = false) :
    ¬ (request.endsInput proc.stdin = true ∨ (∃ e, obligingHost.write i = .error e) ∨
      ∃ e, obligingHost.signal i = .error e) := by
  simp [hends, obligingHost]

theorem received_mem_handleInput {r : CommandRequest} (i : Nat) {requests : List CommandRequest}
    (h : r ∈ inputs proc.stdin requests) :
    .received r ∈ (handleInput obligingHost failure (some proc) i requests).trace := by
  induction requests generalizing i with
  | nil => simp [inputs] at h
  | cons request rest ih =>
      have hturn : Turn obligingHost failure proc i request rest _ :=
        handleInput_turn i request rest
      generalize handleInput obligingHost failure (some proc) i (request :: rest) = turn at hturn ⊢
      cases hturn with
      | cancelled hcancelled => simp [obligingHost] at hcancelled
      | returned message reason =>
          rcases mem_inputs_cons h with rfl | ⟨hends, _⟩
          · simp
          · exact absurd reason (not_returned_of_obliging hends)
      | crashed payload input writer =>
          rcases mem_inputs_cons h with rfl | ⟨hends, _⟩
          · simp
          · simp [input, writer, CommandRequest.endsInput] at hends
      | reacted effect =>
          rcases mem_inputs_cons h with rfl | ⟨_, hmem⟩
          · simp
          · exact List.mem_cons_of_mem _ (List.mem_cons_of_mem _ (ih (i + 1) hmem))

end Input

/-! ## The allow list -/

/-- The claim of the allow list on one run: only listed commands are spawned, a start
command that is not listed is answered with an error and not spawned, and the input
loop spawns nothing. -/
structure Run.ObeysAllowList (run : Run) : Prop where
  spawned : ∀ cmd, .spawned cmd ∈ run.effects → cmd.command ∈ allowedCommands
  refused : ∀ req, .received (.start req) ∈ run.effects → req.command ∉ allowedCommands →
    (∃ e, run.main.result = .err e) ∧
      ∀ cmd, .spawned cmd ∈ run.effects → cmd.command ≠ req.command
  input : ∀ t ∈ run.input, ∀ cmd, .spawned cmd ∉ t.trace

section AllowList

variable {host : Host} {stream : Stream} {run : Run} {e : Effect} {req : StartCommand}

theorem Run.mem_effects :
    e ∈ run.effects ↔ e ∈ run.main.trace ∨ ∃ t ∈ run.input, e ∈ t.trace := by
  cases h : run.input <;> simp [Run.effects, h]

theorem runStart_emits :
    (runStart host req).Emits fun e =>
      (∀ cmd, e = .spawned cmd → cmd.command = req.command) ∧
        ∀ request, e = .received request → request = .start req := by
  unfold runStart
  refine (Traced.emits_emit (by simp)).bind fun _ => ?_
  refine (startCommand_emits.imp fun e he =>
    ⟨he.1, fun r hr => absurd hr (he.2 r)⟩).bind fun _ => ?_
  refine (Traced.emits_emit (by simp)).bind fun _ => ?_
  refine (Traced.emits_emit (by simp)).bind fun _ => ?_
  split
  · exact Traced.emits_emit (by simp)
  · exact Traced.emits_pure _

theorem runStart_obligingHost (req : StartCommand) :
    ∃ cmd : Cmd, cmd.command = req.command ∧ .spawned cmd ∈ (runStart obligingHost req).trace ∧
      (runStart obligingHost req).result = .ok () := by
  cases hs : req.stdin <;>
    simp [runStart, startCommand, obligingHost, hs, Traced.emit]

theorem runStart_ensures : (runStart host req).Ensures fun _ => True := by
  unfold runStart
  refine (Traced.ensures_emit _).bind fun _ _ => startCommand_ensures.bind fun _ _ =>
    (Traced.ensures_emit _).bind fun _ _ => (Traced.ensures_emit _).bind fun _ _ => ?_
  split
  · exact Traced.ensures_emit _
  · exact Traced.ensures_pure trivial

theorem runCommand_input {t : Action Unit} (ht : t ∈ (runCommand host stream).input) :
    ∃ req rest proc, stream.requests = .start req :: rest ∧
      (startCommand host req).result = .ok proc ∧ proc.stdin = req.stdin.isSome ∧
      t = handleInput host stream.failure (some proc) 0 rest := by
  unfold runCommand at ht
  split at ht
  · cases ht
  · rename_i req rest hreq
    dsimp only at ht
    split at ht
    · rename_i proc hproc
      exact ⟨req, rest, proc, hreq, hproc, startCommand_ensures.2 proc hproc,
        (Option.some.inj ht).symm⟩
    · cases ht
  · cases ht

theorem runCommand_effects (he : e ∈ (runCommand host stream).effects) :
    (∀ cmd, e = .spawned cmd →
        ∃ req rest, stream.requests = .start req :: rest ∧ cmd.command = req.command) ∧
      ∀ request, e = .received request → request ∈ readable stream.requests := by
  obtain ⟨requests, failure⟩ := stream
  rcases Run.mem_effects.mp he with he | ⟨t, ht, he⟩
  · match requests with
    | [] => simp [runCommand, Traced.call] at he
    | .start req :: rest =>
        obtain ⟨hspawn, hread⟩ := runStart_emits e he
        refine ⟨fun cmd hcmd => ⟨req, rest, rfl, hspawn cmd hcmd⟩, fun r hr => ?_⟩
        rw [hread r hr]
        exact List.mem_cons_self
    | .stdin payload :: _ => simp [runCommand, Traced.call] at he; simp [he, readable]
    | .signal signal :: _ => simp [runCommand, Traced.call] at he; simp [he, readable]
    | .unset :: _ => simp [runCommand, Traced.call] at he; simp [he, readable]
  · obtain ⟨req, rest, proc, rfl, _, hstdin, rfl⟩ := runCommand_input ht
    obtain ⟨hspawn, hread⟩ := handleInput_emits 0 rest e he
    refine ⟨fun cmd hcmd => absurd hcmd (hspawn cmd), fun r hr => List.mem_cons_of_mem _ ?_⟩
    rw [← hstdin]
    exact hread r hr

theorem runCommand_obeysAllowList_iff (stream : Stream) :
    (∀ host, (runCommand host stream).ObeysAllowList) ↔
      ∀ req, .start req ∈ readable stream.requests → req.command ∈ allowedCommands := by
  constructor
  · intro h req hreq
    obtain ⟨requests, failure⟩ := stream
    have hobey := h obligingHost
    match requests, hreq with
    | .start first :: rest, hreq =>
        obtain ⟨cmd, hcmd, hspawn, hdone⟩ := runStart_obligingHost first
        rcases List.mem_cons.mp hreq with heq | hreq
        · obtain rfl := CommandRequest.start.inj heq
          rw [← hcmd]
          exact hobey.spawned cmd (Run.mem_effects.mpr (Or.inl hspawn))
        · by_contra hnot
          obtain ⟨proc, hproc, hstdin⟩ := startCommand_obligingHost first
          rw [← hstdin] at hreq
          have hinput : handleInput obligingHost failure (some proc) 0 rest ∈
              (runCommand obligingHost ⟨.start first :: rest, failure⟩).input := by
            simp [runCommand, hproc]
          have hread := Run.mem_effects.mpr
            (Or.inr ⟨_, hinput, received_mem_handleInput 0 hreq⟩)
          obtain ⟨⟨e, herr⟩, _⟩ := hobey.refused req hread hnot
          exact nomatch hdone.symm.trans herr
  · intro h host
    refine ⟨fun cmd hcmd => ?_, fun req hreq hnot => ?_, fun t ht cmd hcmd => ?_⟩
    · obtain ⟨req, rest, hreqs, heq⟩ := (runCommand_effects hcmd).1 cmd rfl
      rw [heq]
      refine h req ?_
      rw [hreqs]
      exact List.mem_cons_self
    · exact absurd (h req ((runCommand_effects hreq).2 _ rfl)) hnot
    · obtain ⟨req, rest, proc, _, _, _, rfl⟩ := runCommand_input ht
      exact (handleInput_emits 0 rest _ hcmd).1 cmd rfl

end AllowList

def forbiddenStart : StartCommand := ⟨"sh", ["-c", "reboot"], none, [], none⟩

/-- The unlisted command is spawned and its run reported as successful. -/
theorem runCommand_spawns_forbiddenStart :
    "sh" ∉ allowedCommands ∧
      .spawned ⟨"sh", ["-c", "reboot"], none, [], .devNull⟩ ∈
        (runCommand obligingHost ⟨[.start forbiddenStart], none⟩).effects ∧
      (runCommand obligingHost ⟨[.start forbiddenStart], none⟩).main.result = .ok () := by
  decide +kernel

/-! ## Input for the process -/

/-- Each input message is written to the process, or the loop logs a failed write and
returns. -/
def StdinAnswered : List Effect → Prop
  | [] => True
  | .received (.stdin payload) :: effects =>
      (effects.head? = some (.wrote payload) ∨
        ∃ e, effects = [.logged ("handleInput: write to stdin failed: " ++ e)]) ∧
        StdinAnswered effects
  | _ :: effects => StdinAnswered effects

/-- No goroutine of the run panics, and all input is answered. -/
structure Run.StdinSafe (run : Run) : Prop where
  main : run.main.result.Returns
  input : ∀ t ∈ run.input, t.result.Returns ∧ StdinAnswered t.trace

section Stdin

variable {host : Host} {failure : Option String} {proc : Process} {effects : List Effect}
  {requests : List CommandRequest}

theorem stdinAnswered_cons {request : CommandRequest}
    (h : ∀ payload, request = .stdin payload → effects.head? = some (.wrote payload) ∨
      ∃ e, effects = [.logged ("handleInput: write to stdin failed: " ++ e)])
    (hrest : StdinAnswered effects) : StdinAnswered (.received request :: effects) := by
  cases request with
  | stdin payload => exact ⟨h payload rfl, hrest⟩
  | _ => exact hrest

theorem stdinAnswered_cons_of_ne {effect : Effect} (h : ∀ request, effect ≠ .received request)
    (hrest : StdinAnswered effects) : StdinAnswered (effect :: effects) := by
  cases effect with
  | received request => exact absurd rfl (h request)
  | _ => exact hrest

theorem handleInput_safe (i : Nat)
    (h : proc.stdin = true ∨ ∀ payload, .stdin payload ∉ inputs proc.stdin requests) :
    (handleInput host failure (some proc) i requests).result.Returns ∧
      StdinAnswered (handleInput host failure (some proc) i requests).trace := by
  induction requests generalizing i with
  | nil =>
      unfold handleInput
      split
      · exact ⟨Outcome.returns_ok _, trivial⟩
      · split <;> exact ⟨Outcome.returns_ok _, trivial⟩
  | cons request rest ih =>
      have hturn : Turn host failure proc i request rest _ := handleInput_turn i request rest
      generalize handleInput host failure (some proc) i (request :: rest) = turn at hturn ⊢
      cases hturn with
      | cancelled => exact ⟨Outcome.returns_ok _, trivial⟩
      | returned message _ rejected =>
          refine ⟨Outcome.returns_ok _, stdinAnswered_cons (fun payload hp => ?_) trivial⟩
          obtain ⟨e, _, rfl⟩ := rejected payload hp
          exact Or.inr ⟨e, rfl⟩
      | crashed payload input writer =>
          rcases h with h | h
          · exact absurd (h.symm.trans writer) (by simp)
          · exact absurd mem_inputs_head (input ▸ h payload)
      | reacted effect reaction goesOn written =>
          obtain ⟨hret, hans⟩ := ih (i + 1) (h.imp_right fun hnone payload hmem =>
            hnone payload (mem_inputs_tail goesOn hmem))
          refine ⟨hret, stdinAnswered_cons (fun payload hp => ?_) ?_⟩
          · rw [written payload hp]
            exact Or.inl rfl
          · exact stdinAnswered_cons_of_ne (reaction.2 ·) hans

theorem handleInput_panics (i : Nat) {payload : Bytes} (hproc : proc.stdin = false)
    (h : .stdin payload ∈ inputs proc.stdin requests) :
    (handleInput obligingHost failure (some proc) i requests).result = .panicked := by
  induction requests generalizing i with
  | nil => simp [inputs] at h
  | cons request rest ih =>
      have hturn : Turn obligingHost failure proc i request rest _ :=
        handleInput_turn i request rest
      generalize handleInput obligingHost failure (some proc) i (request :: rest) = turn at hturn ⊢
      cases hturn with
      | cancelled hcancelled => simp [obligingHost] at hcancelled
      | returned message reason rejected =>
          rcases mem_inputs_cons h with heq | ⟨hends, _⟩
          · obtain ⟨e, hwrite, _⟩ := rejected payload heq.symm
            simp [obligingHost] at hwrite
          · exact absurd reason (not_returned_of_obliging hends)
      | crashed => rfl
      | reacted effect _ goesOn =>
          rcases mem_inputs_cons h with rfl | ⟨_, hmem⟩
          · simp [CommandRequest.endsInput, hproc] at goesOn
          · exact ih (i + 1) hmem

/-- No run crashes the server or loses input exactly when a process that was started
without input is sent none before the input ends. -/
theorem runCommand_stdinSafe_iff (stream : Stream) :
    (∀ host, (runCommand host stream).StdinSafe) ↔
      ∀ req rest, stream.requests = .start req :: rest → req.stdin = none →
        ∀ payload, .stdin payload ∉ inputs false rest := by
  constructor
  · intro h req rest hreqs hnone payload hmem
    obtain ⟨requests, failure⟩ := stream
    obtain rfl : requests = _ := hreqs
    obtain ⟨proc, hproc, hstdin⟩ := startCommand_obligingHost req
    have hinput : handleInput obligingHost failure (some proc) 0 rest ∈
        (runCommand obligingHost ⟨.start req :: rest, failure⟩).input := by
      simp [runCommand, hproc]
    have hwriter : proc.stdin = false := by rw [hstdin, hnone]; rfl
    rw [← hwriter] at hmem
    exact ((h obligingHost).input _ hinput).1 (handleInput_panics 0 hwriter hmem)
  · intro h host
    refine ⟨?_, fun t ht => ?_⟩
    · unfold runCommand
      split
      · exact Outcome.returns_err _
      · exact runStart_ensures.1
      · exact Outcome.returns_err _
    · obtain ⟨req, rest, proc, hreqs, _, hstdin, rfl⟩ := runCommand_input ht
      refine handleInput_safe 0 ?_
      cases hs : req.stdin with
      | some payload =>
          left
          rw [hstdin, hs]
          rfl
      | none =>
          right
          rw [hstdin, hs]
          exact h req rest hreqs hs

end Stdin

def uptimeStart : StartCommand := ⟨"uptime", [], none, [], none⟩

/-- One input message after it crashes the server. -/
theorem handleInput_panics_on_stdin :
    ∃ t ∈ (runCommand obligingHost ⟨[.start uptimeStart, .stdin [104, 105]], none⟩).input,
      t.result = .panicked := by
  decide +kernel

end GhafGivc.Exec
