import GhafGivc.Exec.Safety

/-! # Children of the exec server

A process that was started stays a child of the agent until it is waited for. `RunCommand`
waits once `startCommand` has returned a process.
-/

namespace GhafGivc.Exec

open Core

def Effect.children (running : List Cmd) : Effect → List Cmd
  | spawned cmd => cmd :: running
  | waited cmd => running.erase cmd
  | _ => running

/-- The children that nobody has waited for at the end of a trace. -/
def unreaped (trace : List Effect) : List Cmd := trace.foldl Effect.children []

def StartCommand.source (req : StartCommand) : StdinSource :=
  if req.stdin.isSome then .pipe else .devNull

def StartCommand.cmd (req : StartCommand) : Cmd :=
  ⟨req.command, req.arguments, req.workingDirectory, flattenEnv req.envVars, req.source⟩

/-- The command is started as process `pid`. -/
def Host.Spawns (host : Host) (req : StartCommand) (pid : Int) : Prop :=
  (∀ stdio, host.openStdio req.source stdio = .ok ()) ∧ host.start req.cmd = .ok pid

/-- The client learns of the process, and the process gets its first input. -/
def Host.HandsOver (host : Host) (req : StartCommand) (pid : Int) : Prop :=
  host.send (.started (Int32.ofInt pid)) = .ok () ∧
    ∀ payload ∈ req.stdin, host.writeInitial payload = .ok ()

/-- Effects that neither start a process nor wait for one. -/
def Effect.SparesChildren (e : Effect) : Prop := ∀ running, e.children running = running

theorem foldl_children_of_spares {trace : List Effect} (h : ∀ e ∈ trace, e.SparesChildren)
    (running : List Cmd) : trace.foldl Effect.children running = running := by
  induction trace with
  | nil => rfl
  | cons e trace ih =>
      rw [List.forall_mem_cons] at h
      rw [List.foldl_cons, h.1 running]
      exact ih h.2

section Start

variable {host : Host} {req : StartCommand} {pid : Int}

def handOver (host : Host) (req : StartCommand) (pid : Int) : Action Process := do
  Traced.call (host.send (.started (Int32.ofInt pid)))
  Traced.emit (.sent (.started (Int32.ofInt pid)))
  Traced.emit (.streaming .stdout)
  Traced.emit (.streaming .stderr)
  match req.stdin with
  | some payload =>
      match host.writeInitial payload with
      | .ok () =>
          Traced.emit (.wrote payload)
          pure ⟨req.cmd, pid, true⟩
      | .error e => Traced.call (.error ("failed to write initial stdin: " ++ e))
  | none => pure ⟨req.cmd, pid, false⟩

theorem startCommand_eq (host : Host) (req : StartCommand) : startCommand host req = (do
    Traced.call (host.openStdio req.source .stdin)
    Traced.call (host.openStdio req.source .stdout)
    Traced.call (host.openStdio req.source .stderr)
    let pid ← Traced.call (host.start req.cmd)
    Traced.emit (.spawned req.cmd)
    handOver host req pid) := rfl

/-- A process is started, or the command fails with nothing started. -/
theorem startCommand_cases (host : Host) (req : StartCommand) :
    ((∀ pid, ¬ host.Spawns req pid) ∧ ∃ e, startCommand host req = ⟨[], .err e⟩) ∨
    ∃ pid, host.Spawns req pid ∧
      startCommand host req =
        Traced.emit (.spawned req.cmd) >>= fun _ => handOver host req pid := by
  have hfails : ∀ stdio e, host.openStdio req.source stdio = .error e →
      ∀ pid, ¬ host.Spawns req pid := by
    intro stdio e he pid hspawns
    rw [hspawns.1 stdio] at he
    cases he
  rw [startCommand_eq]
  cases hin : host.openStdio req.source .stdin with
  | error e => exact Or.inl ⟨hfails _ e hin, e, rfl⟩
  | ok _ =>
      cases hout : host.openStdio req.source .stdout with
      | error e => exact Or.inl ⟨hfails _ e hout, e, rfl⟩
      | ok _ =>
          cases herr : host.openStdio req.source .stderr with
          | error e => exact Or.inl ⟨hfails _ e herr, e, rfl⟩
          | ok _ =>
              cases hstart : host.start req.cmd with
              | error e =>
                  refine Or.inl ⟨fun pid hspawns => ?_, e, rfl⟩
                  rw [hspawns.2] at hstart
                  cases hstart
              | ok pid =>
                  have hopen : ∀ stdio, host.openStdio req.source stdio = .ok () := by
                    intro stdio
                    cases stdio with
                    | stdin => exact hin
                    | stdout => exact hout
                    | stderr => exact herr
                  exact Or.inr ⟨pid, ⟨hopen, hstart⟩, by simp⟩

theorem emits_handOver : (handOver host req pid).Emits Effect.SparesChildren := by
  have hspares : ∀ {e : Effect}, e.SparesChildren → (Traced.emit e : Action Unit).Emits
      Effect.SparesChildren := Traced.emits_emit
  unfold handOver
  refine (Traced.emits_call _).bind fun _ => (hspares fun _ => rfl).bind fun _ => ?_
  refine (hspares fun _ => rfl).bind fun _ => (hspares fun _ => rfl).bind fun _ => ?_
  split
  · split
    · exact (hspares fun _ => rfl).bind fun _ => Traced.emits_pure _
    · exact Traced.emits_call _
  · exact Traced.emits_pure _

theorem handOver_result : (host.HandsOver req pid →
      (handOver host req pid).result = .ok ⟨req.cmd, pid, req.stdin.isSome⟩) ∧
    (¬ host.HandsOver req pid → ∃ e, (handOver host req pid).result = .err e) := by
  unfold handOver Host.HandsOver
  cases hsend : host.send (.started (Int32.ofInt pid)) with
  | error e => simp
  | ok _ =>
      cases hstdin : req.stdin with
      | none => simp
      | some payload =>
          cases hwrite : host.writeInitial payload with
          | error e => simp [hwrite, Traced.call]
          | ok _ => simp [hwrite]

theorem runStart_of_err {e : String} (h : (startCommand host req).result = .err e) :
    (runStart host req).trace = .received (.start req) :: (startCommand host req).trace := by
  unfold runStart
  rw [Traced.trace_emit_bind, Traced.trace_bind_of_err h]

theorem runStart_of_ok {proc : Process} (h : (startCommand host req).result = .ok proc) :
    ∃ last : List Effect, (∀ e ∈ last, e.SparesChildren) ∧ (runStart host req).trace =
      .received (.start req) :: ((startCommand host req).trace ++ .waited proc.cmd :: last) := by
  unfold runStart
  rw [Traced.trace_emit_bind, Traced.trace_bind_of_ok h]
  refine ⟨_, ?_, rfl⟩
  refine Traced.Emits.bind (x := Traced.emit _) (Traced.emits_emit fun _ => rfl) fun _ => ?_
  split
  · exact Traced.emits_emit fun _ => rfl
  · exact Traced.emits_pure _

theorem unreaped_runStart (host : Host) (req : StartCommand) :
    unreaped (runStart host req).trace = [] ↔
      ∀ pid, host.Spawns req pid → host.HandsOver req pid := by
  rcases startCommand_cases host req with ⟨hnone, e, hstart⟩ | ⟨pid, hspawns, hstart⟩
  · have hkept : ∀ pid, host.Spawns req pid → host.HandsOver req pid :=
      fun pid hspawns => absurd hspawns (hnone pid)
    rw [runStart_of_err (congrArg Traced.result hstart), hstart]
    exact ⟨fun _ => hkept, fun _ => rfl⟩
  · have hresult : (startCommand host req).result = (handOver host req pid).result := by
      rw [hstart, Traced.result_emit_bind]
    have hrunning : (startCommand host req).trace.foldl Effect.children [] = [req.cmd] := by
      rw [hstart, Traced.trace_emit_bind, List.foldl_cons]
      exact foldl_children_of_spares emits_handOver _
    by_cases hover : host.HandsOver req pid
    · rcases runStart_of_ok (hresult.trans (handOver_result.1 hover)) with ⟨last, hlast, htrace⟩
      have hreaped : unreaped (runStart host req).trace = [] := by
        unfold unreaped
        rw [htrace, List.foldl_cons, List.foldl_append]
        change (Effect.waited req.cmd :: last).foldl Effect.children
          ((startCommand host req).trace.foldl Effect.children []) = []
        rw [hrunning, List.foldl_cons, foldl_children_of_spares hlast]
        exact List.erase_cons_head ..
      refine ⟨fun _ pid' hspawns' => ?_, fun _ => hreaped⟩
      cases Except.ok.inj (hspawns.2.symm.trans hspawns'.2)
      exact hover
    · rcases handOver_result.2 hover with ⟨e, herr⟩
      have hleft : unreaped (runStart host req).trace = [req.cmd] := by
        rw [runStart_of_err (hresult.trans herr)]
        exact hrunning
      rw [hleft]
      exact ⟨fun hnil => (List.cons_ne_nil _ _ hnil).elim, fun h => absurd (h pid hspawns) hover⟩

end Start

/-- `RunCommand` always returns, and it returns without a child exactly when every process
it started was handed over: neither the started event nor the first input failed. -/
theorem runCommand_reaps_iff (host : Host) (stream : Stream) :
    (runCommand host stream).main.result.Returns ∧
    (unreaped (runCommand host stream).main.trace = [] ↔
      ∀ req rest pid, stream.requests = .start req :: rest → host.Spawns req pid →
        host.HandsOver req pid) := by
  rcases stream with ⟨requests, failure⟩
  have hother : ∀ {first : List CommandRequest} {main : Action Unit} {e : String},
      (∀ req rest, first ≠ .start req :: rest) → main.result = .err e →
      unreaped main.trace = [] → main.result.Returns ∧ (unreaped main.trace = [] ↔
        ∀ req rest pid, first = .start req :: rest → host.Spawns req pid →
          host.HandsOver req pid) := by
    intro first main e hfirst hresult htrace
    have hreturns : main.result.Returns := hresult ▸ Outcome.returns_err e
    exact ⟨hreturns, fun _ req rest _ heq => absurd heq (hfirst req rest), fun _ => htrace⟩
  cases requests with
  | nil => exact hother (by simp) rfl rfl
  | cons request rest =>
      cases request with
      | start req =>
          refine ⟨runStart_ensures.1, (unreaped_runStart host req).trans ?_⟩
          constructor
          · intro h req' rest' pid heq hspawns
            cases heq
            exact h pid hspawns
          · intro h pid hspawns
            exact h req rest pid rfl hspawns
      | stdin payload => exact hother (by simp) rfl rfl
      | signal signal => exact hother (by simp) rfl rfl
      | unset => exact hother (by simp) rfl rfl

/-! A client that is gone before it hears of its process, and a process that ends without
reading its input. -/

def goneClient : Host := { obligingHost with send := fun _ => .error "transport is closing" }

def brokenPipe : Host :=
  { obligingHost with writeInitial := fun _ => .error "write |1: broken pipe" }

def uptimeRequest (stdin : Option Bytes) : StartCommand := ⟨"uptime", [], none, [], stdin⟩

theorem runCommand_leaves_child :
    (runCommand goneClient ⟨[.start (uptimeRequest none)], none⟩).main.result =
      .err "transport is closing" ∧
    unreaped (runCommand goneClient ⟨[.start (uptimeRequest none)], none⟩).main.trace =
      [(uptimeRequest none).cmd] ∧
    (runCommand brokenPipe ⟨[.start (uptimeRequest (some [0]))], none⟩).main.result =
      .err "failed to write initial stdin: write |1: broken pipe" ∧
    unreaped (runCommand brokenPipe ⟨[.start (uptimeRequest (some [0]))], none⟩).main.trace =
      [(uptimeRequest (some [0])).cmd] := by
  decide +kernel

end GhafGivc.Exec
