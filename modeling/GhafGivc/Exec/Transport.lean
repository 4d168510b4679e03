import GhafGivc.Core.Traced

/-! # The exec server

One call of `RunCommand` reads a start command, spawns the process and hands the rest
of the client stream to `handleInput`. What the system and the transport answer is
collected in a `Host`; every theorem is about all hosts.
-/

namespace GhafGivc.Exec

open Core

abbrev Bytes := List UInt8

structure StartCommand where
  command : String
  arguments : List String
  workingDirectory : Option String
  envVars : List (String × String)
  stdin : Option Bytes
deriving DecidableEq

/-- The client's messages; `unset` is a request without command. -/
inductive CommandRequest where
  | start (command : StartCommand)
  | stdin (payload : Bytes)
  | signal (signal : Int32)
  | unset
deriving DecidableEq

inductive CommandResponse where
  | stdout (payload : Bytes)
  | stderr (payload : Bytes)
  | started (pid : Int32)
  | finished (returnCode : Int32)
deriving DecidableEq

/-- The client stream: its requests, then EOF or an error. -/
structure Stream where
  requests : List CommandRequest
  failure : Option String
deriving DecidableEq

inductive Stdio where
  | stdin
  | stdout
  | stderr
deriving DecidableEq

inductive StdinSource where
  | pipe
  | devNull
deriving DecidableEq

/-- `exec.Cmd` as `startCommand` fills it. -/
structure Cmd where
  command : String
  arguments : List String
  dir : Option String
  env : List String
  stdin : StdinSource
deriving DecidableEq

/-- The process record; `stdin` is `false` where the source has a nil writer. -/
structure Process where
  cmd : Cmd
  pid : Int
  stdin : Bool
deriving DecidableEq

inductive WaitResult where
  | success
  | exitError (code : Int)
  | otherError (message : String)
deriving DecidableEq

structure Host where
  openStdio : StdinSource → Stdio → Except String Unit
  start : Cmd → Except String Int
  send : CommandResponse → Except String Unit
  writeInitial : Bytes → Except String Unit
  /-- The stream's context is done before the message is read. -/
  cancelled : Nat → Bool
  write : Nat → Except String Unit
  signal : Nat → Except String Unit
  wait : WaitResult

inductive Effect where
  | received (request : CommandRequest)
  | spawned (cmd : Cmd)
  | sent (response : CommandResponse)
  | streaming (output : Stdio)
  | wrote (payload : Bytes)
  | signalled (signal : Int32)
  | waited (cmd : Cmd)
  | logged (message : String)
deriving DecidableEq

abbrev Action := Traced Effect String

def allowedCommands : List String := ["ota-update", "uptime"]

def flattenEnv (env : List (String × String)) : List String :=
  env.map fun (k, v) => k ++ "=" ++ v

def startCommand (host : Host) (req : StartCommand) : Action Process := do
  -- without initial input the process reads `/dev/null` and no writer is made
  let source := if req.stdin.isSome then StdinSource.pipe else .devNull
  let cmd : Cmd :=
    ⟨req.command, req.arguments, req.workingDirectory, flattenEnv req.envVars, source⟩
  Traced.call (host.openStdio source .stdin)
  Traced.call (host.openStdio source .stdout)
  Traced.call (host.openStdio source .stderr)
  let pid ← Traced.call (host.start cmd)
  Traced.emit (.spawned cmd)
  Traced.call (host.send (.started (Int32.ofInt pid)))
  Traced.emit (.sent (.started (Int32.ofInt pid)))
  Traced.emit (.streaming .stdout)
  Traced.emit (.streaming .stderr)
  match req.stdin with
  | some payload =>
      match host.writeInitial payload with
      | .ok () =>
          Traced.emit (.wrote payload)
          pure ⟨cmd, pid, true⟩
      | .error e => Traced.call (.error ("failed to write initial stdin: " ++ e))
  | none => pure ⟨cmd, pid, false⟩

/-- The input loop from message `i` on. -/
def handleInput (host : Host) (failure : Option String) (proc : Option Process) :
    Nat → List CommandRequest → Action Unit
  | i, [] =>
      if host.cancelled i then pure ()
      else match failure with
        | none => pure ()
        | some e => Traced.emit (.logged ("handleInput: recv error: " ++ e))
  | i, request :: rest =>
      if host.cancelled i then pure ()
      else do
        Traced.emit (.received request)
        match request, proc with
        | .start _, _ =>
            Traced.emit (.logged "handleInput: unexpected Start after process already started")
        | .stdin _, none =>
            Traced.emit (.logged "handleInput: stdin received but process not started")
        | .stdin _, some ⟨_, _, false⟩ => Traced.panic
        | .stdin payload, some ⟨_, _, true⟩ =>
            match host.write i with
            | .ok () =>
                Traced.emit (.wrote payload)
                handleInput host failure proc (i + 1) rest
            | .error e => Traced.emit (.logged ("handleInput: write to stdin failed: " ++ e))
        | .signal _, none =>
            Traced.emit (.logged "handleInput: signal received but process not started")
        | .signal signal, some _ =>
            match host.signal i with
            | .ok () =>
                Traced.emit (.signalled signal)
                handleInput host failure proc (i + 1) rest
            | .error e => Traced.emit (.logged ("handleInput: sending signal failed: " ++ e))
        | .unset, _ =>
            Traced.emit (.logged "handleInput: unknown command request")
            handleInput host failure proc (i + 1) rest

def WaitResult.exitCode : WaitResult → Int
  | exitError code => code
  | _ => 0

/-- `RunCommand` from the start command on: start the process, wait for it and report
its exit code. -/
def runStart (host : Host) (req : StartCommand) : Action Unit := do
  Traced.emit (.received (.start req))
  let proc ← startCommand host req
  Traced.emit (.waited proc.cmd)
  let code := host.wait.exitCode
  Traced.emit (.logged ("Streaming Finished event: rc=" ++ toString code))
  -- a failure of this last send is ignored
  match host.send (.finished (Int32.ofInt code)) with
  | .ok () => Traced.emit (.sent (.finished (Int32.ofInt code)))
  | .error _ => pure ()

/-- The handler, and the input loop when it was started. -/
structure Run where
  main : Action Unit
  input : Option (Action Unit)

def runCommand (host : Host) (stream : Stream) : Run :=
  match stream.requests with
  | [] => ⟨Traced.call (.error
      ("failed to receive start command: " ++ stream.failure.getD "EOF")), none⟩
  | .start req :: rest =>
      ⟨runStart host req, match (startCommand host req).result with
        | .ok proc => some (handleInput host stream.failure (some proc) 0 rest)
        | _ => none⟩
  | request :: _ =>
      ⟨do
        Traced.emit (.received request)
        Traced.call (.error "expected StartCommand, got something else"), none⟩

def Run.effects (run : Run) : List Effect :=
  run.main.trace ++ (run.input.map Traced.trace).getD []

end GhafGivc.Exec
