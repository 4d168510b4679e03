import GhafGivc.Core.Pipe
import GhafGivc.Core.Transition

/-! # Proxied socket connections

Two instances of `StreamData`, each between a socket and one end of a frame stream. An
instance runs two loops: one writes received frames to the socket, the other sends what it
reads from the socket. A read error is sent on as an EOF frame.
-/

namespace GhafGivc.Proxy

open Core

abbrev Bytes := List UInt8

def socketReadChunkSize : Nat := 32 * 1024

inductive Writer where
  | selecting
  | receiving
  | writing (payload : Bytes)
  | closing
  | closed
  | stopped (unwritten : Bytes)
deriving DecidableEq

inductive Reader where
  | selecting
  | reading
  | sending (frame : Frame UInt8)
  | finished
  | stopped (unsent : Bytes)
deriving DecidableEq

def Writer.returned : Writer → Bool
  | closed => true
  | stopped _ => true
  | _ => false

def Reader.returned : Reader → Bool
  | finished => true
  | stopped _ => true
  | _ => false

/-- One instance: its socket, the context of its group, its loops, and the frames that are
on the way to it. All bytes read from and written to the socket are recorded. -/
structure Side where
  opened : Bool
  cancelled : Bool
  writer : Writer
  reader : Reader
  inbox : List (Frame UInt8)
  read : Bytes
  written : Bytes
deriving DecidableEq

inductive WriterAction where
  | select
  | recv
  | recvError
  | close (failed : Bool)
  | write
  | writeError (n : Nat)
deriving DecidableEq

inductive ReaderAction where
  | select
  | read (data : Bytes)
  | readError
  | send
  | sendError
deriving DecidableEq

inductive Action where
  | writer (action : WriterAction)
  | reader (action : ReaderAction)
  | cancel
  | finish
deriving DecidableEq

namespace Side

/-- An error that a loop returns cancels the context of the group. -/
def writerAct (side : Side) (action : WriterAction) : Option Side :=
  match action, side.writer, side.inbox with
  | .select, .selecting, _ =>
      some { side with writer := if side.cancelled then .stopped [] else .receiving }
  | .recv, .receiving, .mark :: rest => some { side with writer := .closing, inbox := rest }
  | .recv, .receiving, .chunk payload :: rest =>
      some { side with
        writer := if payload = [] then .selecting else .writing payload, inbox := rest }
  | .recvError, .receiving, _ => some { side with writer := .stopped [], cancelled := true }
  | .close failed, .closing, _ =>
      -- Closing a closed socket is an error.
      some { side with
        writer := .closed, opened := false
        cancelled := side.cancelled || failed || !side.opened }
  | .write, .writing payload, _ =>
      if side.opened then
        some { side with writer := .selecting, written := side.written ++ payload }
      else none
  | .writeError n, .writing payload, _ =>
      -- A short write is an error too; to a closed socket nothing is written.
      if n ≤ payload.length ∧ (side.opened ∨ n = 0) then
        some { side with
          writer := .stopped (payload.drop n), cancelled := true
          written := side.written ++ payload.take n }
      else none
  | _, _, _ => none

/-- The frames that are sent are returned with the new state. -/
def readerAct (side : Side) (action : ReaderAction) : Option (Side × List (Frame UInt8)) :=
  match action, side.reader with
  | .select, .selecting =>
      some ({ side with reader := if side.cancelled then .stopped [] else .reading }, [])
  | .read data, .reading =>
      -- An error that comes with data is dropped; no data and no error is an empty chunk.
      if side.opened ∧ data.length ≤ socketReadChunkSize then
        some ({ side with reader := .sending (.chunk data), read := side.read ++ data }, [])
      else none
  | .readError, .reading => some ({ side with reader := .sending .mark }, [])
  | .send, .sending (.chunk data) => some ({ side with reader := .selecting }, [.chunk data])
  | .send, .sending .mark => some ({ side with reader := .finished }, [.mark])
  | .sendError, .sending frame =>
      some ({ side with reader := .stopped frame.items, cancelled := true }, [])
  | _, _ => none

def act (side : Side) : Action → Option (Side × List (Frame UInt8))
  | .writer action => (side.writerAct action).map fun side => (side, [])
  | .reader action => side.readerAct action
  | .cancel => some ({ side with cancelled := true }, [])
  | .finish =>
      if side.writer.returned ∧ side.reader.returned then
        some ({ side with cancelled := true, opened := false }, [])
      else none

def start : Side := ⟨true, false, .selecting, .selecting, [], [], []⟩

end Side

inductive End where
  | left
  | right
deriving DecidableEq

def End.other : End → End
  | left => right
  | right => left

structure System where
  left : Side
  right : Side
deriving DecidableEq

namespace System

def side (sys : System) : End → Side
  | .left => sys.left
  | .right => sys.right

/-- Frames that are sent arrive behind those on the way. -/
def deliver (side : Side) (frames : List (Frame UInt8)) : Side :=
  { side with inbox := side.inbox ++ frames }

def step (sys : System) : End × Action → Option System
  | (.left, action) =>
      (sys.left.act action).map fun next => ⟨next.1, deliver sys.right next.2⟩
  | (.right, action) =>
      (sys.right.act action).map fun next => ⟨deliver sys.left next.2, next.1⟩

def Initial (sys : System) : Prop := sys = ⟨.start, .start⟩

def Reachable : System → Prop := Reach step (fun _ _ => True) Initial

end System

/-! ## One direction as a pipe -/

def Writer.held : Writer → Bytes
  | writing payload => payload
  | stopped unwritten => unwritten
  | _ => []

def Writer.eof : Writer → Bool
  | closing => true
  | closed => true
  | _ => false

def Reader.pending : Reader → Bytes
  | sending frame => frame.items
  | stopped unsent => unsent
  | _ => []

def Reader.eof : Reader → Bool
  | finished => true
  | _ => false

def pipe (source sink : Side) : Pipe UInt8 where
  taken := source.read
  pending := source.reader.pending
  ended := source.reader.eof
  frames := sink.inbox
  held := sink.writer.held
  placed := sink.written
  closed := sink.writer.eof

/-- The pipe makes a step, or none. -/
def Follows (p q : Pipe UInt8) : Prop := q = p ∨ Pipe.Step p q

section Follows

variable {side side' source sink : Side} {frames : List (Frame UInt8)} {action : Action}
  {sys sys' : System} {e : End} {writerAction : WriterAction} {readerAction : ReaderAction}

theorem deliver_nil (side : Side) : System.deliver side [] = side := by
  simp [System.deliver]

theorem writerAct_source (h : side.writerAct writerAction = some side') :
    side'.read = side.read ∧ side'.reader = side.reader := by
  unfold Side.writerAct at h
  split at h
  case h_6 | h_7 =>
    split at h
    · cases h
      exact ⟨rfl, rfl⟩
    · cases h
  case h_8 => cases h
  all_goals
    cases h
    exact ⟨rfl, rfl⟩

theorem writerAct_follows (h : side.writerAct writerAction = some side') :
    Follows (pipe source side) (pipe source side') := by
  rcases side with ⟨opened, cancelled, writer, reader, inbox, read, written⟩
  unfold Side.writerAct at h
  dsimp only at h
  split at h
  case h_1 =>
    cases h
    left
    cases cancelled <;> rfl
  case h_2 =>
    cases h
    right
    exact .close rfl rfl rfl
  case h_3 =>
    cases h
    right
    rename_i payload rest
    have hreceive : Pipe.Step (pipe source ⟨opened, cancelled, .receiving, reader,
        .chunk payload :: rest, read, written⟩) _ := .receive rfl rfl rfl
    by_cases hempty : payload = []
    · subst hempty
      exact hreceive
    · rw [if_neg hempty]
      exact hreceive
  case h_4 =>
    cases h
    left
    rfl
  case h_5 =>
    cases h
    left
    rfl
  case h_6 =>
    split at h
    · cases h
      right
      rename_i payload hopened
      have hplace : Pipe.Step (pipe source ⟨opened, cancelled, .writing payload, reader,
        inbox, read, written⟩) _ := .place payload.length rfl
      simpa [pipe, Writer.held, Writer.eof] using hplace
    · cases h
  case h_7 =>
    split at h
    · cases h
      right
      exact .place _ rfl
    · cases h
  case h_8 => cases h

theorem readerAct_sink (h : side.readerAct readerAction = some (side', frames)) :
    side'.inbox = side.inbox ∧ side'.writer = side.writer ∧ side'.written = side.written := by
  unfold Side.readerAct at h
  split at h
  case h_2 =>
    split at h
    · cases h
      exact ⟨rfl, rfl, rfl⟩
    · cases h
  case h_7 => cases h
  all_goals
    cases h
    exact ⟨rfl, rfl, rfl⟩

theorem readerAct_follows (h : side.readerAct readerAction = some (side', frames)) :
    Follows (pipe side sink) (pipe side' (System.deliver sink frames)) := by
  rcases side with ⟨opened, cancelled, writer, reader, inbox, read, written⟩
  unfold Side.readerAct at h
  dsimp only at h
  split at h
  case h_1 =>
    cases h
    left
    rw [deliver_nil]
    cases cancelled <;> rfl
  case h_2 =>
    split at h
    · cases h
      right
      rw [deliver_nil]
      exact .take _ rfl rfl
    · cases h
  case h_3 =>
    cases h
    left
    rw [deliver_nil]
    rfl
  case h_4 =>
    cases h
    right
    exact .send rfl
  case h_5 =>
    cases h
    right
    exact .mark rfl rfl
  case h_6 =>
    cases h
    left
    rw [deliver_nil]
    rfl
  case h_7 => cases h

/-- What an instance does is at most a step of the pipe it reads for. -/
theorem act_follows_source (h : side.act action = some (side', frames)) :
    Follows (pipe side sink) (pipe side' (System.deliver sink frames)) := by
  cases action with
  | writer writerAction =>
      rcases Option.map_eq_some_iff.mp h with ⟨next, hnext, heq⟩
      cases heq
      rcases writerAct_source hnext with ⟨hread, hreader⟩
      left
      simp [pipe, deliver_nil, hread, hreader]
  | reader readerAction => exact readerAct_follows h
  | cancel =>
      cases h
      left
      rw [deliver_nil]
      rfl
  | finish =>
      simp only [Side.act] at h
      split at h
      · cases h
        left
        rw [deliver_nil]
        rfl
      · cases h

/-- What an instance does is at most a step of the pipe it writes for. -/
theorem act_follows_sink (h : side.act action = some (side', frames)) :
    Follows (pipe source side) (pipe source side') := by
  cases action with
  | writer writerAction =>
      rcases Option.map_eq_some_iff.mp h with ⟨next, hnext, heq⟩
      cases heq
      exact writerAct_follows hnext
  | reader readerAction =>
      rcases readerAct_sink h with ⟨hinbox, hwriter, hwritten⟩
      left
      simp [pipe, hinbox, hwriter, hwritten]
  | cancel =>
      cases h
      left
      rfl
  | finish =>
      simp only [Side.act] at h
      split at h
      · cases h
        left
        rfl
      · cases h

end Follows

namespace System

/-- The direction that starts at `e`. -/
def flow (sys : System) (e : End) : Pipe UInt8 := pipe (sys.side e) (sys.side e.other)

variable {sys sys' : System} {label : End × Action} {labels : List (End × Action)} {e : End}

theorem flow_follows (h : sys.step label = some sys') : Follows (sys.flow e) (sys'.flow e) := by
  rcases label with ⟨actor, action⟩
  cases actor with
  | left =>
      rcases Option.map_eq_some_iff.mp h with ⟨next, hnext, heq⟩
      subst heq
      cases e with
      | left => exact act_follows_source hnext
      | right => exact act_follows_sink hnext
  | right =>
      rcases Option.map_eq_some_iff.mp h with ⟨next, hnext, heq⟩
      subst heq
      cases e with
      | left => exact act_follows_sink hnext
      | right => exact act_follows_source hnext

theorem sound_flow (h : Reachable sys) (e : End) : (sys.flow e).Sound := by
  refine h.invariant (P := fun sys => (sys.flow e).Sound) ?_ ?_
  · intro sys hinit
    cases hinit
    cases e <;> exact ⟨rfl, fun _ => ⟨rfl, List.not_mem_nil⟩, nofun, nofun⟩
  · intro sys label sys' hsound _ hstep
    cases flow_follows hstep with
    | inl heq => exact heq ▸ hsound
    | inr hpipe => exact hsound.step hpipe

/-- Once the EOF frame was received nothing is written in that direction. -/
theorem written_of_run (h : run step sys labels = some sys')
    (heof : (sys.side e.other).writer.eof = true) :
    (sys'.side e.other).written = (sys.side e.other).written := by
  refine (run_preserves (P := fun s => (s.side e.other).written = (sys.side e.other).written ∧
    (s.side e.other).writer.eof = true) ?_ ⟨rfl, heof⟩ h).1
  intro label _ s t hs hstep
  cases flow_follows (e := e) hstep with
  | inl heq =>
      have hplaced : (t.side e.other).written = (s.side e.other).written :=
        congrArg Pipe.placed heq
      have hclosed : (t.side e.other).writer.eof = (s.side e.other).writer.eof :=
        congrArg Pipe.closed heq
      exact ⟨hplaced.trans hs.1, hclosed.trans hs.2⟩
  | inr hpipe =>
      rcases hpipe.placed_eq hs.2 with ⟨hplaced, hclosed⟩
      exact ⟨hplaced.trans hs.1, hclosed⟩

end System

/-- In both directions, and whatever the four loops and the sockets do, the bytes written
are the first of the bytes read. When the EOF frame is the next one to be processed they are
all of them, the reader has returned after its read error, and nothing is written from then
on. -/
theorem proxy_is_fifo (sys : System) (h : sys.Reachable) (e : End) :
    (sys.side e.other).written <+: (sys.side e).read ∧
    (∀ rest, (sys.side e.other).writer = .receiving → (sys.side e.other).inbox = .mark :: rest →
      (sys.side e.other).written = (sys.side e).read ∧ (sys.side e).reader = .finished) ∧
    ((sys.side e.other).writer = .closing ∨ (sys.side e.other).writer = .closed →
      (sys.side e.other).written = (sys.side e).read ∧
      ∀ labels sys', run System.step sys labels = some sys' →
        (sys'.side e.other).written = (sys.side e.other).written) := by
  have hsound := System.sound_flow h e
  refine ⟨hsound.placed_isPrefix, ?_, ?_⟩
  · intro rest hwriter hinbox
    have hheld : (sys.flow e).held = [] := congrArg Writer.held hwriter
    have hopen : (sys.flow e).closed = false := congrArg Writer.eof hwriter
    rcases hsound.placed_eq_of_mark hinbox hheld hopen with ⟨hall, hended⟩
    refine ⟨hall, ?_⟩
    have heof : (sys.side e).reader.eof = true := hended
    cases hreader : (sys.side e).reader with
    | finished => rfl
    | selecting | reading | sending frame | stopped unsent =>
        rw [hreader] at heof
        cases heof
  · intro hwriter
    have heof : (sys.side e.other).writer.eof = true := by
      cases hwriter with
      | inl hclosing => exact congrArg Writer.eof hclosing
      | inr hclosed => exact congrArg Writer.eof hclosed
    exact ⟨hsound.placed_eq_of_closed heof, fun labels sys' hrun =>
      System.written_of_run hrun heof⟩

def talkRun : List (End × Action) :=
  [(.right, .reader .select), (.right, .reader (.read [111, 107])), (.right, .reader .send),
    (.left, .writer .select), (.left, .writer .recv), (.left, .writer .write),
    (.left, .reader .select), (.left, .reader (.read [104, 105])), (.left, .reader .send),
    (.right, .writer .select), (.right, .writer .recv), (.left, .reader .select),
    (.left, .reader .readError), (.right, .writer .write), (.left, .reader .send),
    (.right, .writer .select), (.right, .writer .recv), (.right, .writer (.close false)),
    (.right, .reader .select), (.right, .reader .readError), (.right, .reader .send),
    (.right, .finish)]

def talked : System where
  left := ⟨true, false, .selecting, .finished, [.mark], [104, 105], [111, 107]⟩
  right := ⟨false, true, .closed, .finished, [], [111, 107], [104, 105]⟩

theorem proxy_is_fifo_talked :
    talked.Reachable ∧ talked.right.written = talked.left.read ∧
      talked.left.written <+: talked.right.read := by
  have hrun : run (fun sys label => if True then System.step sys label else none)
      ⟨.start, .start⟩ talkRun = some talked := by decide +kernel
  have hreach : talked.Reachable := Reach.of_run (Reach.init rfl) hrun
  exact ⟨hreach, ((proxy_is_fifo talked hreach .left).2.2 (Or.inr rfl)).1,
    (proxy_is_fifo talked hreach .right).1⟩

end GhafGivc.Proxy
