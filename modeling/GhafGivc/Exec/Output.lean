import GhafGivc.Core.Transition
import GhafGivc.Exec.Transport
import Mathlib.Logic.Function.Basic

/-! # Streaming the output of a process

Two readers copy the outputs of the process to the client while the handler waits for
the process. `Cmd.Wait` closes the ends that the readers read from as soon as the process
has exited, whether or not they have been read to the end.
-/

namespace GhafGivc.Exec

open Core

inductive Output where
  | stdout
  | stderr
deriving DecidableEq

/-- The response of a reader, its `makeResponse`. -/
def Output.response : Output → Bytes → CommandResponse
  | stdout, payload => .stdout payload
  | stderr, payload => .stderr payload

def CommandResponse.payload (o : Output) : CommandResponse → Bytes
  | stdout payload => if o = .stdout then payload else []
  | stderr payload => if o = .stderr then payload else []
  | _ => []

def payloads (o : Output) (sent : List CommandResponse) : Bytes :=
  sent.flatMap (CommandResponse.payload o)

/-- Where one `streamOutput` stands, with what its buffered reader has taken from the pipe. -/
inductive Reader where
  | reading (buffered : Bytes)
  | sending (payload buffered : Bytes)
  | done
deriving DecidableEq

/-- The part of the output that the reader has and the client has not. -/
def Reader.held : Reader → Bytes
  | reading buffered => buffered
  | sending payload buffered => payload ++ buffered
  | done => []

/-- One turn takes at most 1024 bytes out of the buffered reader. -/
def Reader.deliver (buffered : Bytes) : Reader :=
  .sending (buffered.take 1024) (buffered.drop 1024)

/-- A pipe from the process; `written` is everything the process wrote to it. -/
structure Pipe where
  content : Bytes
  written : Bytes
  writer : Bool
  reader : Bool
deriving DecidableEq

/-- The handler after `startCommand`. -/
inductive Handler where
  | waiting
  | waited (result : WaitResult)
  | returned
deriving DecidableEq

namespace Streaming

structure State where
  ended : Option WaitResult
  pipe : Output → Pipe
  stream : Output → Reader
  handler : Handler
  connected : Bool
  sent : List CommandResponse

inductive Label where
  | write (o : Output) (bytes : Bytes)
  | closeOutput (o : Output)
  | exit (result : WaitResult)
  | read (o : Output) (n : Nat)
  | send (o : Output)
  | wait
  | finish
  | disconnect
deriving DecidableEq

namespace State

def setPipe (s : State) (o : Output) (pipe : Pipe) : State :=
  { s with pipe := Function.update s.pipe o pipe }

def setStream (s : State) (o : Output) (reader : Reader) : State :=
  { s with stream := Function.update s.stream o reader }

/-- `stream.Send`: a response reaches the client while the stream is up. -/
def respond (s : State) (response : CommandResponse) : State :=
  if s.connected then { s with sent := s.sent ++ [response] } else s

/-- The deferred `reader.Close` when a reader leaves its loop. -/
def leave (s : State) (o : Output) : State :=
  (s.setStream o .done).setPipe o { s.pipe o with reader := false }

/-- `bufReader.Read`, which fills an empty buffer with a single read of the pipe. -/
def read (s : State) (o : Output) (n : Nat) : Option State :=
  match s.stream o with
  | .reading buffered =>
      let pipe := s.pipe o
      if buffered ≠ [] then some (s.setStream o (.deliver buffered))
      else if !pipe.reader then some (s.leave o)
      else if pipe.content = [] then
        if pipe.writer then none else some (s.leave o)
      else if 0 < n ∧ n ≤ 4096 then
        some ((s.setStream o (.deliver (pipe.content.take n))).setPipe o
          { pipe with content := pipe.content.drop n })
      else none
  | _ => none

end State

def step (s : State) : Label → Option State
  | .write o bytes =>
      if s.ended = none ∧ (s.pipe o).writer ∧ (s.pipe o).reader then
        some (s.setPipe o { s.pipe o with
          content := (s.pipe o).content ++ bytes, written := (s.pipe o).written ++ bytes })
      else none
  | .closeOutput o =>
      if s.ended = none then some (s.setPipe o { s.pipe o with writer := false }) else none
  | .exit result =>
      if s.ended = none then
        some { s with ended := some result, pipe := fun o => { s.pipe o with writer := false } }
      else none
  | .read o n => s.read o n
  | .send o =>
      match s.stream o with
      -- a failure of the send is logged and the loop goes on
      | .sending payload buffered =>
          some ((s.respond (o.response payload)).setStream o (.reading buffered))
      | _ => none
  | .wait =>
      match s.handler, s.ended with
      | .waiting, some result =>
          some { s with
            handler := .waited result, pipe := fun o => { s.pipe o with reader := false } }
      | _, _ => none
  | .finish =>
      match s.handler with
      | .waited result =>
          if s.stream .stdout = .done ∧ s.stream .stderr = .done then
            some { s.respond (.finished (Int32.ofInt result.exitCode)) with handler := .returned }
          else none
      | _ => none
  | .disconnect => some { s with connected := false }

/-- The process has been started and nothing else has happened. -/
structure Initial (s : State) : Prop where
  running : s.ended = none
  pipe : ∀ o, s.pipe o = ⟨[], [], true, true⟩
  stream : ∀ o, s.stream o = .reading []
  handler : s.handler = .waiting
  sent : ∃ pid, s.sent = [.started pid]

/-- Finished is the last response, and by then both outputs have been sent in full. -/
def Delivered (s : State) : Prop :=
  ∀ before rc after, s.sent = before ++ .finished rc :: after →
    after = [] ∧ ∀ o, payloads o before = (s.pipe o).written

/-- `Cmd.Wait` finds both pipes read to their end. -/
def WaitsDrained (s : State) : Label → Prop
  | .wait => ∀ o, (s.pipe o).content = []
  | _ => True

instance (s : State) (l : Label) : Decidable (WaitsDrained s l) :=
  match l with
  | .wait => decidable_of_iff ((s.pipe .stdout).content = [] ∧ (s.pipe .stderr).content = [])
      ⟨fun h o => by cases o; exacts [h.1, h.2], fun h => ⟨h .stdout, h .stderr⟩⟩
  | .write .. | .closeOutput _ | .exit _ | .read .. | .send _ | .finish | .disconnect =>
      isTrue trivial

section Payloads

variable {o : Output}

@[simp] theorem payloads_append (sent sent' : List CommandResponse) :
    payloads o (sent ++ sent') = payloads o sent ++ payloads o sent' := by
  simp [payloads]

@[simp] theorem payloads_response (o' : Output) (payload : Bytes) :
    payloads o [o'.response payload] = if o = o' then payload else [] := by
  cases o' <;> simp [payloads, Output.response, CommandResponse.payload]

@[simp] theorem payloads_finished (rc : Int32) : payloads o [.finished rc] = [] := rfl

theorem response_ne_finished (payload : Bytes) (rc : Int32) :
    o.response payload ≠ .finished rc := by
  cases o <;> simp [Output.response]

@[simp] theorem held_reading (buffered : Bytes) : (Reader.reading buffered).held = buffered := rfl

@[simp] theorem held_sending (payload buffered : Bytes) :
    (Reader.sending payload buffered).held = payload ++ buffered := rfl

@[simp] theorem held_deliver (buffered : Bytes) : (Reader.deliver buffered).held = buffered := by
  simp [Reader.deliver, Reader.held]

end Payloads

/-- Until a response is lost, what the process wrote is spread over the responses, the
readers and the pipes; a closed end leaves nothing behind. -/
structure Conserved (s : State) : Prop where
  balance : s.connected = true ∨ (∃ rc, .finished rc ∈ s.sent) → ∀ o,
    payloads o s.sent ++ (s.stream o).held ++ (s.pipe o).content = (s.pipe o).written
  closed : ∀ o, (s.pipe o).reader = false → (s.pipe o).content = []
  left : ∀ o, s.stream o = .done → (s.pipe o).reader = false

/-- Finished is sent by the returning handler, after both readers have left. -/
structure Ordered (s : State) : Prop where
  unfinished : s.handler ≠ .returned → ∀ rc, .finished rc ∉ s.sent
  quiet : s.handler = .returned → ∀ o, s.stream o = .done
  last : ∀ before rc after, s.sent = before ++ .finished rc :: after → after = []

inductive Move (s : State) : Label → State → Prop
  | silent {l : Label} {t : State} (sent : t.sent = s.sent)
      (handler : t.handler = .returned ↔ s.handler = .returned)
      (stream : ∀ o, s.stream o = .done → t.stream o = .done) : Move s l t
  | send {o : Output} {payload buffered : Bytes} (h : s.stream o = .sending payload buffered) :
      Move s (.send o) ((s.respond (o.response payload)).setStream o (.reading buffered))
  | finish {result : WaitResult} (waited : s.handler = .waited result)
      (done : ∀ o, s.stream o = .done) :
      Move s .finish
        { s.respond (.finished (Int32.ofInt result.exitCode)) with handler := .returned }

section Moves

variable {s t : State} {l : Label} {o : Output} {n : Nat}

/-- The turns of a reader: from its buffer, from the pipe, or out of the loop. -/
inductive Turned (s : State) (o : Output) : State → Prop
  | buffer {buffered : Bytes} (h : s.stream o = .reading buffered) :
      Turned s o (s.setStream o (.deliver buffered))
  | pipe (n : Nat) (h : s.stream o = .reading []) (reader : (s.pipe o).reader = true) :
      Turned s o ((s.setStream o (.deliver ((s.pipe o).content.take n))).setPipe o
        { s.pipe o with content := (s.pipe o).content.drop n })
  | left (h : s.stream o = .reading [])
      (empty : (s.pipe o).reader = false ∨ (s.pipe o).content = []) : Turned s o (s.leave o)

theorem turned_of_read (h : s.read o n = some t) : Turned s o t := by
  unfold State.read at h
  split at h
  · rename_i buffered hs
    dsimp only at h
    split at h
    · obtain rfl := Option.some.inj h
      exact .buffer hs
    · rename_i hbuf
      obtain rfl : buffered = [] := by simpa using hbuf
      split at h
      · rename_i hr
        obtain rfl := Option.some.inj h
        exact .left hs (Or.inl (by simpa using hr))
      · rename_i hr
        split at h
        · rename_i hc
          split at h
          · cases h
          · obtain rfl := Option.some.inj h
            exact .left hs (Or.inr hc)
        · split at h
          · obtain rfl := Option.some.inj h
            exact .pipe n hs (by simpa using hr)
          · cases h
  · cases h

theorem Turned.stream_done (h : Turned s o t) {o' : Output} (hd : s.stream o' = .done) :
    t.stream o' = .done := by
  have hne : s.stream o ≠ .done → o' ≠ o := fun hs e => hs (e ▸ hd)
  cases h with
  | buffer h =>
      have ho := hne (by simp [h])
      simpa [State.setStream, ho] using hd
  | pipe _ h _ =>
      have ho := hne (by simp [h])
      simpa [State.setStream, State.setPipe, ho] using hd
  | left h _ =>
      have ho := hne (by simp [h])
      simpa [State.leave, State.setStream, State.setPipe, ho] using hd

theorem Turned.sent (h : Turned s o t) : t.sent = s.sent ∧ t.handler = s.handler := by
  cases h <;> exact ⟨rfl, rfl⟩

theorem move_of_step (h : step s l = some t) : Move s l t := by
  cases l with
  | write o bytes =>
      simp only [step, Option.ite_none_right_eq_some, Option.some.injEq] at h
      obtain ⟨_, rfl⟩ := h
      exact .silent rfl Iff.rfl fun _ => id
  | closeOutput o =>
      simp only [step, Option.ite_none_right_eq_some, Option.some.injEq] at h
      obtain ⟨_, rfl⟩ := h
      exact .silent rfl Iff.rfl fun _ => id
  | exit result =>
      simp only [step, Option.ite_none_right_eq_some, Option.some.injEq] at h
      obtain ⟨_, rfl⟩ := h
      exact .silent rfl Iff.rfl fun _ => id
  | read o n =>
      have hturn := turned_of_read h
      obtain ⟨hsent, hhandler⟩ := hturn.sent
      exact .silent hsent (by rw [hhandler]) fun _ => hturn.stream_done
  | send o =>
      simp only [step] at h
      split at h
      · rename_i payload buffered hs
        obtain rfl := Option.some.inj h
        exact .send hs
      · cases h
  | wait =>
      simp only [step] at h
      split at h
      · rename_i hw _
        obtain rfl := Option.some.inj h
        exact .silent rfl (by simp [hw]) fun _ => id
      · cases h
  | finish =>
      simp only [step] at h
      split at h
      · rename_i result hw
        simp only [Option.ite_none_right_eq_some, Option.some.injEq] at h
        obtain ⟨⟨hout, herr⟩, rfl⟩ := h
        refine .finish hw fun o => ?_
        cases o
        · exact hout
        · exact herr
      · cases h
  | disconnect =>
      obtain rfl := Option.some.inj h
      exact .silent rfl Iff.rfl fun _ => id

end Moves

section Order

variable {s t : State} {l : Label} {sent before after : List CommandResponse}
  {response : CommandResponse}

theorem sent_respond (response : CommandResponse) :
    (s.respond response).sent = s.sent ∨ (s.respond response).sent = s.sent ++ [response] := by
  unfold State.respond
  split
  · exact Or.inr rfl
  · exact Or.inl rfl

theorem handler_respond (response : CommandResponse) :
    (s.respond response).handler = s.handler := by
  unfold State.respond
  split <;> rfl

theorem stream_respond (response : CommandResponse) (o : Output) :
    (s.respond response).stream o = s.stream o := by
  unfold State.respond
  split <;> rfl

theorem pipe_respond (response : CommandResponse) (o : Output) :
    (s.respond response).pipe o = s.pipe o := by
  unfold State.respond
  split <;> rfl

theorem connected_respond (response : CommandResponse) :
    (s.respond response).connected = s.connected := by
  unfold State.respond
  split <;> rfl

theorem mem_of_eq_append (h : sent = before ++ response :: after) : response ∈ sent := by
  simp [h]

theorem after_eq_nil {rc : Int32} (hsent : ∀ rc, .finished rc ∉ sent)
    (h : sent ++ [response] = before ++ .finished rc :: after) : after = [] := by
  rcases List.eq_nil_or_concat after with rfl | ⟨init, last, rfl⟩
  · rfl
  · rw [List.concat_eq_append, ← List.cons_append, ← List.append_assoc] at h
    obtain ⟨rfl, _⟩ := List.append_inj' h rfl
    exact absurd (by simp) (hsent rc)

theorem Ordered.not_returned (h : Ordered s) {o : Output} {payload buffered : Bytes}
    (hs : s.stream o = .sending payload buffered) : s.handler ≠ .returned := by
  intro hr
  have hdone := h.quiet hr o
  rw [hs] at hdone
  cases hdone

theorem Ordered.move (h : Ordered s) (hm : Move s l t) : Ordered t := by
  cases hm with
  | silent sent handler stream =>
      refine ⟨fun hr rc => ?_, fun hr o => ?_, ?_⟩
      · rw [sent]
        exact h.unfinished (fun e => hr (handler.mpr e)) rc
      · exact stream o (h.quiet (handler.mp hr) o)
      · rw [sent]
        exact h.last
  | @send o payload buffered hs =>
      have hr := h.not_returned hs
      have hnone : ∀ rc, .finished rc ∉ (s.respond (o.response payload)).sent := by
        intro rc
        rcases sent_respond (s := s) (o.response payload) with hsent | hsent
        · rw [hsent]
          exact h.unfinished hr rc
        · rw [hsent, List.mem_append, List.mem_singleton, not_or]
          exact ⟨h.unfinished hr rc, (response_ne_finished payload rc).symm⟩
      refine ⟨fun _ => hnone, fun e => absurd ((handler_respond _).symm.trans e) hr, ?_⟩
      intro before rc after hsent
      exact absurd (mem_of_eq_append hsent) (hnone rc)
  | @finish result waited done =>
      have hr : s.handler ≠ .returned := by simp [waited]
      refine ⟨fun e => absurd rfl e, fun _ o => (stream_respond _ o).trans (done o), ?_⟩
      intro before rc after hsent
      rcases sent_respond (s := s) (.finished (Int32.ofInt result.exitCode)) with hs | hs
      · exact absurd (mem_of_eq_append (hs.symm.trans hsent)) (h.unfinished hr rc)
      · exact after_eq_nil (h.unfinished hr) (hs.symm.trans hsent)

end Order

section Conservation

variable {s t : State} {l : Label} {o : Output}

/-- A step at one output that sends nothing: it only has to keep the balance there. -/
theorem Conserved.update (h : Conserved s) (reader : Reader) (pipe : Pipe)
    (balance : ∀ sent, sent ++ (s.stream o).held ++ (s.pipe o).content = (s.pipe o).written →
      sent ++ reader.held ++ pipe.content = pipe.written)
    (closed : pipe.reader = false → pipe.content = [])
    (left : reader = .done → pipe.reader = false) :
    Conserved ((s.setStream o reader).setPipe o pipe) := by
  refine ⟨fun hc o' => ?_, fun o' => ?_, fun o' => ?_⟩
  all_goals by_cases ho : o' = o
  · subst ho
    simpa [State.setStream, State.setPipe] using balance _ (h.balance hc o')
  · simpa [State.setStream, State.setPipe, ho] using h.balance hc o'
  · subst ho
    simpa [State.setPipe] using closed
  · simpa [State.setStream, State.setPipe, ho] using h.closed o'
  · subst ho
    simpa [State.setStream, State.setPipe] using left
  · simpa [State.setStream, State.setPipe, ho] using h.left o'

theorem setStream_self (s : State) (o : Output) : s.setStream o (s.stream o) = s := by
  simp [State.setStream]

theorem Conserved.setPipe (h : Conserved s) {pipe : Pipe}
    (balance : ∀ sent, sent ++ (s.pipe o).content = (s.pipe o).written →
      sent ++ pipe.content = pipe.written)
    (closed : pipe.reader = false → pipe.content = [])
    (reader : (s.pipe o).reader = false → pipe.reader = false) :
    Conserved (s.setPipe o pipe) := by
  have hall := h.update (o := o) (s.stream o) pipe
    (fun sent => balance (sent ++ _)) closed fun hd => reader (h.left o hd)
  rwa [setStream_self] at hall

theorem Conserved.turned (h : Conserved s) (ht : Turned s o t) : Conserved t := by
  cases ht with
  | @buffer buffered hs =>
      have hall := h.update (o := o) (.deliver buffered) (s.pipe o)
        (fun sent hb => by simpa [hs] using hb) (h.closed o)
        fun hd => by simp [Reader.deliver] at hd
      simpa [State.setPipe, State.setStream] using hall
  | pipe n hs reader =>
      refine h.update _ _ (fun sent hb => ?_) (fun hr => ?_)
        fun hd => by simp [Reader.deliver] at hd
      · simpa [hs, ← List.append_assoc _ _ (List.drop n _)] using hb
      · exact absurd (reader.symm.trans hr) (by simp)
  | left hs empty =>
      have hempty : (s.pipe o).content = [] := empty.elim (h.closed o) id
      exact h.update _ _ (fun sent hb => by simpa [hs, Reader.held] using hb) (fun _ => hempty)
        fun _ => rfl

theorem Conserved.send {payload buffered : Bytes} (h : Conserved s) (hord : Ordered s)
    (hs : s.stream o = .sending payload buffered) :
    Conserved ((s.respond (o.response payload)).setStream o (.reading buffered)) := by
  have hnone := hord.unfinished (hord.not_returned hs)
  refine ⟨fun hc o' => ?_, fun o' => ?_, fun o' => ?_⟩
  · cases hup : s.connected with
    | false =>
        have hsent : (s.respond (o.response payload)).sent = s.sent := by
          simp [State.respond, hup]
        simp only [State.setStream, connected_respond, hup, hsent] at hc
        obtain hc | ⟨rc, hrc⟩ := hc
        · cases hc
        · exact absurd hrc (hnone rc)
    | true =>
        have hb := h.balance (Or.inl hup) o'
        by_cases ho : o' = o
        · subst ho
          simpa [State.respond, State.setStream, hup, hs] using hb
        · simpa [State.respond, State.setStream, hup, ho] using hb
  · simpa [State.setStream, pipe_respond] using h.closed o'
  · by_cases ho : o' = o
    · subst ho
      simp [State.setStream]
    · simpa [State.setStream, pipe_respond, stream_respond, ho] using h.left o'

theorem Conserved.finish (h : Conserved s) (rc : Int32) :
    Conserved { s.respond (.finished rc) with handler := .returned } := by
  cases hup : s.connected with
  | false =>
      have hsame : s.respond (.finished rc) = s := by simp [State.respond, hup]
      rw [hsame]
      exact ⟨h.balance, h.closed, h.left⟩
  | true =>
      refine ⟨fun _ o => ?_, fun o => ?_, fun o => ?_⟩
      · simpa [State.respond, hup] using h.balance (Or.inl hup) o
      · simpa [pipe_respond] using h.closed o
      · simpa [pipe_respond, stream_respond] using h.left o

theorem Conserved.step (h : Conserved s) (hord : Ordered s) (hok : WaitsDrained s l)
    (hstep : step s l = some t) : Conserved t := by
  cases l with
  | write o bytes =>
      simp only [Streaming.step, Option.ite_none_right_eq_some, Option.some.injEq] at hstep
      obtain ⟨⟨_, _, hreader⟩, rfl⟩ := hstep
      refine h.setPipe (fun sent hb => ?_) (fun hr => ?_) id
      · rw [← hb, List.append_assoc]
      · exact absurd (hreader.symm.trans hr) (by simp)
  | closeOutput o =>
      simp only [Streaming.step, Option.ite_none_right_eq_some, Option.some.injEq] at hstep
      obtain ⟨_, rfl⟩ := hstep
      exact h.setPipe (fun _ => id) (h.closed o) id
  | exit result =>
      simp only [Streaming.step, Option.ite_none_right_eq_some, Option.some.injEq] at hstep
      obtain ⟨_, rfl⟩ := hstep
      exact ⟨h.balance, h.closed, h.left⟩
  | read o n => exact h.turned (turned_of_read hstep)
  | send o =>
      simp only [Streaming.step] at hstep
      split at hstep
      · rename_i payload buffered hs
        obtain rfl := Option.some.inj hstep
        exact h.send hord hs
      · cases hstep
  | wait =>
      simp only [Streaming.step] at hstep
      split at hstep
      · obtain rfl := Option.some.inj hstep
        exact ⟨h.balance, fun o _ => hok o, fun o _ => rfl⟩
      · cases hstep
  | finish =>
      simp only [Streaming.step] at hstep
      split at hstep
      · simp only [Option.ite_none_right_eq_some, Option.some.injEq] at hstep
        obtain ⟨_, rfl⟩ := hstep
        exact h.finish _
      · cases hstep
  | disconnect =>
      obtain rfl := Option.some.inj hstep
      exact ⟨fun hc => h.balance (Or.inr (hc.resolve_left (by simp))), h.closed, h.left⟩

/-- While `Cmd.Wait` only closes pipes that have been read to their end, Finished comes
last and after the whole output. -/
theorem delivered_of_waitsDrained (h : Reach step WaitsDrained Initial s) : Delivered s := by
  have hinv : Ordered s ∧ Conserved s := by
    refine Reach.invariant (P := fun s => Ordered s ∧ Conserved s) ?_ ?_ h
    · rintro s ⟨-, hpipe, hstream, hhandler, pid, hsent⟩
      refine ⟨⟨by simp [hsent], by simp [hhandler], fun before rc after he => ?_⟩, ?_, ?_, ?_⟩
      · have hmem : .finished rc ∈ s.sent := mem_of_eq_append he
        simp [hsent] at hmem
      · intro _ o
        simp [hsent, hpipe, hstream, payloads, CommandResponse.payload]
      · simp [hpipe]
      · simp [hstream]
    · rintro s l t ⟨hord, hcons⟩ hok hstep
      exact ⟨hord.move (move_of_step hstep), hcons.step hord hok hstep⟩
  obtain ⟨hord, hcons⟩ := hinv
  intro before rc after hsent
  have hfin : .finished rc ∈ s.sent := mem_of_eq_append hsent
  have hret : s.handler = .returned := by
    by_contra hne
    exact hord.unfinished hne rc hfin
  obtain rfl := hord.last before rc after hsent
  refine ⟨rfl, fun o => ?_⟩
  have hdone := hord.quiet hret o
  have hempty := hcons.closed o (hcons.left o hdone)
  simpa [hdone, hempty, hsent, Reader.held] using hcons.balance (Or.inr ⟨rc, hfin⟩) o

end Conservation

def started : State :=
  ⟨none, fun _ => ⟨[], [], true, true⟩, fun _ => .reading [], .waiting, true, [.started 7]⟩

theorem initial_started : Initial started :=
  ⟨rfl, fun _ => rfl, fun _ => rfl, rfl, 7, rfl⟩

/-- The output is read before the process is waited for. -/
def drainedRun : List Label :=
  [.write .stdout [111, 107], .read .stdout 2, .exit .success, .send .stdout, .read .stdout 1,
    .wait, .read .stderr 1, .finish]

theorem delivered_of_waitsDrained_drainedRun :
    ∃ s, Reach step WaitsDrained Initial s ∧
      s.sent = [.started 7, .stdout [111, 107], .finished 0] ∧ Delivered s := by
  have hrun : ((run (fun s l => if WaitsDrained s l then step s l else none) started
      drainedRun).map State.sent) = some [.started 7, .stdout [111, 107], .finished 0] := by
    decide +kernel
  obtain ⟨s, hs, hsent⟩ := Option.map_eq_some_iff.mp hrun
  have hreach := Reach.of_run (Reach.init initial_started) hs
  exact ⟨s, hreach, hsent, delivered_of_waitsDrained hreach⟩

/-- `Cmd.Wait` closes the pipe before the reader has read it. -/
def cutRun : List Label :=
  [.write .stdout [111, 107], .exit .success, .wait, .read .stdout 2, .read .stderr 1, .finish]

theorem cutRun_loses_output :
    ∃ s, Reach step (fun _ _ => True) Initial s ∧ s.sent = [.started 7, .finished 0] ∧
      (s.pipe .stdout).written = [111, 107] ∧ ¬ Delivered s := by
  have hrun : ((run (fun s l => if True then step s l else none) started cutRun).map fun s =>
      (s.sent, (s.pipe .stdout).written)) = some ([.started 7, .finished 0], [111, 107]) := by
    decide +kernel
  obtain ⟨s, hs, hout⟩ := Option.map_eq_some_iff.mp hrun
  obtain ⟨hsent, hwritten⟩ := Prod.mk.inj hout
  refine ⟨s, Reach.of_run (Reach.init initial_started) hs, hsent, hwritten, fun hdel => ?_⟩
  have hout := (hdel [.started 7] 0 [] hsent).2 .stdout
  rw [hwritten] at hout
  exact absurd hout (by decide)

end Streaming

end GhafGivc.Exec
