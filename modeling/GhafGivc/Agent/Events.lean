import Mathlib.Data.List.Infix

/-! # Forwarded input events

An agent reads the events of an input device and streams them to an agent that registered a
virtual device for it. The consumer keeps one gamepad and one mouse, and sends what it receives
to the gamepad if there is one. A device is not taken out when another one takes its place.
-/

namespace GhafGivc.Agent

structure InputEvent where
  type : UInt16
  code : UInt16
  value : Int32
deriving DecidableEq

structure EventMessage where
  type : UInt32
  code : UInt32
  value : Int32
deriving DecidableEq

def InputEvent.toMessage (event : InputEvent) : EventMessage :=
  ⟨event.type.toUInt32, event.code.toUInt32, event.value⟩

def EventMessage.toEvent (message : EventMessage) : InputEvent :=
  ⟨message.type.toUInt16, message.code.toUInt16, message.value⟩

/-! ## The consumer -/

inductive DeviceKind where
  | gamepad
  | mouse
deriving DecidableEq

/-- A virtual device, numbered in the order of registration. -/
structure Device where
  kind : DeviceKind
  serial : Nat
deriving DecidableEq

structure EventServer where
  virtualGamepad : Option Device
  virtualMouse : Option Device
  registered : Nat
deriving DecidableEq

/-- What reaches the consumer: a device to register, with what becomes of its registration, an
event, the end or a failure of a stream, and the end of the service. -/
inductive EventInput where
  | registerDevice (name : String) (answer : Except String Unit)
  | event (message : EventMessage)
  | eof
  | streamError
  | close
deriving DecidableEq

inductive DeviceOp where
  | send (device : Device) (event : InputEvent)
  | unregister (device : Device)
deriving DecidableEq

def DeviceOp.device : DeviceOp → Device
  | send device _ => device
  | unregister device => device

namespace EventServer

def start : EventServer := ⟨none, none, 0⟩

def target (s : EventServer) : Option Device :=
  match s.virtualGamepad with
  | some device => some device
  | none => s.virtualMouse

def register (s : EventServer) : DeviceKind → EventServer
  | .gamepad => ⟨some ⟨.gamepad, s.registered⟩, s.virtualMouse, s.registered + 1⟩
  | .mouse => ⟨s.virtualGamepad, some ⟨.mouse, s.registered⟩, s.registered + 1⟩

-- how a name is put in lower case
variable (toLower : String → String)

def deviceKind (name : String) : Option DeviceKind :=
  if "wireless controller".toList <:+: (toLower name).toList then some .gamepad
  else if "mouse".toList <:+: (toLower name).toList then some .mouse
  else none

/-- `Close` unregisters one device and keeps its handle. -/
def step (s : EventServer) : EventInput → EventServer × List DeviceOp
  | .registerDevice name answer =>
      match deviceKind toLower name, answer with
      | some kind, .ok _ => (s.register kind, [])
      | _, _ => (s, [])
  | .event message => (s, (s.target.map (.send · message.toEvent)).toList)
  | .eof => (s, [])
  | .streamError | .close => (s, (s.target.map .unregister).toList)

def run (s : EventServer) : List EventInput → EventServer × List DeviceOp
  | [] => (s, [])
  | input :: later =>
      ((run (step toLower s input).1 later).1,
        (step toLower s input).2 ++ (run (step toLower s input).1 later).2)

end EventServer

/-! ## Devices that are left behind -/

/-- The device was registered, and nothing goes to it. -/
structure EventServer.Behind (s : EventServer) (device : Device) : Prop where
  serial : device.serial < s.registered
  target : s.target ≠ some device

section Behind

variable {toLower : String → String} {s : EventServer} {device : Device}

theorem EventServer.Behind.register (h : s.Behind device) (kind : DeviceKind) :
    (s.register kind).Behind device := by
  have hserial := h.serial
  have htarget := h.target
  have hfresh (kind : DeviceKind) : (⟨kind, s.registered⟩ : Device) ≠ device := by
    intro heq
    rw [← heq] at hserial
    exact Nat.lt_irrefl _ hserial
  cases kind with
  | gamepad =>
      refine ⟨Nat.lt_succ_of_lt hserial, ?_⟩
      intro heq
      exact hfresh .gamepad (Option.some.inj heq)
  | mouse =>
      refine ⟨Nat.lt_succ_of_lt hserial, ?_⟩
      unfold EventServer.target at htarget ⊢
      cases hpad : s.virtualGamepad with
      | some pad =>
          rw [hpad] at htarget
          simpa [EventServer.register, hpad] using htarget
      | none =>
          simp only [EventServer.register, hpad]
          intro heq
          exact hfresh .mouse (Option.some.inj heq)

theorem EventServer.Behind.step (h : s.Behind device) (input : EventInput) :
    (EventServer.step toLower s input).1.Behind device ∧
      ∀ op ∈ (EventServer.step toLower s input).2, op.device ≠ device := by
  have hother (op : Device → DeviceOp) (hop : ∀ d, (op d).device = d) :
      ∀ made ∈ (s.target.map op).toList, made.device ≠ device := by
    intro made hmade
    rcases Option.map_eq_some_iff.mp (Option.mem_toList.mp hmade) with ⟨found, hfound, rfl⟩
    rw [hop]
    intro heq
    exact h.target (by rw [hfound, heq])
  cases input with
  | registerDevice name answer =>
      cases hkind : EventServer.deviceKind toLower name with
      | none => exact ⟨by simpa only [EventServer.step, hkind] using h, by
          simp [EventServer.step, hkind]⟩
      | some kind =>
          cases answer with
          | error cause => exact ⟨by simpa only [EventServer.step, hkind] using h, by
              simp [EventServer.step, hkind]⟩
          | ok _ => exact ⟨by simpa only [EventServer.step, hkind] using h.register kind, by
              simp [EventServer.step, hkind]⟩
  | event message => exact ⟨h, hother _ fun _ => rfl⟩
  | eof => exact ⟨h, by simp [EventServer.step]⟩
  | streamError => exact ⟨h, hother _ fun _ => rfl⟩
  | close => exact ⟨h, hother _ fun _ => rfl⟩

theorem EventServer.Behind.run (h : s.Behind device) (inputs : List EventInput) :
    ∀ op ∈ (EventServer.run toLower s inputs).2, op.device ≠ device := by
  induction inputs generalizing s with
  | nil => simp [EventServer.run]
  | cons input later ih =>
      have hstep : (EventServer.step toLower s input).1.Behind device ∧
          ∀ op ∈ (EventServer.step toLower s input).2, op.device ≠ device := h.step input
      intro op hop
      rcases List.mem_append.mp hop with hnow | hlater
      · exact hstep.2 op hnow
      · exact ih hstep.1 op hlater

/-- Once events do not go to a device that was registered, nothing is done with it again: no
event is sent to it, and it is not unregistered when streams fail or the service ends. -/
theorem device_left_behind (toLower : String → String) (before after : List EventInput)
    (device : Device)
    (hserial : device.serial < (EventServer.run toLower .start before).1.registered)
    (htarget : (EventServer.run toLower .start before).1.target ≠ some device) :
    ∀ op ∈ (EventServer.run toLower (EventServer.run toLower .start before).1 after).2,
      op.device ≠ device :=
  EventServer.Behind.run ⟨hserial, htarget⟩ after

/-- A controller is disconnected and registered again; then the stream fails. -/
def reconnected : EventServer :=
  (EventServer.run id .start
    [.registerDevice "xbox wireless controller" (.ok ()), .event ⟨1, 304, 1⟩,
      .registerDevice "xbox wireless controller" (.ok ())]).1

theorem device_left_behind_reconnected :
    (⟨.gamepad, 0⟩ : Device).serial < reconnected.registered ∧
      ∀ op ∈ (EventServer.run id reconnected [.event ⟨1, 304, 0⟩, .streamError, .close]).2,
        op.device ≠ ⟨.gamepad, 0⟩ := by
  have hsamples : reconnected.registered = 2 ∧
      reconnected.target = some ⟨.gamepad, 1⟩ := by decide +kernel
  have hserial : (⟨.gamepad, 0⟩ : Device).serial < reconnected.registered := by
    rw [hsamples.1]
    decide
  have htarget : reconnected.target ≠ some ⟨.gamepad, 0⟩ := by
    rw [hsamples.2]
    decide
  exact ⟨hserial, device_left_behind id _ _ _ hserial htarget⟩

end Behind

/-! ## The producer -/

/-- A turn of the loop: the context is done, or the device is read. -/
inductive DeviceTurn where
  | cancelled
  | read (answer : Except String (List InputEvent))
deriving DecidableEq

section Producer

-- what becomes of the sends, by the number of the message
variable (send : Nat → Except String Unit)

/-- The events of one read, until one cannot be sent. -/
def sendEvents : Nat → List InputEvent → Except String Unit × List EventMessage
  | _, [] => (.ok (), [])
  | n, event :: later =>
      match send n with
      | .error cause => (.error cause, [])
      | .ok _ => ((sendEvents (n + 1) later).1, event.toMessage :: (sendEvents (n + 1) later).2)

/-- The messages sent, and the result unless the loop goes on. -/
def streamDeviceEvents : Nat → List DeviceTurn → Option (Except String Unit) × List EventMessage
  | _, [] => (none, [])
  | _, .cancelled :: _ => (some (.ok ()), [])
  | n, .read (.error cause) :: later =>
      if "no such device".toList <:+: cause.toList then
        (some (.error "device disconnected"), [])
      else streamDeviceEvents n later
  | n, .read (.ok events) :: later =>
      match sendEvents send n events with
      | (.error cause, sent) => (some (.error cause), sent)
      | (.ok _, sent) =>
          let rest := streamDeviceEvents (n + sent.length) later
          (rest.1, sent ++ rest.2)

end Producer

def eventsRead : List DeviceTurn → List InputEvent
  | [] => []
  | .cancelled :: later => eventsRead later
  | .read (.error _) :: later => eventsRead later
  | .read (.ok events) :: later => events ++ eventsRead later

def EventInput.message? : EventInput → Option EventMessage
  | .event message => some message
  | _ => none

/-- A stream that fails and the end of the service take the device out. -/
def EventInput.takesOut : EventInput → Bool
  | .streamError | .close => true
  | _ => false

/-- The messages that arrive while the device is there. -/
def arrivals (inputs : List EventInput) : List EventMessage :=
  (inputs.takeWhile fun input => !input.takesOut).filterMap EventInput.message?

/-- What a device receives, until it is unregistered. -/
def received (device : Device) : List DeviceOp → List InputEvent
  | [] => []
  | .send other event :: later =>
      if other = device then event :: received device later else received device later
  | .unregister other :: later => if other = device then [] else received device later

section Forwarding

variable {toLower : String → String} {send : Nat → Except String Unit} {s : EventServer}
  {device : Device}

@[simp] theorem toEvent_toMessage (event : InputEvent) : event.toMessage.toEvent = event := by
  simp [InputEvent.toMessage, EventMessage.toEvent]

theorem sendEvents_isPrefix (send : Nat → Except String Unit) (n : Nat) (events : List InputEvent) :
    (sendEvents send n events).2 <+: events.map InputEvent.toMessage ∧
      ((sendEvents send n events).1 = .ok () →
        (sendEvents send n events).2 = events.map InputEvent.toMessage) := by
  induction events generalizing n with
  | nil => exact ⟨List.prefix_rfl, fun _ => rfl⟩
  | cons event later ih =>
      unfold sendEvents
      cases send n with
      | error cause => exact ⟨List.nil_prefix, fun h => by cases h⟩
      | ok _ =>
          rcases ih (n + 1) with ⟨hle, hall⟩
          refine ⟨(List.prefix_cons_inj _).mpr hle, fun h => ?_⟩
          rw [List.map_cons]
          exact congrArg _ (hall h)

theorem streamDeviceEvents_isPrefix (n : Nat) (turns : List DeviceTurn) :
    (streamDeviceEvents send n turns).2 <+: (eventsRead turns).map InputEvent.toMessage := by
  induction turns generalizing n with
  | nil => exact List.prefix_rfl
  | cons turn later ih =>
      cases turn with
      | cancelled => exact List.nil_prefix
      | read answer =>
          cases answer with
          | error cause =>
              unfold streamDeviceEvents
              split
              · exact List.nil_prefix
              · exact ih n
          | ok events =>
              have hevents := sendEvents_isPrefix send n events
              unfold streamDeviceEvents eventsRead
              rw [List.map_append]
              cases hsent : sendEvents send n events with
              | mk result sent =>
                  rw [hsent] at hevents
                  cases result with
                  | error cause => exact hevents.1.trans (List.prefix_append _ _)
                  | ok _ =>
                      rw [← hevents.2 rfl]
                      exact (List.prefix_append_right_inj _).mpr (ih _)

theorem received_run (toLower : String → String) (inputs : List EventInput)
    (htarget : s.target = some device)
    (hinputs : ∀ name answer, .registerDevice name answer ∉ inputs) :
    received device (EventServer.run toLower s inputs).2 =
      (arrivals inputs).map EventMessage.toEvent := by
  induction inputs with
  | nil => rfl
  | cons input later ih =>
      have hlater := ih fun name answer hin => hinputs name answer (List.mem_cons_of_mem _ hin)
      cases input with
      | registerDevice name answer =>
          exact absurd List.mem_cons_self (hinputs name answer)
      | event message =>
          simp [EventServer.run, EventServer.step, htarget, received, arrivals,
            EventInput.takesOut, EventInput.message?, hlater]
      | eof => exact hlater
      | streamError | close =>
          simp [EventServer.run, EventServer.step, htarget, received, arrivals,
            EventInput.takesOut]

/-- From device to device: whatever reads and sends fail, the virtual device receives exactly
the messages that arrive before its stream fails or the service ends, and these are the first
events of the device, each once, in order and with type, code and value unchanged. -/
theorem events_forwarded (toLower : String → String) (send : Nat → Except String Unit)
    (turns : List DeviceTurn) (inputs : List EventInput)
    (htarget : s.target = some device)
    (hinputs : ∀ name answer, .registerDevice name answer ∉ inputs)
    (harrived : inputs.filterMap EventInput.message? <+: (streamDeviceEvents send 0 turns).2) :
    received device (EventServer.run toLower s inputs).2 =
        (arrivals inputs).map EventMessage.toEvent ∧
      received device (EventServer.run toLower s inputs).2 =
        (eventsRead turns).take (arrivals inputs).length := by
  have hall := received_run toLower inputs htarget hinputs
  refine ⟨hall, ?_⟩
  have hbefore : arrivals inputs <+: inputs.filterMap EventInput.message? :=
    (List.takeWhile_prefix _).filterMap _
  have hread := (hbefore.trans harrived).trans (streamDeviceEvents_isPrefix 0 turns)
  have htake := List.prefix_iff_eq_take.mp hread
  rw [hall]
  nth_rewrite 1 [htake]
  rw [← List.map_take, List.map_map]
  simp [Function.comp_def]

/-- Three events are read in two turns, with a failed read between them. -/
def gamepadTurns : List DeviceTurn :=
  [.read (.ok [⟨3, 0, 128⟩, ⟨3, 1, -5⟩]), .read (.error "interrupted"), .read (.ok [⟨0, 0, 0⟩])]

/-- Two of them arrive before the stream fails. -/
def gamepadInputs : List EventInput :=
  [.event ⟨3, 0, 128⟩, .eof, .event ⟨3, 1, -5⟩, .streamError, .event ⟨0, 0, 0⟩]

theorem events_forwarded_gamepad :
    received ⟨.gamepad, 4⟩ (EventServer.run id ⟨some ⟨.gamepad, 4⟩, none, 5⟩ gamepadInputs).2 =
      [⟨3, 0, 128⟩, ⟨3, 1, -5⟩] := by
  have hsent : gamepadInputs.filterMap EventInput.message? <+:
      (streamDeviceEvents (fun _ => .ok ()) 0 gamepadTurns).2 := by decide +kernel
  have hinputs : ∀ name answer, .registerDevice name answer ∉ gamepadInputs := by
    intro name answer
    simp [gamepadInputs]
  exact (events_forwarded id (fun _ => .ok ()) gamepadTurns gamepadInputs rfl hinputs hsent).1

end Forwarding

end GhafGivc.Agent
