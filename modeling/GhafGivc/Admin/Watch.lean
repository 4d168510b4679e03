import GhafGivc.Admin.Registry
import GhafGivc.Core.Transition

/-! # The watch stream

A watcher subscribes to the events of the registry and then takes a snapshot of it. Every
operation changes the map and broadcasts its events while it holds the lock, which the
snapshot takes as well but the subscription does not. A watcher may therefore see events
that are already part of its snapshot, and only the last of the events of one operation.
-/

namespace GhafGivc.Admin.Watch

open Core

/-- The registry, the events that the holder of the lock has yet to broadcast, and what the
watcher has got. -/
structure State where
  registry : Registry
  pending : List Event
  received : Option (List Event)
  snapshot : Option (List QueryResult)

inductive Label where
  | register (entry : RegistryEntry)
  | deregister (name : String) (order : List RegistryEntry)
  | updateState (name : String) (status : UnitStatus)
  | broadcast
  | subscribe
  | snapshot (contents : List QueryResult)

/-- The lock is taken for an operation; one that fails broadcasts nothing. -/
def State.locked (s : State) : Except String (Registry × List Event) → State
  | .ok (registry, events) => { s with registry := registry, pending := events }
  | .error _ => s

def step (s : State) : Label → Option State
  | .register entry =>
      if s.pending = [] then some (s.locked (.ok (s.registry.register entry))) else none
  | .deregister name order =>
      if s.pending = [] ∧ order.Perm (s.registry.cascade name) then
        some (s.locked (s.registry.deregister name order))
      else none
  | .updateState name status =>
      if s.pending = [] then some (s.locked (s.registry.updateState name status)) else none
  | .broadcast =>
      match s.pending with
      | [] => none
      | event :: pending =>
          some { s with pending := pending, received := s.received.map (· ++ [event]) }
  | .subscribe =>
      if s.received = none then some { s with received := some [] } else none
  | .snapshot contents =>
      if s.pending = [] ∧ s.received.isSome ∧ s.snapshot = none ∧
          contents.Perm s.registry.contents then
        some { s with snapshot := some contents }
      else none

def Initial (s : State) : Prop :=
  s.pending = [] ∧ s.received = none ∧ s.snapshot = none

/-- The changes of the map are those of its events: the events that are still to be broadcast
lead to the map, those seen since the subscription change nothing in it, and they lead from
the snapshot to the map. -/
structure Converging (s : State) : Prop where
  pending : ∃ base, s.registry.view = replayEvents s.pending base
  seen : ∀ received, s.received = some received →
    replayEvents (received ++ s.pending) s.registry.view = s.registry.view
  snapshot : ∀ contents, s.snapshot = some contents → ∃ received, s.received = some received ∧
    replayEvents (received ++ s.pending) (viewOf contents) = s.registry.view

section Step

variable {s t : State} {l : Label}

theorem replayEvents_append (events events' : List Event) (view : String → Option QueryResult) :
    replayEvents (events ++ events') view = replayEvents events' (replayEvents events view) := by
  simp [replayEvents, replay_append]

theorem Converging.locked (h : Converging s) (hpending : s.pending = [])
    {op : Except String (Registry × List Event)}
    (hop : ∀ registry events, op = .ok (registry, events) →
      registry.view = replayEvents events s.registry.view) : Converging (s.locked op) := by
  cases op with
  | error message => exact h
  | ok result =>
      obtain ⟨registry, events⟩ := result
      have hview := hop registry events rfl
      refine ⟨⟨s.registry.view, hview⟩, fun received hr => ?_, fun contents hc => ?_⟩
      · -- the events seen so far change nothing in the old map, so the new map is theirs
        have hold : replayEvents received s.registry.view = s.registry.view := by
          simpa [hpending] using h.seen received hr
        have hnew : registry.view = replayEvents (received ++ events) s.registry.view := by
          rw [replayEvents_append, hold, hview]
        change replayEvents (received ++ events) registry.view = registry.view
        rw [hnew]
        exact replay_replay _ _
      · obtain ⟨received, hr, hsnapshot⟩ := h.snapshot contents hc
        refine ⟨received, hr, ?_⟩
        rw [hpending, List.append_nil] at hsnapshot
        change replayEvents (received ++ events) (viewOf contents) = registry.view
        rw [replayEvents_append, hsnapshot, hview]

theorem Converging.broadcast (h : Converging s) {event : Event} {rest : List Event}
    (hpending : s.pending = event :: rest) :
    Converging { s with pending := rest, received := s.received.map (· ++ [event]) } := by
  obtain ⟨base, hbase⟩ := h.pending
  refine ⟨⟨replayEvents [event] base, ?_⟩, fun received hr => ?_, fun contents hc => ?_⟩
  · rw [hbase, hpending]
    rfl
  · obtain ⟨before, hbefore, rfl⟩ := Option.map_eq_some_iff.mp hr
    simpa [hpending] using h.seen before hbefore
  · obtain ⟨before, hbefore, hsnapshot⟩ := h.snapshot contents hc
    exact ⟨before ++ [event], by simp [hbefore], by simpa [hpending] using hsnapshot⟩

theorem Converging.subscribe (h : Converging s) (hnone : s.received = none) :
    Converging { s with received := some [] } := by
  refine ⟨h.pending, fun received hr => ?_, fun contents hc => ?_⟩
  · obtain rfl := Option.some.inj hr
    obtain ⟨base, hbase⟩ := h.pending
    rw [List.nil_append, hbase]
    exact replay_replay _ _
  · obtain ⟨received, hr, -⟩ := h.snapshot contents hc
    exact absurd (hnone.symm.trans hr) (by simp)

theorem Converging.takeSnapshot (h : Converging s) {contents : List QueryResult}
    (hreceived : s.received.isSome) (hcontents : contents.Perm s.registry.contents) :
    Converging { s with snapshot := some contents } := by
  refine ⟨h.pending, h.seen, fun found hc => ?_⟩
  obtain rfl := Option.some.inj hc
  obtain ⟨received, hr⟩ := Option.isSome_iff_exists.mp hreceived
  refine ⟨received, hr, ?_⟩
  rw [Registry.viewOf_of_perm hcontents]
  exact h.seen received hr

theorem Converging.step (h : Converging s) (hstep : step s l = some t) : Converging t := by
  cases l with
  | register entry =>
      simp only [Watch.step, Option.ite_none_right_eq_some, Option.some.injEq] at hstep
      obtain ⟨hpending, rfl⟩ := hstep
      refine h.locked hpending fun registry events heq => ?_
      have hview := Registry.view_register s.registry entry
      rwa [Except.ok.inj heq] at hview
  | deregister name order =>
      simp only [Watch.step, Option.ite_none_right_eq_some, Option.some.injEq] at hstep
      obtain ⟨⟨hpending, horder⟩, rfl⟩ := hstep
      exact h.locked hpending fun _ _ heq => Registry.view_deregister heq horder
  | updateState name status =>
      simp only [Watch.step, Option.ite_none_right_eq_some, Option.some.injEq] at hstep
      obtain ⟨hpending, rfl⟩ := hstep
      exact h.locked hpending fun _ _ heq => Registry.view_updateState heq
  | broadcast =>
      simp only [Watch.step] at hstep
      split at hstep
      · cases hstep
      · rename_i event rest hpending
        obtain rfl := Option.some.inj hstep
        exact h.broadcast hpending
  | subscribe =>
      simp only [Watch.step, Option.ite_none_right_eq_some, Option.some.injEq] at hstep
      obtain ⟨hnone, rfl⟩ := hstep
      exact h.subscribe hnone
  | snapshot contents =>
      simp only [Watch.step, Option.ite_none_right_eq_some, Option.some.injEq] at hstep
      obtain ⟨⟨-, hreceived, -, hcontents⟩, rfl⟩ := hstep
      exact h.takeSnapshot hreceived hcontents

end Step

theorem converging_of_reach {s : State} (h : Reach step (fun _ _ => True) Initial s) :
    Converging s := by
  refine Reach.invariant (P := Converging) (fun s hs => ?_) (fun s l t hs _ => hs.step) h
  obtain ⟨hpending, hreceived, hsnapshot⟩ := hs
  refine ⟨⟨s.registry.view, by rw [hpending]; rfl⟩, fun received hr => ?_, fun contents hc => ?_⟩
  · exact absurd (hreceived.symm.trans hr) (by simp)
  · exact absurd (hsnapshot.symm.trans hc) (by simp)

/-- Whenever the lock is free, the events received and applied to the snapshot give the
contents of the registry, on the wire as well, and a `deregister` announces each entry it
removes once. -/
theorem watch_converges {s : State} (h : Reach step (fun _ _ => True) Initial s)
    (hfree : s.pending = []) :
    (∀ contents, s.snapshot = some contents → ∃ received, s.received = some received ∧
      replayEvents received (viewOf contents) = s.registry.view ∧
      clientView (Event.intoInitial contents) (received.map Event.toItem) =
        .ok s.registry.view) ∧
    ∀ name order registry events, order.Perm (s.registry.cascade name) →
      s.registry.deregister name order = .ok (registry, events) →
        (Registry.announced events).Nodup ∧ ∀ other, other ∈ Registry.announced events ↔
          s.registry.contains other = true ∧ registry.contains other = false := by
  refine ⟨fun contents hc => ?_, fun name order registry events horder hop => ?_⟩
  · obtain ⟨received, hr, hview⟩ := (converging_of_reach h).snapshot contents hc
    rw [hfree, List.append_nil] at hview
    exact ⟨received, hr, hview, by rw [clientView_toItem, hview]⟩
  · exact Registry.announced_once hop horder

def overlapRun : List Label :=
  [.register (agentEntry "chrome-vm" "activating"), .broadcast, .subscribe,
    .register (agentEntry "chrome-vm" "active"), .broadcast, .broadcast,
    .snapshot [(agentEntry "chrome-vm" "active").toQueryResult],
    .register (agentEntry "net-vm" "active"), .broadcast]

def idle : State := ⟨Registry.empty, [], none, none⟩

theorem initial_idle : Initial idle := ⟨rfl, rfl, rfl⟩

theorem watch_converges_overlapRun :
    ∃ s, Reach step (fun _ _ => True) Initial s ∧
      ∃ received, s.received = some received ∧ received.length = 3 ∧
        clientView (Event.intoInitial [(agentEntry "chrome-vm" "active").toQueryResult])
          (received.map Event.toItem) = .ok s.registry.view := by
  have hrun : (run (fun s l => if True then step s l else none) idle overlapRun).map (fun s =>
      (s.pending, s.snapshot, s.received.map List.length)) =
      some ([], some [(agentEntry "chrome-vm" "active").toQueryResult], some 3) := by
    decide +kernel
  obtain ⟨s, hs, hout⟩ := Option.map_eq_some_iff.mp hrun
  obtain ⟨hfree, hrest⟩ := Prod.mk.inj hout
  obtain ⟨hsnapshot, hlength⟩ := Prod.mk.inj hrest
  have hreach := Reach.of_run (Reach.init initial_idle) hs
  obtain ⟨received, hr, -, hview⟩ := (watch_converges hreach hfree).1 _ hsnapshot
  rw [hr] at hlength
  exact ⟨s, hreach, received, hr, Option.some.inj hlength, hview⟩

end GhafGivc.Admin.Watch
