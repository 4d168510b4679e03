import GhafGivc.Admin.Query

/-! # The registry

The map of entries by name, with the events that each change of it broadcasts. Removing an
entry also removes the entries its agent answers for and, for a VM unit, those of its VM.
-/

namespace GhafGivc.Admin

open Core

/-- The entries of the map, each under its own name. -/
structure Registry where
  entries : List RegistryEntry
  names_nodup : (entries.map RegistryEntry.name).Nodup

namespace Registry

def empty : Registry := ⟨[], by simp⟩

def get (r : Registry) (name : String) : Option RegistryEntry :=
  r.entries.find? fun entry => entry.name = name

def contains (r : Registry) (name : String) : Bool := (r.get name).isSome

def insert (r : Registry) (entry : RegistryEntry) : Registry where
  entries := r.entries.filter (fun old => old.name ≠ entry.name) ++ [entry]
  names_nodup := by
    rw [List.map_append, List.nodup_append]
    refine ⟨r.names_nodup.sublist (List.filter_sublist.map _), by simp, ?_⟩
    simp only [List.mem_map, List.mem_filter, decide_eq_true_eq, List.map_cons, List.map_nil,
      List.mem_singleton]
    rintro _ ⟨old, ⟨-, hne⟩, rfl⟩ _ rfl
    exact hne

def retain (r : Registry) (keep : RegistryEntry → Bool) : Registry :=
  ⟨r.entries.filter keep, r.names_nodup.sublist (List.filter_sublist.map _)⟩

def setStatus (r : Registry) (name : String) (status : UnitStatus) : Registry where
  entries := r.entries.map fun entry =>
    if entry.name = name then { entry with status := status } else entry
  names_nodup := by
    refine nodup_map_key (fun entry => ?_) r.names_nodup
    split <;> rfl

def register (r : Registry) (entry : RegistryEntry) : Registry × List Event :=
  let event := Event.unitRegistered entry.toQueryResult
  match r.get entry.name with
  | some old => (r.insert entry, [.unitShutdown old.toQueryResult, event])
  | none => (r.insert entry, [event])

/-- The entry goes with the one named `name`. -/
def follows (name : String) (entry : RegistryEntry) : Bool :=
  entry.agentName = some name ||
    match entry.vmName, parseVmName name with
    | some a, some b => a = b
    | _, _ => false

/-- The entries that `deregister` extracts after the one it was called for. -/
def cascade (r : Registry) (name : String) : List RegistryEntry :=
  r.entries.filter fun entry => entry.name ≠ name && follows name entry

/-- `order` is the cascade in the order in which the map yields it. -/
def deregister (r : Registry) (name : String) (order : List RegistryEntry) :
    Except String (Registry × List Event) :=
  match r.get name with
  | some entry =>
      .ok (r.retain fun other => other.name ≠ name && !follows name other,
        (order ++ [entry]).map fun removed => .unitShutdown removed.toQueryResult)
  | none => .error ("Can't deregister entry " ++ name ++ ", it not registered")

def updateState (r : Registry) (name : String) (status : UnitStatus) :
    Except String (Registry × List Event) :=
  match r.get name with
  | some entry =>
      .ok (r.setStatus name status,
        [.unitStatusChanged { entry with status := status }.toQueryResult])
  | none => .error ("Can't update state for " ++ name ++ ", is not registered")

def contents (r : Registry) : List QueryResult := r.entries.map RegistryEntry.toQueryResult

def view (r : Registry) (name : String) : Option QueryResult :=
  (r.get name).map RegistryEntry.toQueryResult

section Get

variable {r : Registry} {name : String} {entry : RegistryEntry}

theorem get_eq_some : r.get name = some entry ↔ entry ∈ r.entries ∧ entry.name = name :=
  find?_key_eq_some_iff r.names_nodup

theorem get_of_mem (h : entry ∈ r.entries) : r.get entry.name = some entry :=
  get_eq_some.mpr ⟨h, rfl⟩

theorem contains_of_get (h : r.get name = some entry) : r.contains name = true := by
  rw [contains, h]
  rfl

theorem name_of_get (h : r.get name = some entry) : entry.name = name := (get_eq_some.mp h).2

theorem get_insert (r : Registry) (entry : RegistryEntry) (name : String) :
    (r.insert entry).get name = if name = entry.name then some entry else r.get name := by
  refine Option.ext fun other => ?_
  rw [get_eq_some]
  by_cases hname : name = entry.name
  · subst hname
    simp only [insert, List.mem_append, List.mem_filter, decide_eq_true_eq, List.mem_singleton,
      if_true, Option.some.injEq]
    constructor
    · rintro ⟨⟨-, hne⟩ | rfl, heq⟩
      · exact absurd heq hne
      · rfl
    · rintro rfl
      exact ⟨Or.inr rfl, rfl⟩
  · rw [if_neg hname, get_eq_some]
    simp only [insert, List.mem_append, List.mem_filter, decide_eq_true_eq, List.mem_singleton]
    constructor
    · rintro ⟨⟨hmem, -⟩ | rfl, rfl⟩
      · exact ⟨hmem, rfl⟩
      · exact absurd rfl hname
    · rintro ⟨hmem, rfl⟩
      exact ⟨Or.inl ⟨hmem, hname⟩, rfl⟩

theorem contains_eq_decide (r : Registry) (name : String) :
    r.contains name = decide (name ∈ r.entries.map RegistryEntry.name) := by
  rw [Bool.eq_iff_iff, decide_eq_true_iff, contains, Option.isSome_iff_exists, List.mem_map]
  exact exists_congr fun entry => get_eq_some

theorem contains_insert (r : Registry) (entry : RegistryEntry) (name : String) :
    (r.insert entry).contains name = (name = entry.name || r.contains name) := by
  by_cases hname : name = entry.name <;> simp [contains, get_insert, hname]

theorem register_fst (r : Registry) (entry : RegistryEntry) :
    (r.register entry).1 = r.insert entry := by
  unfold register
  split <;> rfl

theorem get_retain (r : Registry) (keep : RegistryEntry → Bool) (name : String) :
    (r.retain keep).get name = (r.get name).filter keep := by
  refine Option.ext fun entry => ?_
  rw [get_eq_some, Option.filter_eq_some_iff, get_eq_some]
  simp only [retain, List.mem_filter]
  exact and_right_comm

theorem get_setStatus (r : Registry) (name other : String) (status : UnitStatus) :
    (r.setStatus name status).get other =
      if other = name then (r.get other).map fun entry => { entry with status := status }
      else r.get other := by
  refine Option.ext fun entry => ?_
  rw [get_eq_some]
  by_cases hother : other = name
  · subst hother
    simp only [setStatus, List.mem_map, if_true, Option.map_eq_some_iff, get_eq_some]
    constructor
    · rintro ⟨⟨old, hmem, rfl⟩, hname⟩
      by_cases hold : old.name = other
      · exact ⟨old, ⟨hmem, hold⟩, by simp [hold]⟩
      · simp [hold] at hname
    · rintro ⟨old, ⟨hmem, rfl⟩, rfl⟩
      exact ⟨⟨old, hmem, by simp⟩, rfl⟩
  · rw [if_neg hother, get_eq_some]
    simp only [setStatus, List.mem_map]
    constructor
    · rintro ⟨⟨old, hmem, rfl⟩, hname⟩
      by_cases hold : old.name = name
      · simp only [hold, if_true] at hname
        exact absurd hname.symm hother
      · rw [if_neg hold] at hname ⊢
        exact ⟨hmem, hname⟩
    · rintro ⟨hmem, rfl⟩
      exact ⟨⟨entry, hmem, by simp [hother]⟩, rfl⟩

end Get

theorem viewOf_of_perm {r : Registry} {results : List QueryResult}
    (h : results.Perm r.contents) : viewOf results = r.view := by
  have hnames : (r.contents.map QueryResult.name).Nodup := by
    rw [contents, List.map_map]
    exact r.names_nodup
  funext name
  rw [viewOf, find?_key_of_perm hnames h, contents, List.find?_map]
  rfl

section Events

variable {r r' : Registry} {name : String} {entry : RegistryEntry} {order : List RegistryEntry}
  {status : UnitStatus} {events : List Event}

theorem view_register (r : Registry) (entry : RegistryEntry) :
    (r.register entry).1.view = replay ((r.register entry).2.map Event.edit) r.view := by
  have hview : (r.insert entry).view =
      Function.update r.view entry.name (some entry.toQueryResult) := by
    funext name
    by_cases hname : name = entry.name
    · subst hname
      simp [view, get_insert]
    · simp [view, get_insert, hname]
  unfold register
  cases hold : r.get entry.name with
  | none => simpa [replay, Event.edit, Edit.apply, RegistryEntry.toQueryResult] using hview
  | some old =>
      have hname := name_of_get hold
      simpa [replay, Event.edit, Edit.apply, RegistryEntry.toQueryResult, hname] using hview

theorem deregister_eq_ok (h : r.deregister name order = .ok (r', events)) :
    ∃ entry, r.get name = some entry ∧
      r' = (r.retain fun other => other.name ≠ name && !follows name other) ∧
      events = (order ++ [entry]).map fun removed => .unitShutdown removed.toQueryResult := by
  unfold deregister at h
  cases hget : r.get name with
  | none => simp [hget] at h
  | some entry =>
      simp only [hget, Except.ok.injEq, Prod.mk.injEq] at h
      exact ⟨entry, rfl, h.1.symm, h.2.symm⟩

def announced (events : List Event) : List String := events.map fun event => event.edit.1

theorem announced_deregister (h : r.deregister name order = .ok (r', events)) :
    announced events = order.map RegistryEntry.name ++ [name] := by
  obtain ⟨entry, hget, -, rfl⟩ := deregister_eq_ok h
  simp [announced, Event.edit, RegistryEntry.toQueryResult, name_of_get hget]

/-- What is gone after a `deregister` is what it announced. -/
theorem get_deregister (h : r.deregister name order = .ok (r', events))
    (horder : order.Perm (r.cascade name)) (other : String) :
    r'.get other = if other ∈ announced events then none else r.get other := by
  rw [announced_deregister h]
  obtain ⟨entry, hget, rfl, -⟩ := deregister_eq_ok h
  rw [get_retain]
  cases hother : r.get other with
  | none => simp
  | some found =>
      obtain ⟨hmem, rfl⟩ := get_eq_some.mp hother
      have hgone : found.name ∈ order.map RegistryEntry.name ↔
          found.name ≠ name ∧ follows name found = true := by
        constructor
        · intro hin
          obtain ⟨removed, hremoved, hname⟩ := List.mem_map.mp hin
          have hcascade := horder.mem_iff.mp hremoved
          simp only [cascade, List.mem_filter, Bool.and_eq_true, decide_eq_true_eq] at hcascade
          obtain ⟨hrmem, hne, hfollows⟩ := hcascade
          obtain rfl := List.inj_on_of_nodup_map r.names_nodup hrmem hmem hname
          exact ⟨hne, hfollows⟩
        · rintro ⟨hne, hfollows⟩
          refine List.mem_map_of_mem (horder.mem_iff.mpr ?_)
          simp [cascade, hmem, hne, hfollows]
      by_cases hname : found.name = name
      · simp [hname]
      · cases hfollows : follows name found with
        | true => simp [hgone, hname, hfollows]
        | false => simp [hgone, hname, hfollows]

theorem edits_deregister (h : r.deregister name order = .ok (r', events)) :
    events.map Event.edit = (announced events).map fun name => (name, Edit.drop) := by
  obtain ⟨entry, -, -, rfl⟩ := deregister_eq_ok h
  simp [announced, Event.edit]

theorem view_deregister (h : r.deregister name order = .ok (r', events))
    (horder : order.Perm (r.cascade name)) :
    r'.view = replay (events.map Event.edit) r.view := by
  funext other
  rw [edits_deregister h, replay_drops, view, get_deregister h horder]
  split <;> rfl

/-- Each entry that a `deregister` removes is announced once, and no other. -/
theorem announced_once (h : r.deregister name order = .ok (r', events))
    (horder : order.Perm (r.cascade name)) :
    (announced events).Nodup ∧
      ∀ other, other ∈ announced events ↔ r.contains other = true ∧ r'.contains other = false := by
  have hcascade : ∀ entry ∈ order, entry ∈ r.entries ∧ entry.name ≠ name := by
    intro entry hentry
    have hmem := horder.mem_iff.mp hentry
    simp only [cascade, List.mem_filter, Bool.and_eq_true, decide_eq_true_eq] at hmem
    exact ⟨hmem.1, hmem.2.1⟩
  refine ⟨?_, fun other => ?_⟩
  · rw [announced_deregister h, List.nodup_append]
    refine ⟨?_, by simp, ?_⟩
    · refine (horder.map _).nodup_iff.mpr ?_
      exact r.names_nodup.sublist (List.filter_sublist.map _)
    · intro a ha b hb
      obtain ⟨entry, hentry, rfl⟩ := List.mem_map.mp ha
      rw [List.mem_singleton.mp hb]
      exact (hcascade entry hentry).2
  · simp only [contains, get_deregister h horder]
    constructor
    · intro hin
      refine ⟨?_, by simp [hin]⟩
      rw [announced_deregister h] at hin
      rcases List.mem_append.mp hin with hin | hin
      · obtain ⟨entry, hentry, rfl⟩ := List.mem_map.mp hin
        rw [get_of_mem (hcascade entry hentry).1]
        rfl
      · obtain ⟨entry, hget, -⟩ := deregister_eq_ok h
        rw [List.mem_singleton.mp hin, hget]
        rfl
    · rintro ⟨hsome, hnone⟩
      by_contra hin
      rw [if_neg hin, hsome] at hnone
      cases hnone

theorem view_updateState (h : r.updateState name status = .ok (r', events)) :
    r'.view = replay (events.map Event.edit) r.view := by
  unfold updateState at h
  cases hget : r.get name with
  | none => simp [hget] at h
  | some entry =>
      simp only [hget, Except.ok.injEq, Prod.mk.injEq] at h
      obtain ⟨rfl, rfl⟩ := h
      have hname := name_of_get hget
      funext other
      by_cases hother : other = name
      · subst hother
        simp [view, get_setStatus, hget, replay, Event.edit, Edit.apply,
          RegistryEntry.toQueryResult, hname]
      · simp [view, get_setStatus, hother, replay, Event.edit, RegistryEntry.toQueryResult, hname]

end Events

end Registry

end GhafGivc.Admin
