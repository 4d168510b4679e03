import GhafGivc.Core.Transition
import Mathlib.Data.List.Perm.Subperm
import Mathlib.Tactic.Common

/-! # Workers that share one server

Each worker has a mailbox. It takes one job at a time, hands it to the server through a
queue that all workers share, and waits for the answer. The server answers one job after the
other.
-/

namespace Core.Workers

variable {κ α β : Type}

/-- What was sent and what was answered are kept in the order in which it happened. -/
structure State (κ α β : Type) where
  mailbox : κ → List α
  waiting : κ → Bool
  queue : List (κ × α)
  serving : Option (κ × α)
  sent : List (κ × α)
  served : List ((κ × α) × β)

def start : State κ α β := ⟨fun _ => [], fun _ => false, [], none, [], []⟩

inductive Label (κ α β : Type) where
  | send (k : κ) (job : α)
  | take (k : κ)
  | serve
  | answer (result : β)
deriving DecidableEq

/-- The workers and the server act without being sent anything. -/
def Label.Internal : Label κ α β → Prop
  | send _ _ => False
  | _ => True

section Step

variable [DecidableEq κ]

def step (s : State κ α β) : Label κ α β → Option (State κ α β)
  | .send k job => some { s with
      mailbox := Function.update s.mailbox k (s.mailbox k ++ [job])
      sent := s.sent ++ [(k, job)] }
  | .take k =>
      match s.waiting k, s.mailbox k with
      | false, job :: rest => some { s with
          mailbox := Function.update s.mailbox k rest
          waiting := Function.update s.waiting k true
          queue := s.queue ++ [(k, job)] }
      | _, _ => none
  | .serve =>
      match s.serving, s.queue with
      | none, request :: rest => some { s with serving := some request, queue := rest }
      | _, _ => none
  | .answer result =>
      match s.serving with
      | none => none
      | some request => some { s with
          serving := none
          served := s.served ++ [(request, result)]
          waiting := Function.update s.waiting request.1 false }

def jobs (k : κ) (requests : List (κ × α)) : List α :=
  (requests.filter fun request => request.1 = k).map Prod.snd

/-- The requests that were taken, in the order in which they were. -/
def State.taken (s : State κ α β) : List (κ × α) :=
  s.served.map Prod.fst ++ (s.serving.toList ++ s.queue)

/-- The jobs of a worker that are not answered but taken. -/
def State.inFlight (s : State κ α β) (k : κ) : List α := jobs k (s.serving.toList ++ s.queue)

/-- How many steps the workers and the server have made. -/
def State.steps (s : State κ α β) : Nat :=
  s.taken.length + (s.served.length + s.serving.toList.length) + s.served.length

structure Inv (s : State κ α β) : Prop where
  conserved : ∀ k, jobs k s.sent = jobs k s.taken ++ s.mailbox k
  inFlight : ∀ k, (s.inFlight k).length = if s.waiting k then 1 else 0

section Jobs

variable {k : κ} {requests more : List (κ × α)}

@[simp] theorem jobs_nil : jobs k ([] : List (κ × α)) = [] := rfl

@[simp] theorem jobs_append : jobs k (requests ++ more) = jobs k requests ++ jobs k more := by
  simp [jobs]

@[simp] theorem jobs_cons_self (k : κ) (job : α) (requests : List (κ × α)) :
    jobs k ((k, job) :: requests) = job :: jobs k requests := by
  simp [jobs]

theorem jobs_cons_of_ne {k' : κ} (h : k' ≠ k) (job : α) :
    jobs k ((k', job) :: requests) = jobs k requests := by
  simp [jobs, h]

theorem count_eq_count_jobs [DecidableEq α] (k : κ) (job : α) (requests : List (κ × α)) :
    requests.count (k, job) = (jobs k requests).count job := by
  induction requests with
  | nil => rfl
  | cons request requests ih =>
      rcases request with ⟨k', job'⟩
      by_cases hk : k' = k
      · subst hk
        rw [jobs_cons_self, List.count_cons, List.count_cons, ih]
        simp
      · rw [jobs_cons_of_ne hk, List.count_cons_of_ne (by simp [hk]), ih]

end Jobs

variable {s t : State κ α β} {l : Label κ α β} {ls : List (Label κ α β)} {request : κ × α}

theorem step_internal (h : step s l = some t) (hl : l.Internal) :
    (∃ k job rest, s.waiting k = false ∧ s.mailbox k = job :: rest ∧ t = { s with
      mailbox := Function.update s.mailbox k rest
      waiting := Function.update s.waiting k true
      queue := s.queue ++ [(k, job)] }) ∨
    (∃ request rest, s.serving = none ∧ s.queue = request :: rest ∧
      t = { s with serving := some request, queue := rest }) ∨
    ∃ request result, s.serving = some request ∧ t = { s with
      serving := none
      served := s.served ++ [(request, result)]
      waiting := Function.update s.waiting request.1 false } := by
  cases l with
  | send k job => exact hl.elim
  | take k =>
      simp only [step] at h
      split at h
      · rename_i job rest hwaiting hmailbox
        exact Or.inl ⟨k, job, rest, hwaiting, hmailbox, (Option.some.inj h).symm⟩
      · cases h
  | serve =>
      simp only [step] at h
      split at h
      · rename_i request rest hserving hqueue
        exact Or.inr (Or.inl ⟨request, rest, hserving, hqueue, (Option.some.inj h).symm⟩)
      · cases h
  | answer result =>
      simp only [step] at h
      split at h
      · cases h
      · rename_i request hserving
        exact Or.inr (Or.inr ⟨request, result, hserving, (Option.some.inj h).symm⟩)

theorem inv_start : Inv (start : State κ α β) := ⟨fun _ => rfl, fun _ => rfl⟩

theorem Inv.send (hs : Inv s) {k : κ} {job : α} (h : step s (.send k job) = some t) : Inv t := by
  cases h
  refine ⟨fun k' => ?_, hs.inFlight⟩
  by_cases hk : k' = k
  · subst hk
    simp [State.taken, hs.conserved]
  · have hold := hs.conserved k'
    simpa [State.taken, Ne.symm hk, jobs_cons_of_ne, Function.update_of_ne hk] using hold

theorem Inv.take (hs : Inv s) {k : κ} {job : α} {rest : List α} (hwaiting : s.waiting k = false)
    (hmailbox : s.mailbox k = job :: rest) : Inv { s with
      mailbox := Function.update s.mailbox k rest
      waiting := Function.update s.waiting k true
      queue := s.queue ++ [(k, job)] } := by
  constructor
  · intro k'
    have hold := hs.conserved k'
    by_cases hk : k' = k
    · subst hk
      simpa [State.taken, hmailbox] using hold
    · simpa [State.taken, Ne.symm hk, jobs_cons_of_ne, Function.update_of_ne hk] using hold
  · intro k'
    have hold := hs.inFlight k'
    by_cases hk : k' = k
    · subst hk
      have hnone : s.inFlight k' = [] := by simpa [hwaiting] using hold
      simp only [State.inFlight, jobs_append, List.append_eq_nil_iff] at hnone
      simp [State.inFlight, hnone.1, hnone.2]
    · simpa [State.inFlight, Ne.symm hk, jobs_cons_of_ne, Function.update_of_ne hk] using hold

theorem Inv.serve (hs : Inv s) {rest : List (κ × α)} (hserving : s.serving = none)
    (hqueue : s.queue = request :: rest) :
    Inv { s with serving := some request, queue := rest } := by
  constructor
  · intro k
    have hold := hs.conserved k
    simpa [State.taken, hserving, hqueue] using hold
  · intro k
    have hold := hs.inFlight k
    simpa [State.inFlight, hserving, hqueue] using hold

theorem Inv.answer (hs : Inv s) {result : β} (hserving : s.serving = some request) : Inv { s with
      serving := none
      served := s.served ++ [(request, result)]
      waiting := Function.update s.waiting request.1 false } := by
  rcases request with ⟨k, job⟩
  constructor
  · intro k'
    have hold := hs.conserved k'
    simpa [State.taken, hserving] using hold
  · intro k'
    have hold := hs.inFlight k'
    by_cases hk : k' = k
    · subst hk
      cases hwaiting : s.waiting k' with
      | false => simp [State.inFlight, hserving, hwaiting] at hold
      | true => simpa [State.inFlight, hserving, hwaiting] using hold
    · simpa [State.inFlight, hserving, Ne.symm hk, jobs_cons_of_ne, Function.update_of_ne hk]
        using hold

theorem Inv.step (hs : Inv s) (h : step s l = some t) : Inv t := by
  cases l with
  | send k job => exact hs.send h
  | take | serve | answer =>
      rcases step_internal h trivial with ⟨k, job, rest, hwaiting, hmailbox, rfl⟩ |
        ⟨request, rest, hserving, hqueue, rfl⟩ | ⟨request, result, hserving, rfl⟩
      · exact hs.take hwaiting hmailbox
      · exact hs.serve hserving hqueue
      · exact hs.answer hserving

theorem Inv.run (hs : Inv s) (h : Core.run Workers.step s ls = some t) : Inv t :=
  run_preserves (fun _ _ _ _ ha hstep => ha.step hstep) hs h

theorem Inv.length_taken_le (hs : Inv s) : s.taken.length ≤ s.sent.length := by
  classical
  apply List.Subperm.length_le
  refine List.subperm_ext_iff.mpr fun request _ => ?_
  rcases request with ⟨k, job⟩
  rw [count_eq_count_jobs, count_eq_count_jobs, hs.conserved k, List.count_append]
  exact Nat.le_add_right _ _

theorem steps_of_step (h : step s l = some t) (hl : l.Internal) :
    t.steps = s.steps + 1 ∧ t.sent = s.sent := by
  rcases step_internal h hl with ⟨k, job, rest, hwaiting, hmailbox, rfl⟩ |
    ⟨request, rest, hserving, hqueue, rfl⟩ | ⟨request, result, hserving, rfl⟩
  · simp [State.steps, State.taken]
    omega
  · simp [State.steps, State.taken, hserving, hqueue]
    omega
  · simp [State.steps, State.taken, hserving]
    omega

theorem steps_of_run (h : run step s ls = some t) (hls : ∀ l ∈ ls, l.Internal) :
    t.steps = s.steps + ls.length ∧ t.sent = s.sent := by
  induction ls generalizing s with
  | nil =>
      cases h
      exact ⟨rfl, rfl⟩
  | cons l ls ih =>
      rcases run_cons_eq_some.mp h with ⟨u, hu, hrest⟩
      rw [List.forall_mem_cons] at hls
      rcases steps_of_step hu hls.1 with ⟨hsteps, hsent⟩
      rcases ih hrest hls.2 with ⟨hmore, hsame⟩
      rw [hmore, hsteps, hsame, hsent, List.length_cons]
      exact ⟨by omega, rfl⟩

def Label.sent? : Label κ α β → Option (κ × α)
  | send k job => some (k, job)
  | _ => none

theorem sent_of_run (h : Core.run step s ls = some t) :
    t.sent = s.sent ++ ls.filterMap Label.sent? := by
  induction ls generalizing s with
  | nil =>
      cases h
      simp
  | cons l ls ih =>
      rcases run_cons_eq_some.mp h with ⟨u, hu, hrest⟩
      rw [ih hrest]
      cases l with
      | send k job =>
          cases hu
          simp [Label.sent?]
      | take | serve | answer =>
          rw [(steps_of_step hu trivial).2, List.filterMap_cons_none rfl]

/-- The workers and the server are done after three steps for each job. -/
theorem Inv.length_run_le (hs : Inv s) (h : Core.run Workers.step s ls = some t)
    (hls : ∀ l ∈ ls, l.Internal) : ls.length ≤ 3 * s.sent.length := by
  rcases steps_of_run h hls with ⟨hsteps, hsent⟩
  have htaken := (hs.run h).length_taken_le
  rw [hsent] at htaken
  have hlength : t.taken.length = t.served.length + (t.serving.toList.length + t.queue.length) := by
    simp [State.taken]
  unfold State.steps at hsteps
  omega

/-- Nobody can go on. -/
def State.Idle (s : State κ α β) : Prop := ∀ l : Label κ α β, l.Internal → step s l = none

theorem Inv.idle_of_steps (hs : Inv s) (h : 3 * s.sent.length ≤ s.steps) : s.Idle := by
  intro l hl
  cases hstep : Workers.step s l with
  | none => rfl
  | some t =>
      rcases steps_of_step hstep hl with ⟨hsteps, hsent⟩
      have htaken := (hs.step hstep).length_taken_le
      have hlength : t.taken.length =
          t.served.length + (t.serving.toList.length + t.queue.length) := by
        simp [State.taken]
      rw [hsent] at htaken
      unfold State.steps at h hsteps
      omega

/-- When nobody can go on, every job was answered, in the order of its worker. -/
theorem Inv.served_of_idle [Nonempty β] (hs : Inv s) (hidle : s.Idle) (k : κ) :
    jobs k (s.served.map Prod.fst) = jobs k s.sent := by
  have hserving : s.serving = none := by
    cases hserving : s.serving with
    | none => rfl
    | some request =>
        have hstuck := hidle (.answer (Classical.arbitrary β)) trivial
        simp [Workers.step, hserving] at hstuck
  have hqueue : s.queue = [] := by
    cases hqueue : s.queue with
    | nil => rfl
    | cons request rest =>
        have hstuck := hidle .serve trivial
        simp [Workers.step, hserving, hqueue] at hstuck
  have hwaiting : s.waiting k = false := by
    have hflight := hs.inFlight k
    cases hwaiting : s.waiting k with
    | false => rfl
    | true => simp [State.inFlight, hserving, hqueue, hwaiting] at hflight
  have hmailbox : s.mailbox k = [] := by
    cases hmailbox : s.mailbox k with
    | nil => rfl
    | cons job rest =>
        have hstuck := hidle (.take k) trivial
        simp [Workers.step, hwaiting, hmailbox] at hstuck
  have hconserved := hs.conserved k
  simpa [State.taken, hserving, hqueue, hmailbox] using hconserved.symm

end Step

end Core.Workers
