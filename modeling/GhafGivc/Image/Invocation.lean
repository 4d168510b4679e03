import GhafGivc.Image.InstallCrash

/-! # Concurrent invocations of the updater

An invocation reads the boot entries and the logical volumes, computes its plan and
only then tries to take the update lock, under which it executes the plan.
-/

namespace GhafGivc.Image

open Core

/-- One `ota-update image` process. -/
structure Invocation where
  command : Command
  dryRun : Bool
deriving DecidableEq

namespace Invocation

/-- Where an invocation stands. Under the lock it carries the world in which it
obtained the lock, the steps it has executed and the steps still to come. -/
inductive Phase where
  | started
  | listed (esp : Esp)
  | planned (seen : World) (plan : Plan)
  | stopped (result : Outcome String Unit)
  | running (locked : World) (executed rest : List Step)
  | released (locked : World) (executed rest : List Step)
deriving DecidableEq

inductive Label (Pid : Type) where
  | listBoot (p : Pid)
  | plan (p : Pid)
  | abort (p : Pid) (error : String)
  | acquire (p : Pid)
  | exec (p : Pid)
  | release (p : Pid)
deriving DecidableEq

structure State (Pid : Type) where
  world : World
  lock : Option Pid
  phase : Pid → Phase

variable {Pid : Type} [DecidableEq Pid] {phase : Phase}

def State.goto (s : State Pid) (p : Pid) (phase : Phase) : State Pid :=
  { s with phase := Function.update s.phase p phase }

def execStep (inv : Invocation) (w : World) (step : Step) : Option World :=
  if inv.dryRun then some w else w.exec step

/-- What an invocation does with a plan before it looks for the lock. -/
def afterPlanning (seen : World) : Outcome String Plan → Phase
  | .ok plan => if plan.steps = [] then .stopped (.ok ()) else .planned seen plan
  | .err e => .stopped (.err e)
  | .panicked => .stopped .panicked

def step (cmdline : String) (inv : Pid → Invocation) (s : State Pid) :
    Label Pid → Option (State Pid)
  | .listBoot p =>
      match s.phase p with
      | .started => some (s.goto p (.listed s.world.esp))
      | _ => none
  | .plan p =>
      match s.phase p with
      | .listed esp =>
          let seen : World := ⟨s.world.lvs, esp⟩
          some (s.goto p (afterPlanning seen ((inv p).command.plan cmdline seen)))
      | _ => none
  -- a listing cannot be read, or the manifest is missing or invalid
  | .abort p error =>
      match s.phase p with
      | .started => some (s.goto p (.stopped (.err error)))
      | .listed _ => some (s.goto p (.stopped (.err error)))
      | _ => none
  | .acquire p =>
      match s.phase p, s.lock with
      | .planned _ plan, none =>
          some { s.goto p (.running s.world [] plan.steps) with lock := some p }
      | .planned _ _, some _ =>
          some (s.goto p (.stopped (.err
            "another ota-update instance is already running (lock: /run/ota-update.lock)")))
      | _, _ => none
  | .exec p =>
      match s.phase p with
      | .running locked executed (next :: rest) =>
          match (inv p).execStep s.world next with
          | some w => some { s.goto p (.running locked (executed ++ [next]) rest) with world := w }
          | none => none
      | _ => none
  | .release p =>
      match s.phase p with
      | .running locked executed rest =>
          if rest.head?.any fun next => ((inv p).execStep s.world next).isSome then none
          else some { s.goto p (.released locked executed rest) with lock := none }
      | _ => none

def Initial (w : World) (s : State Pid) : Prop :=
  s.world = w ∧ s.lock = none ∧ ∀ p, s.phase p = .started

/-- The lock is only obtained while volumes and boot entries are as they were read. -/
def LocksUnchanged (s : State Pid) : Label Pid → Prop
  | .acquire p =>
      match s.phase p with
      | .planned seen _ => s.lock = none → s.world = seen
      | _ => True
  | _ => True

instance (s : State Pid) (l : Label Pid) : Decidable (LocksUnchanged s l) := by
  unfold LocksUnchanged
  split
  · split <;> infer_instance
  · infer_instance

/-! ## Invocations one after the other -/

/-- The steps of a plan up to the first one that fails. -/
def finish (inv : Invocation) : World → List Step → World
  | w, [] => w
  | w, next :: rest =>
      match inv.execStep w next with
      | some w' => finish inv w' rest
      | none => w

/-- The effect of an invocation that nothing interleaves with. -/
def alone (cmdline : String) (inv : Invocation) (w : World) : World :=
  match inv.command.plan cmdline w with
  | .ok plan => inv.finish w plan.steps
  | _ => w

def serial (cmdline : String) (inv : Pid → Invocation) (w : World) (order : List Pid) : World :=
  order.foldl (fun w p => (inv p).alone cmdline w) w

/-- The executed steps belong to the plan for the world in which the lock was obtained. -/
def RunsCurrentPlan (cmdline : String) (inv : Invocation) : Phase → Prop
  | .running locked executed rest => inv.command.plan cmdline locked = .ok ⟨executed ++ rest⟩
  | .released locked executed rest => inv.command.plan cmdline locked = .ok ⟨executed ++ rest⟩
  | _ => True

instance (cmdline : String) (inv : Invocation) (phase : Phase) :
    Decidable (RunsCurrentPlan cmdline inv phase) := by
  unfold RunsCurrentPlan
  split <;> infer_instance

def Phase.isRunning : Phase → Bool
  | running _ _ _ => true
  | _ => false

def Phase.isReleased : Phase → Bool
  | released _ _ _ => true
  | _ => false

/-- What holds of an invocation by itself: its plan is the one for the world it read
and, once it has the lock, for the world it locked. -/
def Sound (cmdline : String) (inv : Invocation) : Phase → Prop
  | .planned seen plan => inv.command.plan cmdline seen = .ok plan
  | phase => RunsCurrentPlan cmdline inv phase

/-! ## What a step can do -/

/-- The phases before the lock, and those that end without it. -/
def Phase.Waits (phase : Phase) : Prop := phase.isRunning = false ∧ phase.isReleased = false

theorem Phase.Waits.isRunning (h : phase.Waits) : phase.isRunning = false := h.1

theorem Phase.Waits.isReleased (h : phase.Waits) : phase.isReleased = false := h.2

/-- The steps by their effect on the lock and the world. -/
inductive Move (cmdline : String) (inv : Pid → Invocation) (s : State Pid) :
    Label Pid → State Pid → Prop
  | quiet {l : Label Pid} {p : Pid} {phase : Phase} (waiting : (s.phase p).Waits)
      (waits : phase.Waits) (sound : Sound cmdline (inv p) phase) :
      Move cmdline inv s l (s.goto p phase)
  | acquire {p : Pid} {seen : World} {plan : Plan} (planned : s.phase p = .planned seen plan)
      (free : s.lock = none) :
      Move cmdline inv s (.acquire p)
        { s.goto p (.running s.world [] plan.steps) with lock := some p }
  | exec {p : Pid} {locked w' : World} {executed rest : List Step} {next : Step}
      (running : s.phase p = .running locked executed (next :: rest))
      (runs : (inv p).execStep s.world next = some w') :
      Move cmdline inv s (.exec p)
        { s.goto p (.running locked (executed ++ [next]) rest) with world := w' }
  | release {p : Pid} {locked : World} {executed rest : List Step}
      (running : s.phase p = .running locked executed rest)
      (done : (rest.head?.any fun next => ((inv p).execStep s.world next).isSome) = false) :
      Move cmdline inv s (.release p)
        { s.goto p (.released locked executed rest) with lock := none }

section Moves

variable {cmdline : String} {inv : Pid → Invocation} {s t : State Pid} {l : Label Pid}

theorem afterPlanning_spec (cmdline : String) (inv : Invocation) (seen : World) :
    (afterPlanning seen (inv.command.plan cmdline seen)).Waits ∧
      Sound cmdline inv (afterPlanning seen (inv.command.plan cmdline seen)) := by
  cases hplan : inv.command.plan cmdline seen with
  | ok plan =>
      by_cases hsteps : plan.steps = []
      · simp only [afterPlanning, hsteps, if_true]
        exact ⟨⟨rfl, rfl⟩, trivial⟩
      · simp only [afterPlanning, hsteps, if_false]
        exact ⟨⟨rfl, rfl⟩, hplan⟩
  | err e => exact ⟨⟨rfl, rfl⟩, trivial⟩
  | panicked => exact ⟨⟨rfl, rfl⟩, trivial⟩

theorem move_of_step (h : step cmdline inv s l = some t) : Move cmdline inv s l t := by
  cases l with
  | listBoot p =>
      simp only [step] at h
      split at h
      · rename_i hp
        obtain rfl := Option.some.inj h
        exact .quiet (by rw [hp]; exact ⟨rfl, rfl⟩) ⟨rfl, rfl⟩ trivial
      · cases h
  | plan p =>
      simp only [step] at h
      split at h
      · rename_i esp hp
        obtain rfl := Option.some.inj h
        obtain ⟨hwaits, hsound⟩ := afterPlanning_spec cmdline (inv p) ⟨s.world.lvs, esp⟩
        exact .quiet (by rw [hp]; exact ⟨rfl, rfl⟩) hwaits hsound
      · cases h
  | abort p error =>
      simp only [step] at h
      split at h
      · rename_i hp
        obtain rfl := Option.some.inj h
        exact .quiet (by rw [hp]; exact ⟨rfl, rfl⟩) ⟨rfl, rfl⟩ trivial
      · rename_i esp hp
        obtain rfl := Option.some.inj h
        exact .quiet (by rw [hp]; exact ⟨rfl, rfl⟩) ⟨rfl, rfl⟩ trivial
      · cases h
  | acquire p =>
      simp only [step] at h
      split at h
      · rename_i seen plan hp hlock
        obtain rfl := Option.some.inj h
        exact .acquire hp hlock
      · rename_i hp hlock
        obtain rfl := Option.some.inj h
        exact .quiet (by rw [hp]; exact ⟨rfl, rfl⟩) ⟨rfl, rfl⟩ trivial
      · cases h
  | exec p =>
      simp only [step] at h
      split at h
      · rename_i locked executed next rest hp
        split at h
        · rename_i w' hexec
          obtain rfl := Option.some.inj h
          exact .exec hp hexec
        · cases h
      · cases h
  | release p =>
      simp only [step] at h
      split at h
      · rename_i locked executed rest hp
        split at h
        · cases h
        · rename_i hrest
          obtain rfl := Option.some.inj h
          exact .release hp (Bool.eq_false_iff.mpr hrest)
      · cases h

end Moves

/-! ## Serial order -/

/-- The invocations that had the lock, in the order in which they had it. -/
structure LockOrder (phases : Pid → Phase) (order : List Pid) : Prop where
  nodup : order.Nodup
  mem_iff : ∀ p, p ∈ order ↔ (phases p).isReleased = true

/-- The world is that of the serial order and, while the lock is taken, will be once
the holder has finished. -/
inductive Serialized (cmdline : String) (inv : Pid → Invocation) (w : World) (s : State Pid)
    (order : List Pid) : Prop
  | free (lock : s.lock = none) (idle : ∀ p, (s.phase p).isRunning = false)
      (world : s.world = serial cmdline inv w order)
  | busy {p : Pid} {locked : World} {executed rest : List Step} (lock : s.lock = some p)
      (phase : s.phase p = .running locked executed rest)
      (only : ∀ q ≠ p, (s.phase q).isRunning = false)
      (start : locked = serial cmdline inv w order)
      (finish : (inv p).finish s.world rest = (inv p).alone cmdline locked)

section Serial

variable {cmdline : String} {inv : Pid → Invocation} {w : World} {s t : State Pid} {p : Pid}
  {phase : Phase} {order : List Pid} {executed rest : List Step} {locked : World}
  {phases : Pid → Phase}

omit [DecidableEq Pid] in
theorem serial_concat : serial cmdline inv w (order ++ [p]) =
    (inv p).alone cmdline (serial cmdline inv w order) := by
  simp [serial]

omit [DecidableEq Pid] in
theorem Serialized.lock_eq (h : Serialized cmdline inv w s order)
    (hp : (s.phase p).isRunning = true) : s.lock = some p := by
  cases h with
  | free _ idle _ => simp [idle p] at hp
  | @busy q _ _ _ lock _ only _ _ =>
      by_cases hq : p = q
      · rw [lock, hq]
      · simp [only p hq] at hp

omit [DecidableEq Pid] in
theorem Serialized.of_running (h : Serialized cmdline inv w s order)
    (hp : s.phase p = .running locked executed rest) :
    s.lock = some p ∧ (∀ q ≠ p, (s.phase q).isRunning = false) ∧
      locked = serial cmdline inv w order ∧
      (inv p).finish s.world rest = (inv p).alone cmdline locked := by
  have hlock := h.lock_eq (p := p) (by rw [hp]; rfl)
  cases h with
  | free lock => simp [hlock] at lock
  | busy lock phase only start finish =>
      cases hlock.symm.trans lock
      cases hp.symm.trans phase
      exact ⟨lock, only, start, finish⟩

theorem Sound.runsCurrentPlan {inv : Invocation} (h : Sound cmdline inv phase) :
    RunsCurrentPlan cmdline inv phase := by
  cases phase with
  | planned => trivial
  | _ => exact h

theorem sound_goto (h : ∀ q, Sound cmdline (inv q) (s.phase q))
    (hp : Sound cmdline (inv p) phase) (q : Pid) :
    Sound cmdline (inv q) ((s.goto p phase).phase q) := by
  by_cases hq : q = p
  · subst hq
    simpa [State.goto] using hp
  · simpa [State.goto, hq] using h q

theorem LockOrder.update (h : LockOrder phases order)
    (hp : phase.isReleased = (phases p).isReleased) :
    LockOrder (Function.update phases p phase) order := by
  refine ⟨h.nodup, fun q => ?_⟩
  by_cases hq : q = p
  · subst hq
    simpa [hp] using h.mem_iff q
  · simpa [hq] using h.mem_iff q

theorem LockOrder.concat (h : LockOrder phases order) (hp : (phases p).isReleased = false)
    (hphase : phase.isReleased = true) :
    LockOrder (Function.update phases p phase) (order ++ [p]) := by
  have hnot : p ∉ order := by
    rw [h.mem_iff p, hp]
    exact Bool.false_ne_true
  refine ⟨?_, fun q => ?_⟩
  · rw [← List.concat_eq_append]
    exact h.nodup.concat hnot
  · by_cases hq : q = p
    · subst hq
      simp [hphase]
    · simpa [hq] using h.mem_iff q

theorem Serialized.goto (h : Serialized cmdline inv w s order)
    (hp : (s.phase p).isRunning = false) (hphase : phase.isRunning = false) :
    Serialized cmdline inv w (s.goto p phase) order := by
  have keep : ∀ q, (s.phase q).isRunning = false →
      ((s.goto p phase).phase q).isRunning = false := by
    intro q hq
    by_cases hqp : q = p
    · subst hqp
      simpa [State.goto] using hphase
    · simpa [State.goto, hqp] using hq
  cases h with
  | free lock idle world => exact .free lock (fun q => keep q (idle q)) world
  | @busy q locked executed rest lock hq only start finish =>
      have hne : q ≠ p := by
        rintro rfl
        simp [hq, Phase.isRunning] at hp
      have hq' : (s.goto p phase).phase q = .running locked executed rest := by
        simpa [State.goto, hne] using hq
      exact .busy lock hq' (fun r hr => keep r (only r hr)) start finish

theorem Serialized.acquire {plan : Plan} (h : Serialized cmdline inv w s order)
    (hlock : s.lock = none) (hplan : (inv p).command.plan cmdline s.world = .ok plan) :
    Serialized cmdline inv w
      { s.goto p (.running s.world [] plan.steps) with lock := some p } order := by
  cases h with
  | free _ idle world =>
      refine .busy (p := p) rfl (Function.update_self ..) (fun q hq => ?_) world ?_
      · simpa [State.goto, hq] using idle q
      · simp only [alone, hplan]
        rfl
  | busy lock => simp [hlock] at lock

theorem Serialized.exec {locked w' : World} {next : Step} (h : Serialized cmdline inv w s order)
    (hp : s.phase p = .running locked executed (next :: rest))
    (hexec : (inv p).execStep s.world next = some w') :
    Serialized cmdline inv w
      { s.goto p (.running locked (executed ++ [next]) rest) with world := w' } order := by
  rcases h.of_running hp with ⟨lock, only, start, finish⟩
  refine .busy lock (Function.update_self ..) (fun r hr => ?_) start ?_
  · simpa [State.goto, hr] using only r hr
  · rw [← finish, Invocation.finish, hexec]

theorem Serialized.release (h : Serialized cmdline inv w s order)
    (hp : s.phase p = .running locked executed rest)
    (hrest : (rest.head?.any fun next => ((inv p).execStep s.world next).isSome) = false) :
    Serialized cmdline inv w
      { s.goto p (.released locked executed rest) with lock := none } (order ++ [p]) := by
  rcases h.of_running hp with ⟨-, only, start, finish⟩
  have hdone : (inv p).finish s.world rest = s.world := by
    cases rest with
    | nil => rfl
    | cons next rest =>
        have hnone : (inv p).execStep s.world next = none := by simpa using hrest
        rw [Invocation.finish, hnone]
  refine .free rfl (fun r => ?_) ?_
  · by_cases hr : r = p
    · subst hr
      simp [State.goto, Phase.isRunning]
    · simpa [State.goto, hr] using only r hr
  · rw [serial_concat, ← start, ← finish]
    exact hdone.symm

theorem move_keeps {l : Label Pid} (hsound : ∀ q, Sound cmdline (inv q) (s.phase q))
    (horder : LockOrder s.phase order) (hserial : Serialized cmdline inv w s order)
    (hok : LocksUnchanged s l) (hm : Move cmdline inv s l t) :
    (∀ q, Sound cmdline (inv q) (t.phase q)) ∧
      ∃ order, LockOrder t.phase order ∧ Serialized cmdline inv w t order := by
  cases hm with
  | quiet waiting waits sound =>
      exact ⟨sound_goto hsound sound, order,
        horder.update (waits.isReleased.trans waiting.isReleased.symm),
        hserial.goto waiting.isRunning waits.isRunning⟩
  | @acquire p seen plan planned free =>
      have hseen : s.world = seen := by
        simp only [LocksUnchanged, planned] at hok
        exact hok free
      have hplan : (inv p).command.plan cmdline s.world = .ok plan := by
        have hp := hsound p
        rw [planned] at hp
        rw [hseen]
        exact hp
      exact ⟨sound_goto hsound hplan, order, horder.update (by rw [planned]; rfl),
        hserial.acquire free hplan⟩
  | @exec p locked w' executed rest next running runs =>
      have hp := hsound p
      rw [running] at hp
      refine ⟨sound_goto hsound ?_, order, horder.update (by rw [running]; rfl),
        hserial.exec running runs⟩
      simpa [Sound, RunsCurrentPlan] using hp
  | @release p locked executed rest running done =>
      have hp := hsound p
      rw [running] at hp
      exact ⟨sound_goto hsound hp, order ++ [p], horder.concat (by rw [running]; rfl) rfl,
        hserial.release running done⟩

/-- While nothing changes between reading the world and obtaining the lock, every
invocation executes the plan for the world it locked, and the world between two
holders is that of the holders so far, one after the other. -/
theorem runsCurrentPlan_of_locksUnchanged
    (h : Reach (step cmdline inv) LocksUnchanged (Initial w) s) :
    (∀ p, RunsCurrentPlan cmdline (inv p) (s.phase p)) ∧
      (s.lock = none →
        ∃ order, LockOrder s.phase order ∧ s.world = serial cmdline inv w order) := by
  have hinv : (∀ q, Sound cmdline (inv q) (s.phase q)) ∧
      ∃ order, LockOrder s.phase order ∧ Serialized cmdline inv w s order := by
    refine Reach.invariant (P := fun s => (∀ q, Sound cmdline (inv q) (s.phase q)) ∧
      ∃ order, LockOrder s.phase order ∧ Serialized cmdline inv w s order) ?_ ?_ h
    · rintro s ⟨hw, hlock, hstart⟩
      refine ⟨fun q => by rw [hstart q]; trivial, [], ⟨List.nodup_nil, fun q => ?_⟩,
        .free hlock (fun q => by rw [hstart q]; rfl) hw⟩
      simp [hstart q, Phase.isReleased]
    · rintro s l t ⟨hsound, order, horder, hserial⟩ hok hstep
      exact move_keeps hsound horder hserial hok (move_of_step hstep)
  obtain ⟨hsound, order, horder, hserial⟩ := hinv
  refine ⟨fun p => (hsound p).runsCurrentPlan, fun hlock => ⟨order, horder, ?_⟩⟩
  cases hserial with
  | free _ _ world => exact world
  | busy lock => simp [hlock] at lock

end Serial

def nextManifest : Manifest := { sampleManifest with version := "25.12.2" }

def twoInstalls (p : Fin 2) : Invocation :=
  ⟨.install (if p = 0 then sampleManifest else nextManifest) "/sysupdate", false⟩

def twoStarted : State (Fin 2) := ⟨legacyWorld, none, fun _ => .started⟩

theorem initial_twoStarted : Initial legacyWorld twoStarted := ⟨rfl, rfl, fun _ => rfl⟩

/-- The second update reads the device after the first one has released the lock. -/
def successiveRun : List (Label (Fin 2)) :=
  [.listBoot 0, .plan 0, .acquire 0] ++ List.replicate 10 (.exec 0) ++
    [.release 0, .listBoot 1, .plan 1, .acquire 1] ++ List.replicate 12 (.exec 1) ++ [.release 1]

theorem runsCurrentPlan_of_locksUnchanged_successiveRun :
    ∃ s : State (Fin 2),
      Reach (step "root=fstab" twoInstalls) LocksUnchanged (Initial legacyWorld) s ∧
        (s.phase 1).isReleased = true ∧ s.lock = none ∧
        (∀ p, RunsCurrentPlan "root=fstab" (twoInstalls p) (s.phase p)) ∧
        (s.lock = none → ∃ order, LockOrder s.phase order ∧
          s.world = serial "root=fstab" twoInstalls legacyWorld order) := by
  have hrun : ((run (fun s l => if LocksUnchanged s l then step "root=fstab" twoInstalls s l
      else none) twoStarted successiveRun).map fun s => ((s.phase 1).isReleased, s.lock)) =
        some (true, none) := by
    decide +kernel
  obtain ⟨s, hs, hend⟩ := Option.map_eq_some_iff.mp hrun
  obtain ⟨hphase, hlock⟩ := Prod.mk.inj hend
  have hreach := Reach.of_run (Reach.init initial_twoStarted) hs
  exact ⟨s, hreach, hphase, hlock, runsCurrentPlan_of_locksUnchanged hreach⟩

/-- Both updates read the device before either of them has the lock. -/
def overlappingRun : List (Label (Fin 2)) :=
  [.listBoot 0, .plan 0, .listBoot 1, .plan 1, .acquire 0] ++ List.replicate 10 (.exec 0) ++
    [.release 0, .acquire 1, .release 1]

/-- The second update runs a plan for the slot that the first one has used up, fails at
its first step, and the device is left as no serial order leaves it. -/
theorem overlappingRun_stale_plan :
    ∃ s : State (Fin 2),
      Reach (step "root=fstab" twoInstalls) (fun _ _ => True) (Initial legacyWorld) s ∧
        (s.phase 1).isReleased = true ∧
        ¬ RunsCurrentPlan "root=fstab" (twoInstalls 1) (s.phase 1) ∧
        s.world ≠ serial "root=fstab" twoInstalls legacyWorld [0, 1] ∧
        s.world ≠ serial "root=fstab" twoInstalls legacyWorld [1, 0] := by
  have hrun : (run (fun s l => if True then step "root=fstab" twoInstalls s l else none) twoStarted
      overlappingRun).any (fun s => (s.phase 1).isReleased ∧
        ¬ RunsCurrentPlan "root=fstab" (twoInstalls 1) (s.phase 1) ∧
        s.world ≠ serial "root=fstab" twoInstalls legacyWorld [0, 1] ∧
        s.world ≠ serial "root=fstab" twoInstalls legacyWorld [1, 0]) = true := by
    decide +kernel
  obtain ⟨s, hs, hend⟩ := (Option.any_eq_true _ _).mp hrun
  exact ⟨s, Reach.of_run (Reach.init initial_twoStarted) hs, of_decide_eq_true hend⟩

end Invocation

end GhafGivc.Image
