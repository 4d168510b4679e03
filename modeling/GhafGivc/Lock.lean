import GhafGivc.Core.Transition
import Mathlib.Logic.Function.Basic

/-! # The update lock

A holder has an exclusive `flock` on the inode it opened. Contenders meet on a path,
and the holder unlinks that path before it closes the file.
-/

namespace GhafGivc.UpdateLock

open Core

/-- The calls that record the owner in the locked file. -/
inductive OwnerCall where
  | truncate
  | write
  | sync
deriving DecidableEq

def OwnerCall.context (path : String) : OwnerCall → String
  | truncate => "truncating lock file " ++ path
  | write => "writing lock owner into " ++ path
  | sync => "sync lock file " ++ path

/-- Where one caller of `acquire` stands; `held` is the life of an `UpdateLock`. -/
inductive Phase where
  | idle
  | failed (error : String)
  | opened (inode : Nat)
  | locked (inode : Nat)
  | held (inode : Nat)
  | unlinked (inode : Nat)
deriving DecidableEq

def Phase.isIdle : Phase → Bool
  | idle => true
  | failed _ => true
  | _ => false

def Phase.flock : Phase → Option Nat
  | locked inode => some inode
  | held inode => some inode
  | unlinked inode => some inode
  | _ => none

/-- The callers, the inode that the path names, and the kernel's table of locks. -/
structure State (Pid : Type) where
  phase : Pid → Phase
  entry : Option Nat
  fresh : Nat
  owner : Nat → Option Pid

inductive Label (Pid : Type) where
  | openOrCreate (p : Pid)
  | openError (p : Pid)
  | tryLock (p : Pid)
  | record (p : Pid) (failure : Option OwnerCall)
  | unlink (p : Pid)
  | close (p : Pid)
  | crash (p : Pid)
deriving DecidableEq

variable {Pid : Type} [DecidableEq Pid]

namespace State

def goto (s : State Pid) (p : Pid) (phase : Phase) : State Pid :=
  { s with phase := Function.update s.phase p phase }

def release (s : State Pid) (inode : Nat) : State Pid :=
  { s with owner := Function.update s.owner inode none }

/-- `OpenOptions::open` with `create`: the inode at the path, or a new one. -/
def openFile (s : State Pid) (p : Pid) : State Pid :=
  match s.entry with
  | some inode => s.goto p (.opened inode)
  | none => { s.goto p (.opened s.fresh) with entry := some s.fresh, fresh := s.fresh + 1 }

end State

def step (path : String) (s : State Pid) : Label Pid → Option (State Pid)
  | .openOrCreate p => if (s.phase p).isIdle then some (s.openFile p) else none
  | .openError p =>
      if (s.phase p).isIdle then some (s.goto p (.failed ("opening lock file " ++ path))) else none
  | .tryLock p =>
      match s.phase p with
      | .opened inode =>
          match s.owner inode with
          | none =>
              some { s.goto p (.locked inode) with
                owner := Function.update s.owner inode (some p) }
          | some _ =>
              some (s.goto p (.failed
                ("another ota-update instance is already running (lock: " ++ path ++ ")")))
      | _ => none
  | .record p failure =>
      match s.phase p, failure with
      | .locked inode, none => some (s.goto p (.held inode))
      -- no `UpdateLock` was built, so nothing is unlinked
      | .locked inode, some call =>
          some ((s.goto p (.failed (call.context path))).release inode)
      | _, _ => none
  | .unlink p =>
      match s.phase p with
      | .held inode => some { s.goto p (.unlinked inode) with entry := none }
      | _ => none
  | .close p =>
      match s.phase p with
      | .unlinked inode => some ((s.goto p .idle).release inode)
      | _ => none
  | .crash p =>
      match (s.phase p).flock with
      | some inode => some ((s.goto p .idle).release inode)
      | none => some (s.goto p .idle)

/-- Nobody is inside `acquire`; the lock file may have been left behind. -/
def Initial (s : State Pid) : Prop := (∀ p, s.phase p = .idle) ∧ ∀ inode, s.owner inode = none

/-- No two callers hold an `UpdateLock`. -/
def Exclusive (s : State Pid) : Prop :=
  ∀ p q i j, s.phase p = .held i → s.phase q = .held j → p = q

/-- A lock is only granted on the inode that the path still names. -/
def GrantsCurrent (s : State Pid) : Label Pid → Prop
  | .tryLock p =>
      match s.phase p with
      | .opened inode => s.owner inode = none → s.entry = some inode
      | _ => True
  | _ => True

instance (s : State Pid) (l : Label Pid) : Decidable (GrantsCurrent s l) := by
  unfold GrantsCurrent
  split
  · split <;> infer_instance
  · infer_instance

/-! ## What a step can do -/

/-- The inode of a lock that its caller has not begun to give up. -/
def Phase.guarded : Phase → Option Nat
  | locked inode => some inode
  | held inode => some inode
  | _ => none

/-- The steps by their effect on locks and on the path. -/
inductive Move (s : State Pid) : Label Pid → State Pid → Prop
  | quiet {l : Label Pid} {p : Pid} {phase : Phase} (flock : phase.flock = (s.phase p).flock)
      (guarded : ∀ inode, phase.guarded = some inode → (s.phase p).guarded = some inode) :
      Move s l (s.goto p phase)
  | create {p : Pid} (absent : s.entry = none) (unlocked : (s.phase p).flock = none) :
      Move s (.openOrCreate p)
        { s.goto p (.opened s.fresh) with entry := some s.fresh, fresh := s.fresh + 1 }
  | grant {p : Pid} {inode : Nat} (opened : s.phase p = .opened inode)
      (free : s.owner inode = none) :
      Move s (.tryLock p)
        { s.goto p (.locked inode) with owner := Function.update s.owner inode (some p) }
  | unlink {p : Pid} {inode : Nat} (held : s.phase p = .held inode) :
      Move s (.unlink p) { s.goto p (.unlinked inode) with entry := none }
  | release {l : Label Pid} {p : Pid} {phase : Phase} {inode : Nat}
      (locked : (s.phase p).flock = some inode) (flock : phase.flock = none)
      (guarded : phase.guarded = none) : Move s l ((s.goto p phase).release inode)

section Moves

variable {path : String} {s t : State Pid} {l : Label Pid} {p : Pid} {phase : Phase}

theorem Phase.flock_of_isIdle (h : phase.isIdle = true) : phase.flock = none := by
  cases phase <;> first | rfl | simp [isIdle] at h

theorem Phase.flock_of_guarded {inode : Nat} (h : phase.guarded = some inode) :
    phase.flock = some inode := by
  cases phase <;> simp [guarded] at h <;> simp [flock, h]

theorem move_openFile (h : (s.phase p).isIdle = true) :
    Move s (.openOrCreate p) (s.openFile p) := by
  have hflock := Phase.flock_of_isIdle h
  unfold State.openFile
  split
  · exact .quiet hflock.symm (by simp [Phase.guarded])
  · rename_i hentry
    exact .create hentry hflock

theorem move_of_step (h : step path s l = some t) : Move s l t := by
  cases l with
  | openOrCreate p =>
      obtain ⟨hidle, rfl⟩ : (s.phase p).isIdle = true ∧ s.openFile p = t := by simpa [step] using h
      exact move_openFile hidle
  | openError p =>
      obtain ⟨hidle, rfl⟩ : (s.phase p).isIdle = true ∧
          s.goto p (.failed ("opening lock file " ++ path)) = t := by simpa [step] using h
      exact .quiet (Phase.flock_of_isIdle hidle).symm (by simp [Phase.guarded])
  | tryLock p =>
      simp only [step] at h
      split at h
      · rename_i inode hp
        split at h
        · rename_i hfree
          obtain rfl := Option.some.inj h
          exact .grant hp hfree
        · obtain rfl := Option.some.inj h
          exact .quiet (by rw [hp]; rfl) (by simp [Phase.guarded])
      · cases h
  | record p failure =>
      simp only [step] at h
      split at h
      · rename_i inode hp
        obtain rfl := Option.some.inj h
        exact .quiet (by rw [hp]; rfl) (by rw [hp]; exact fun _ => id)
      · rename_i inode call hp
        obtain rfl := Option.some.inj h
        exact .release (by rw [hp]; rfl) rfl rfl
      · cases h
  | unlink p =>
      simp only [step] at h
      split at h
      · rename_i inode hp
        obtain rfl := Option.some.inj h
        exact .unlink hp
      · cases h
  | close p =>
      simp only [step] at h
      split at h
      · rename_i inode hp
        obtain rfl := Option.some.inj h
        exact .release (by rw [hp]; rfl) rfl rfl
      · cases h
  | crash p =>
      simp only [step] at h
      split at h
      · rename_i inode hp
        obtain rfl := Option.some.inj h
        exact .release hp rfl rfl
      · rename_i hp
        obtain rfl := Option.some.inj h
        exact .quiet (by rw [hp]; rfl) (by simp [Phase.guarded])

end Moves

/-! ## The table of locks -/

/-- The kernel's table lists exactly the locks that the callers have. -/
def Tabled (s : State Pid) : Prop :=
  ∀ p inode, (s.phase p).flock = some inode ↔ s.owner inode = some p

section Table

variable {s : State Pid} {p : Pid} {phase : Phase} {inode : Nat}

theorem Tabled.goto (h : Tabled s) (hp : phase.flock = (s.phase p).flock) :
    Tabled (s.goto p phase) := by
  intro q i
  by_cases hq : q = p
  · subst hq
    simpa [State.goto, hp] using h q i
  · simpa [State.goto, hq] using h q i

theorem Tabled.grant (h : Tabled s) (hp : (s.phase p).flock = none)
    (hfree : s.owner inode = none) :
    Tabled { s.goto p (.locked inode) with
      owner := Function.update s.owner inode (some p) } := by
  intro q i
  have hq' := h q i
  by_cases hq : q = p <;> by_cases hi : i = inode
  · subst hq hi
    simp [State.goto, Phase.flock]
  · subst hq
    have hne : s.owner i ≠ some q := fun ho => Option.some_ne_none _ ((hq'.mpr ho).symm.trans hp)
    simp [State.goto, Phase.flock, hi, hne, Ne.symm hi]
  · subst hi
    have hne : (s.phase q).flock ≠ some i := fun hf =>
      Option.some_ne_none _ ((hq'.mp hf).symm.trans hfree)
    simp [State.goto, hq, hne, Ne.symm hq]
  · simpa [State.goto, hq, hi] using hq'

theorem Tabled.release (h : Tabled s) (hp : (s.phase p).flock = some inode)
    (hphase : phase.flock = none) : Tabled ((s.goto p phase).release inode) := by
  intro q i
  have hq' := h q i
  have howner := (h p inode).mp hp
  by_cases hq : q = p <;> by_cases hi : i = inode
  · subst hq hi
    simp [State.goto, State.release, hphase]
  · subst hq
    have hne : s.owner i ≠ some q := fun ho => hi (Option.some.inj ((hq'.mpr ho).symm.trans hp))
    simp [State.goto, State.release, hphase, hi, hne]
  · subst hi
    have hne : (s.phase q).flock ≠ some i := fun hf =>
      hq (Option.some.inj ((hq'.mp hf).symm.trans howner))
    simp [State.goto, State.release, hq, hne]
  · simpa [State.goto, State.release, hq, hi] using hq'

theorem Tabled.move {l : Label Pid} {t : State Pid} (h : Tabled s) (hm : Move s l t) :
    Tabled t := by
  cases hm with
  | quiet flock _ => exact h.goto flock
  | @create p _ unlocked =>
      have hgoto : Tabled (s.goto p (.opened s.fresh)) := h.goto unlocked.symm
      exact hgoto
  | grant opened free => exact h.grant (by rw [opened]; rfl) free
  | @unlink p inode held =>
      have hgoto : Tabled (s.goto p (.unlinked inode)) := h.goto (by rw [held]; rfl)
      exact hgoto
  | release locked flock _ => exact h.release locked flock

end Table

/-! ## Mutual exclusion -/

/-- Every guarded inode is the one that the path names. -/
def Anchored (s : State Pid) : Prop :=
  ∀ p inode, (s.phase p).guarded = some inode → s.entry = some inode

section Exclusion

variable {path : String} {s t : State Pid} {l : Label Pid} {p : Pid} {phase : Phase} {inode : Nat}

theorem Anchored.goto (h : Anchored s)
    (hp : ∀ i, phase.guarded = some i → s.entry = some i) : Anchored (s.goto p phase) := by
  intro q i hq
  by_cases hqp : q = p
  · subst hqp
    exact hp i (by simpa [State.goto] using hq)
  · exact h q i (by simpa [State.goto, hqp] using hq)

/-- The path entry may change while nobody else guards an inode. -/
theorem Anchored.of_unguarded (entry : Option Nat) (fresh : Nat)
    (h : ∀ q ≠ p, (s.phase q).guarded = none) (hp : phase.guarded = none) :
    Anchored { s.goto p phase with entry := entry, fresh := fresh } := by
  intro q i hq
  by_cases hqp : q = p
  · subst hqp
    simp [State.goto, hp] at hq
  · simp [State.goto, hqp, h q hqp] at hq

omit [DecidableEq Pid] in
theorem guarded_of_absent (h : Anchored s) (hentry : s.entry = none) (q : Pid) :
    (s.phase q).guarded = none := by
  cases hg : (s.phase q).guarded with
  | none => rfl
  | some i => exact absurd ((h q i hg).symm.trans hentry) (by simp)

omit [DecidableEq Pid] in
theorem eq_of_guarded {q : Pid} {i j : Nat} (htab : Tabled s) (h : Anchored s)
    (hp : (s.phase p).guarded = some i) (hq : (s.phase q).guarded = some j) : p = q := by
  obtain rfl : i = j := Option.some.inj ((h p i hp).symm.trans (h q j hq))
  have hp' := (htab p i).mp (Phase.flock_of_guarded hp)
  exact Option.some.inj (hp'.symm.trans ((htab q i).mp (Phase.flock_of_guarded hq)))

theorem Anchored.move (h : Anchored s) (htab : Tabled s) (hok : GrantsCurrent s l)
    (hm : Move s l t) : Anchored t := by
  cases hm with
  | quiet _ guarded => exact h.goto fun i hi => h _ i (guarded i hi)
  | create absent _ => exact .of_unguarded _ _ (fun q _ => guarded_of_absent h absent q) rfl
  | @grant p inode opened free =>
      have hentry : s.entry = some inode := by
        simp only [GrantsCurrent, opened] at hok
        exact hok free
      have hgoto : Anchored (s.goto p (.locked inode)) := h.goto fun i hi => hentry.trans hi
      exact hgoto
  | @unlink p inode held =>
      have hp : (s.phase p).guarded = some inode := by rw [held]; rfl
      refine .of_unguarded none s.fresh (fun q hq => ?_) rfl
      cases hg : (s.phase q).guarded with
      | none => rfl
      | some i => exact absurd (eq_of_guarded htab h hg hp) hq
  | @release _ p phase _ _ _ guarded =>
      have hgoto : Anchored (s.goto p phase) := h.goto (by simp [guarded])
      exact hgoto

/-- While every lock is granted on the inode that the path names, no two callers hold
the update lock. -/
theorem exclusive_of_grantsCurrent
    (h : Reach (step path) GrantsCurrent Initial s) : Exclusive s := by
  have hinv : Tabled s ∧ Anchored s := by
    refine Reach.invariant (P := fun s => Tabled s ∧ Anchored s) ?_ ?_ h
    · rintro s ⟨hidle, hfree⟩
      constructor
      · intro p i
        simp [hidle p, hfree i, Phase.flock]
      · intro p i hp
        simp [hidle p, Phase.guarded] at hp
    · rintro s l t ⟨htab, hanc⟩ hok hstep
      have hm := move_of_step hstep
      exact ⟨htab.move hm, hanc.move htab hok hm⟩
  intro p q i j hp hq
  have hpg : (s.phase p).guarded = some i := by rw [hp]; rfl
  have hqg : (s.phase q).guarded = some j := by rw [hq]; rfl
  exact eq_of_guarded hinv.1 hinv.2 hpg hqg

end Exclusion

def unlocked (Pid : Type) : State Pid := ⟨fun _ => .idle, none, 0, fun _ => none⟩

theorem initial_unlocked (Pid : Type) : Initial (unlocked Pid) := ⟨fun _ => rfl, fun _ => rfl⟩

def orderlyRun : List (Label (Fin 3)) :=
  [.openOrCreate 0, .tryLock 0, .record 0 none, .openOrCreate 1, .tryLock 1, .unlink 0, .close 0,
    .openOrCreate 2, .tryLock 2, .record 2 none]

theorem exclusive_of_grantsCurrent_orderlyRun :
    ∃ s : State (Fin 3), Reach (step "/run/ota-update.lock") GrantsCurrent Initial s ∧
      s.phase 2 = .held 1 ∧ Exclusive s := by
  have hrun : ((run (fun s l => if GrantsCurrent s l then step "/run/ota-update.lock" s l else none)
      (unlocked (Fin 3)) orderlyRun).map fun s => s.phase 2) = some (.held 1) := by
    decide +kernel
  obtain ⟨s, hs, hheld⟩ := Option.map_eq_some_iff.mp hrun
  have hreach := Reach.of_run (Reach.init (initial_unlocked (Fin 3))) hs
  exact ⟨s, hreach, hheld, exclusive_of_grantsCurrent hreach⟩

/-- The second caller opens the file before the first one unlinks it, and locks it
after the third one has locked a new file at the path. -/
def staleRun : List (Label (Fin 3)) :=
  [.openOrCreate 0, .tryLock 0, .record 0 none, .openOrCreate 1, .unlink 0, .close 0,
    .openOrCreate 2, .tryLock 2, .record 2 none, .tryLock 1, .record 1 none]

theorem staleRun_two_holders :
    ∃ s : State (Fin 3), Reach (step "/run/ota-update.lock") (fun _ _ => True) Initial s ∧
      s.phase 1 = .held 0 ∧ s.phase 2 = .held 1 ∧ ¬ Exclusive s := by
  have hrun : ((run (fun s l => if True then step "/run/ota-update.lock" s l else none)
      (unlocked (Fin 3)) staleRun).map fun s => (s.phase 1, s.phase 2)) =
        some (.held 0, .held 1) := by
    decide +kernel
  obtain ⟨s, hs, hheld⟩ := Option.map_eq_some_iff.mp hrun
  obtain ⟨h₁, h₂⟩ := Prod.mk.inj hheld
  refine ⟨s, Reach.of_run (Reach.init (initial_unlocked (Fin 3))) hs, h₁, h₂, fun hex => ?_⟩
  exact absurd (hex 1 2 0 1 h₁ h₂) (by decide)

end GhafGivc.UpdateLock
