import GhafGivc.Image.InstallCrash
import Mathlib.Data.Nat.Find

/-! # Running a plan through the shell

Every step is flattened to the text of a pipeline and handed to a shell, whose exit
status is all the executor sees. For a pipeline of several commands that is the
status of the last one.
-/

namespace GhafGivc.Image

open Core

/-- What waiting for a process yields; no code after a signal. -/
structure ExitStatus where
  code : Option Int
deriving DecidableEq

def ExitStatus.success (s : ExitStatus) : Bool := s.code = some 0

namespace Executor

/-- The default method of the trait, over the `run_pipeline` of an executor. -/
def runPlan (runPipeline : Nat → Pipeline → Outcome String Unit) (steps : List Pipeline) :
    List Pipeline × Outcome String Unit :=
  Outcome.each runPipeline 0 steps

end Executor

structure ShellExecutor where
  shell : String
deriving DecidableEq

namespace ShellExecutor

def default : ShellExecutor := ⟨"/bin/sh"⟩

/-- One invocation of the shell; `spawn` is what the system makes of a command. -/
def runPipeline (self : ShellExecutor) (escape : String → String)
    (spawn : CommandSpec → Outcome String ExitStatus) (p : Pipeline) : Outcome String Unit := do
  let cmdline := p.formatShell escape
  let status ← spawn ⟨self.shell, ["-c", cmdline]⟩
  Outcome.ensure status.success
    ("pipeline failed (exit=" ++ toString (status.code.getD (-1)) ++ "): " ++ cmdline)

def runPlan (self : ShellExecutor) (escape : String → String)
    (spawn : Nat → CommandSpec → Outcome String ExitStatus) (steps : List Pipeline) :
    List Pipeline × Outcome String Unit :=
  Executor.runPlan (fun i => self.runPipeline escape (spawn i)) steps

/-- A shell whose status for a pipeline is that of its last command, `status i j`
being the status of command `j` of step `i`. -/
def Posix (self : ShellExecutor) (escape : String → String)
    (spawn : Nat → CommandSpec → Outcome String ExitStatus) (status : Nat → Nat → Int)
    (steps : List Pipeline) : Prop :=
  ∀ i p, steps[i]? = some p →
    spawn i ⟨self.shell, ["-c", p.formatShell escape]⟩ =
      .ok ⟨some (if p.stages = [] then 0 else status i (p.stages.length - 1))⟩

def StepFails (status : Nat → Nat → Int) (steps : List Pipeline) (i : Nat) : Prop :=
  ∃ p, steps[i]? = some p ∧ ∃ j < p.stages.length, status i j ≠ 0

def LastFails (status : Nat → Nat → Int) (steps : List Pipeline) (i : Nat) : Prop :=
  ∃ p, steps[i]? = some p ∧ p.stages ≠ [] ∧ status i (p.stages.length - 1) ≠ 0

/-- The shell itself, on commands that exit with the given statuses. -/
def posixSpawn (status : Nat → Nat → Int) (steps : List Pipeline) (i : Nat) (_ : CommandSpec) :
    Outcome String ExitStatus :=
  let stages := (steps[i]?.map Pipeline.stages).getD []
  .ok ⟨some (if stages = [] then 0 else status i (stages.length - 1))⟩

theorem posix_posixSpawn (self : ShellExecutor) (escape : String → String)
    (status : Nat → Nat → Int) (steps : List Pipeline) :
    self.Posix escape (posixSpawn status steps) status steps := by
  intro i p hp
  simp only [posixSpawn, hp, Option.map_some, Option.getD_some]

section Run

variable {self : ShellExecutor} {escape : String → String}
  {spawn : Nat → CommandSpec → Outcome String ExitStatus} {status : Nat → Nat → Int}
  {steps : List Pipeline} {i : Nat} {p : Pipeline}

theorem LastFails.stepFails (h : LastFails status steps i) : StepFails status steps i := by
  obtain ⟨p, hp, hne, hs⟩ := h
  have hpos := List.length_pos_iff.mpr hne
  exact ⟨p, hp, p.stages.length - 1, by omega, hs⟩

theorem runPipeline_eq_ok_iff (posix : self.Posix escape spawn status steps)
    (hp : steps[i]? = some p) :
    self.runPipeline escape (spawn i) p = .ok () ↔ ¬ LastFails status steps i := by
  rw [runPipeline, posix i p hp, Outcome.ok_bind, Outcome.ensure_eq_ok]
  by_cases hs : p.stages = [] <;> simp [LastFails, ExitStatus.success, hs, hp]

theorem runPipeline_returns (posix : self.Posix escape spawn status steps)
    (hp : steps[i]? = some p) : (self.runPipeline escape (spawn i) p).Returns := by
  rw [runPipeline, posix i p hp, Outcome.ok_bind]
  exact Outcome.returns_ensure _ _

theorem runPlan_of_first_lastFails (posix : self.Posix escape spawn status steps)
    (hi : LastFails status steps i) (hfirst : ∀ k < i, ¬ LastFails status steps k) :
    i < steps.length ∧ (self.runPlan escape spawn steps).1 = steps.take (i + 1) ∧
      ∃ e, (self.runPlan escape spawn steps).2 = .err e := by
  obtain ⟨p, hp, _⟩ := id hi
  have hfail : self.runPipeline escape (spawn i) p ≠ .ok () :=
    fun hok => (runPipeline_eq_ok_iff posix hp).mp hok hi
  have hrun : self.runPlan escape spawn steps =
      (steps.take (i + 1), self.runPipeline escape (spawn (0 + i)) p) := by
    refine Outcome.each_of_first_failure hp (by rwa [Nat.zero_add]) fun k hk q hq => ?_
    rw [Nat.zero_add]
    exact (runPipeline_eq_ok_iff posix hq).mpr (hfirst k hk)
  rw [hrun, Nat.zero_add]
  exact ⟨(List.getElem?_eq_some_iff.mp hp).1, rfl,
    (runPipeline_returns posix hp).exists_err hfail⟩

theorem runPlan_of_no_lastFails (posix : self.Posix escape spawn status steps)
    (h : ∀ i, ¬ LastFails status steps i) : self.runPlan escape spawn steps = (steps, .ok ()) :=
  Outcome.each_of_forall_ok fun k q hq => by
    rw [Nat.zero_add]
    exact (runPipeline_eq_ok_iff posix hq).mpr (h k)

end Run

/-- A failing command stops the run, at its step at the latest, exactly when the first
step with a failing command is one whose last command fails. -/
theorem runPlan_stops_iff {self : ShellExecutor} {escape : String → String}
    {spawn : Nat → CommandSpec → Outcome String ExitStatus} {status : Nat → Nat → Int}
    {steps : List Pipeline} (posix : self.Posix escape spawn status steps) :
    (∀ i p j, steps[i]? = some p → j < p.stages.length → status i j ≠ 0 →
        (∃ e, (self.runPlan escape spawn steps).2 = .err e) ∧
          (self.runPlan escape spawn steps).1.length ≤ i + 1) ↔
      ∀ i, StepFails status steps i → (∀ k < i, ¬ StepFails status steps k) →
        LastFails status steps i := by
  classical
  constructor
  · rintro hstop i ⟨p, hp, j, hj, hs⟩ hfirst
    obtain ⟨⟨e, herr⟩, hlen⟩ := hstop i p j hp hj hs
    by_contra hlast
    by_cases hsome : ∃ k, LastFails status steps k
    · obtain ⟨hlt, hran, _⟩ := runPlan_of_first_lastFails posix (Nat.find_spec hsome)
        fun k hk => Nat.find_min hsome hk
      have hle : i ≤ Nat.find hsome := by
        by_contra hgt
        exact hfirst _ (by omega) (Nat.find_spec hsome).stepFails
      have hne : i ≠ Nat.find hsome := fun e => hlast (e ▸ Nat.find_spec hsome)
      rw [hran, List.length_take] at hlen
      omega
    · rw [runPlan_of_no_lastFails posix fun k hk => hsome ⟨k, hk⟩] at herr
      cases herr
  · intro hcond i p j hp hj hs
    have hfails : ∃ k, StepFails status steps k := ⟨i, p, hp, j, hj, hs⟩
    have hlast := hcond _ (Nat.find_spec hfails) fun k hk => Nat.find_min hfails hk
    obtain ⟨_, hran, herr⟩ := runPlan_of_first_lastFails posix hlast fun k hk hk' =>
      Nat.find_min hfails hk hk'.stepFails
    have hle : Nat.find hfails ≤ i := Nat.find_min' hfails ⟨p, hp, j, hj, hs⟩
    refine ⟨herr, ?_⟩
    rw [hran, List.length_take]
    omega

def legacyInstallPipelines : List Pipeline := legacyInstallPlan.steps.map Step.pipeline

/-- Decompressing the root image fails and every other command succeeds. -/
def zstdcatFails (i j : Nat) : Int := if i = 0 ∧ j = 0 then 1 else 0

theorem runPlan_stops_iff_legacyInstall :
    (∀ i p j, legacyInstallPipelines[i]? = some p → j < p.stages.length → zstdcatFails i j ≠ 0 →
        (∃ e, (default.runPlan id (posixSpawn zstdcatFails legacyInstallPipelines)
          legacyInstallPipelines).2 = .err e) ∧
          (default.runPlan id (posixSpawn zstdcatFails legacyInstallPipelines)
            legacyInstallPipelines).1.length ≤ i + 1) ↔
      ∀ i, StepFails zstdcatFails legacyInstallPipelines i →
        (∀ k < i, ¬ StepFails zstdcatFails legacyInstallPipelines k) →
        LastFails zstdcatFails legacyInstallPipelines i :=
  runPlan_stops_iff (posix_posixSpawn default id zstdcatFails legacyInstallPipelines)

/-- The failed decompression goes unnoticed: every step is executed, among them the
two renames to the new version and the installation of its UKI. -/
theorem runPlan_misses_zstdcat :
    Plan.install (legacyWorld.runtimeOf legacyKernel) sampleManifest "/sysupdate" =
        .ok legacyInstallPlan ∧
      default.Posix id (posixSpawn zstdcatFails legacyInstallPipelines) zstdcatFails
        legacyInstallPipelines ∧
      legacyInstallPipelines[0]? = some ⟨[
        ⟨"zstdcat", ["/sysupdate/ghaf_root_25.12.1_44cc41b403a2d323.raw.zst"]⟩,
        ⟨"dd", ["of=/dev/mapper/pool-root_empty", "bs=4M", "status=progress"]⟩]⟩ ∧
      zstdcatFails 0 0 ≠ 0 ∧
      legacyInstallPipelines[4]? = some ⟨[
        ⟨"lvrename", ["pool", "root_empty", "root_25.12.1_44cc41b403a2d323"]⟩]⟩ ∧
      default.runPlan id (posixSpawn zstdcatFails legacyInstallPipelines)
        legacyInstallPipelines = (legacyInstallPipelines, .ok ()) :=
  ⟨install_legacyWorld, posix_posixSpawn default id zstdcatFails legacyInstallPipelines,
    by decide +kernel, by decide, by decide +kernel, by decide +kernel⟩

end ShellExecutor

end GhafGivc.Image
