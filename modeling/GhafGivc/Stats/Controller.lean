import GhafGivc.Core.NilMap
import GhafGivc.Stats.Ranking
import Mathlib.Data.List.Pairwise

/-! # Process statistics

A call reads the counters of the system and the status line of every process. It reports the
differences to what the controller keeps of the last call that did not fail.
-/

namespace GhafGivc.Stats

open Core Core.Delimited

/-- The counters in the first line of `/proc/stat`, in their order. -/
inductive StatField where
  | userTime
  | niceTime
  | systemTime
  | idleTime
  | ioWaitTime
  | irq
  | softIrq
  | steal
  | guest
  | guestNice
deriving DecidableEq

def StatField.all : List StatField :=
  [userTime, niceTime, systemTime, idleTime, ioWaitTime, irq, softIrq, steal, guest, guestNice]

theorem StatField.mem_all (i : StatField) : i ∈ all := by
  cases i <;> decide

abbrev Totals := StatField → UInt64

structure Controller where
  jiffies : UInt64
  processes : Nat → Option Process
  totals : Totals

def newController : Controller where
  jiffies := 0
  processes := fun _ => none
  totals := fun _ => 0

/-- An entry of `/proc` and what its file `stat` holds, when it can be read. -/
structure Entry where
  name : List Char
  stat : Option (List Char)

/-- No two entries are for the same process. -/
def Distinct (procs : List Entry) : Prop :=
  procs.Pairwise fun a b => ∀ pid, Text.parseUint 64 a.name = some pid →
    Text.parseUint 64 b.name ≠ some pid

/-- What a call can read: the first line of `/proc/stat`, and the directory `/proc`. -/
structure System where
  stat : Option (List Char)
  procs : Option (List Entry)
  distinct : ∀ entries ∈ procs, Distinct entries

structure ProcessStats where
  cpuProcesses : List ProcessStat
  memProcesses : List ProcessStat
  userCycles : UInt64
  sysCycles : UInt64
  totalCycles : UInt64
  total : UInt64
  running : UInt64

/-- The loop over the counters: their sum, and each of them. -/
def readTotals : List StatField → List (List Char) → UInt64 × Totals → Option (UInt64 × Totals)
  | [], _, acc => some acc
  | _ :: _, [], acc => some acc
  | i :: is, field :: fields, (jiffies, totals) =>
      match Text.parseUint 64 field with
      | none => none
      | some jif =>
          readTotals is fields
            (jiffies + UInt64.ofNat jif, Function.update totals i (UInt64.ofNat jif))

def readStat (stat : Option (List Char)) : Option (UInt64 × Totals) := do
  let line ← stat
  let (_, values) ← splitOnce ' ' line
  readTotals StatField.all (Text.splitWhitespace values) (0, fun _ => 0)

def readEntry (entry : Entry) : Option (Nat × Process) := do
  let pid ← Text.parseUint 64 entry.name
  let stat ← entry.stat
  let proc ← parseStat stat
  return (pid, proc)

def times : List StatPidField := [.userTime, .sysTime, .childUserTime, .childSysTime]

/-- The process with the differences of its times, where the last call has seen its pid. -/
def changeOf (lastprocesses : Nat → Option Process) (pid : Nat) (proc : Process) :
    Option Process :=
  (lastprocesses pid).map fun prev =>
    { proc with
      values := fun i => if i ∈ times then proc.values i - prev.values i else proc.values i }

def visit (lastprocesses : Nat → Option Process)
    (acc : (Nat → Option Process) × List Process) (entry : Entry) :
    (Nat → Option Process) × List Process :=
  match readEntry entry with
  | none => acc
  | some (pid, proc) =>
      (Function.update acc.1 pid (some proc), acc.2 ++ (changeOf lastprocesses pid proc).toList)

def getProcessStats (sorter : Sorter Process Nat) (c : Controller) (system : System) :
    Except String (ProcessStats × Controller) :=
  match readStat system.stat with
  | none => .error "failed to read stats"
  | some (jiffies, totals) =>
      match system.procs with
      | none => .error "failed to enumerate processes"
      | some procs =>
          let (processes, changes) := procs.foldl (visit c.processes) (fun _ => none, [])
          let djiffies := jiffies - c.jiffies
          let (cpuProcs, memProcs) := rank sorter djiffies changes
          .ok (
            { cpuProcesses := cpuProcs
              memProcesses := memProcs
              userCycles := totals .userTime - c.totals .userTime
              sysCycles := totals .systemTime - c.totals .systemTime
              totalCycles := djiffies
              total := 0
              running := 0 },
            { jiffies := jiffies, processes := processes, totals := totals })

theorem foldl_visit (last : Nat → Option Process) (procs : List Entry)
    (processes : Nat → Option Process) (changes : List Process) :
    procs.foldl (visit last) (processes, changes) =
      (storeAll processes (procs.filterMap readEntry),
        changes ++ (procs.filterMap readEntry).filterMap fun e => changeOf last e.1 e.2) := by
  induction procs generalizing processes changes with
  | nil => simp [storeAll]
  | cons entry procs ih =>
      rw [List.foldl_cons, visit, List.filterMap_cons]
      cases hentry : readEntry entry with
      | none => exact ih processes changes
      | some e =>
          dsimp only
          rw [ih, storeAll, storeAll, List.foldl_cons, List.filterMap_cons]
          cases changeOf last e.1 e.2 with
          | none => simp
          | some change => simp

variable {system : System} {procs : List Entry} {sorter : Sorter Process Nat} {stats : ProcessStats}

variable {c c' : Controller} {pid : Nat} {proc : Process}

theorem getProcessStats_eq_ok (h : getProcessStats sorter c system = .ok (stats, c')) :
    ∃ procs, system.procs = some procs ∧
      readStat system.stat = some (c'.jiffies, c'.totals) ∧
      c'.processes = storeAll (fun _ => none) (procs.filterMap readEntry) ∧
      stats.userCycles = c'.totals .userTime - c.totals .userTime ∧
      stats.sysCycles = c'.totals .systemTime - c.totals .systemTime ∧
      stats.totalCycles = c'.jiffies - c.jiffies := by
  unfold getProcessStats at h
  cases hstat : readStat system.stat with
  | none =>
      rw [hstat] at h
      cases h
  | some counters =>
      rw [hstat] at h
      cases hprocs : system.procs with
      | none =>
          rw [hprocs] at h
          cases h
      | some procs =>
          rw [hprocs] at h
          dsimp only at h
          rw [foldl_visit] at h
          cases h
          exact ⟨procs, rfl, rfl, rfl, rfl, rfl, rfl⟩

theorem readEntry_eq_some {entry : Entry} :
    readEntry entry = some (pid, proc) ↔
      Text.parseUint 64 entry.name = some pid ∧
        ∃ stat, entry.stat = some stat ∧ parseStat stat = some proc := by
  simp only [readEntry, Option.bind_eq_bind, Option.bind_eq_some_iff, Option.pure_def,
    Option.some.injEq, Prod.mk.injEq]
  constructor
  · intro h
    rcases h with ⟨pid', hpid, stat, hstat, proc', hproc, heq, heq'⟩
    subst heq heq'
    exact ⟨hpid, stat, hstat, hproc⟩
  · intro h
    rcases h with ⟨hpid, stat, hstat, hproc⟩
    exact ⟨pid, hpid, stat, hstat, proc, hproc, rfl, rfl⟩

theorem Distinct.nodup_pids (h : Distinct procs) :
    ((procs.filterMap readEntry).map Prod.fst).Nodup := by
  rw [List.Nodup, List.pairwise_map, List.pairwise_filterMap]
  apply h.imp
  intro a b hab e he e' he' heq
  apply hab e.1 (readEntry_eq_some.mp he).1
  rw [heq]
  exact (readEntry_eq_some.mp he').1

theorem Distinct.eq_of_pid (h : Distinct procs) {a b : Entry} (ha : a ∈ procs) (hb : b ∈ procs)
    (hpa : Text.parseUint 64 a.name = some pid) (hpb : Text.parseUint 64 b.name = some pid) :
    a = b := by
  by_contra hne
  have hsymm : Std.Symm fun a b : Entry => ∀ pid, Text.parseUint 64 a.name = some pid →
      Text.parseUint 64 b.name ≠ some pid := ⟨fun a b hab pid hb ha => hab pid ha hb⟩
  exact List.Pairwise.forall h ha hb hne pid hpa hpb

theorem processes_eq_some_iff (h : getProcessStats sorter c system = .ok (stats, c'))
    (hprocs : system.procs = some procs) :
    c'.processes pid = some proc ↔ ∃ entry ∈ procs, readEntry entry = some (pid, proc) := by
  rcases getProcessStats_eq_ok h with ⟨procs', hprocs', _, hprocesses, _⟩
  rw [hprocs] at hprocs'
  cases hprocs'
  have hnodup := (system.distinct procs hprocs).nodup_pids
  rw [hprocesses, storeAll_eq_some_iff hnodup, List.mem_filterMap]

theorem processes_eq_some_iff_parseStat {t : Task} (hprocs : system.procs = some procs)
    (hin : ⟨(toString t.pid).toList, some t.line⟩ ∈ procs)
    (h : getProcessStats sorter c system = .ok (stats, c')) :
    c'.processes t.pid = some proc ↔ parseStat t.line = some proc := by
  have hpid := Text.parseUint_toString t.pid_lt
  rw [processes_eq_some_iff h hprocs]
  constructor
  · intro hentry
    rcases hentry with ⟨entry, hmem, hread⟩
    rcases readEntry_eq_some.mp hread with ⟨hname, stat, hstat, hproc⟩
    have heq := (system.distinct procs hprocs).eq_of_pid hmem hin hname hpid
    subst heq
    cases hstat
    exact hproc
  · intro hproc
    exact ⟨_, hin, readEntry_eq_some.mpr ⟨hpid, _, rfl, hproc⟩⟩

/-- The line of a process is recorded under its name, with its state and its unsigned
numbers, exactly when the name has no `)` that a blank follows and the nice value is not
negative. -/
theorem getProcessStats_records_iff {sorter : Sorter Process Nat} {c c' : Controller}
    {system : System} {stats : ProcessStats} {procs : List Entry} (t : Task)
    (hprocs : system.procs = some procs)
    (hin : ⟨(toString t.pid).toList, some t.line⟩ ∈ procs)
    (h : getProcessStats sorter c system = .ok (stats, c')) :
    (∃ proc, c'.processes t.pid = some proc ∧ Recorded proc t) ↔
      ¬ [')', ' '] <:+: t.comm ∧ 0 ≤ t.field .nice := by
  simp only [processes_eq_some_iff_parseStat hprocs hin h]
  exact t.recorded_iff

/-- A call fails only where the counters or the directory cannot be read. -/
theorem exists_getProcessStats_eq_ok (sorter : Sorter Process Nat) (c : Controller)
    (hstat : (readStat system.stat).isSome = true) (hprocs : system.procs.isSome = true) :
    ∃ stats c', getProcessStats sorter c system = .ok (stats, c') := by
  unfold getProcessStats
  rcases Option.isSome_iff_exists.mp hstat with ⟨counters, hcounters⟩
  rcases Option.isSome_iff_exists.mp hprocs with ⟨procs, hentries⟩
  rw [hcounters, hentries]
  exact ⟨_, _, rfl⟩

def cpuSample : List Char := "cpu  1 2 3 4 5 6 7 8 9 10".toList

def taskSystem (t : Task) : System where
  stat := some cpuSample
  procs := some [⟨"self".toList, none⟩, ⟨(toString t.pid).toList, some t.line⟩]
  distinct := by
    intro procs hprocs
    cases hprocs
    rw [Distinct, List.pairwise_pair]
    intro pid hself
    have hnone : Text.parseUint 64 "self".toList = none := by decide
    rw [hnone] at hself
    cases hself

theorem mem_taskSystem (t : Task) :
    ⟨(toString t.pid).toList, some t.line⟩ ∈
      [⟨"self".toList, none⟩, (⟨(toString t.pid).toList, some t.line⟩ : Entry)] :=
  List.mem_cons_of_mem _ List.mem_cons_self

theorem exists_taskSystem_eq_ok (t : Task) :
    ∃ stats c', getProcessStats .insertion newController (taskSystem t) = .ok (stats, c') := by
  have hstat : (readStat (some cpuSample)).isSome = true := by decide +kernel
  exact exists_getProcessStats_eq_ok _ _ hstat rfl

def sleeper (comm : String) (nice : Int) (hcomm : '\n' ∉ comm.toList) (hnice : nice < 20) :
    Task where
  pid := 7
  comm := comm.toList
  state := 'S'
  field i :=
    if i = .ttyProcGroup then -1
    else if i = .priority then 20 + nice
    else if i = .nice then nice
    else 2
  beyond := [0, 0]
  pid_lt := by decide
  comm_line := hcomm
  state_word := by decide
  field_lt i := by
    split_ifs <;> omega
  field_nonneg i hi := by
    rw [StatPidField.Signed, not_or, not_or] at hi
    simp [hi.1, hi.2.1, hi.2.2]

def shell : Task := sleeper "sh (login)" 0 (by decide) (by decide)

theorem getProcessStats_records_shell :
    ∃ stats c', getProcessStats .insertion newController (taskSystem shell) = .ok (stats, c') ∧
      ∃ proc, c'.processes 7 = some proc ∧ Recorded proc shell := by
  rcases exists_taskSystem_eq_ok shell with ⟨stats, c', h⟩
  refine ⟨stats, c', h, ?_⟩
  exact (getProcessStats_records_iff shell rfl (mem_taskSystem shell) h).mpr
    (by decide +kernel)

theorem not_recorded_of_isNone {t : Task} (hnone : (parseStat t.line).isNone = true) :
    ∃ stats c', getProcessStats .insertion newController (taskSystem t) = .ok (stats, c') ∧
      ¬ ∃ proc, c'.processes t.pid = some proc := by
  rcases exists_taskSystem_eq_ok t with ⟨stats, c', h⟩
  refine ⟨stats, c', h, ?_⟩
  simp only [processes_eq_some_iff_parseStat rfl (mem_taskSystem t) h]
  intro hsome
  rcases hsome with ⟨proc, hproc⟩
  rw [hproc] at hnone
  cases hnone

def worker : Task := sleeper "kworker/0:0H" (-20) (by decide) (by decide)

def bracketed : Task := sleeper "a) b" 0 (by decide) (by decide)

/-- Neither a process with a negative nice value nor one with `) ` in its name is seen. -/
theorem worker_not_recorded :
    (∃ stats c', getProcessStats .insertion newController (taskSystem worker) = .ok (stats, c') ∧
      ¬ ∃ proc, c'.processes worker.pid = some proc) ∧
    ∃ stats c', getProcessStats .insertion newController (taskSystem bracketed) =
        .ok (stats, c') ∧
      ¬ ∃ proc, c'.processes bracketed.pid = some proc := by
  have hworker : (parseStat worker.line).isNone = true := by decide +kernel
  have hbracketed : (parseStat bracketed.line).isNone = true := by decide +kernel
  exact ⟨not_recorded_of_isNone hworker, not_recorded_of_isNone hbracketed⟩

end GhafGivc.Stats
