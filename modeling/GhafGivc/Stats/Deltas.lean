import GhafGivc.Stats.Controller
import Mathlib.Algebra.Order.BigOperators.Group.List
import Mathlib.Data.List.Induction

/-! # Differences between calls

The counters of the system and the times of one process only grow. The controller finds the
last record of a process by its pid alone, so a difference is that of one process only as
long as no pid has been given to another process in between.
-/

namespace GhafGivc.Stats

open Core Core.Delimited

/-- The counters and the processes at the time of a call. The name that a program gives itself
has at most 15 bytes, of which each is printed as one or two characters; the kernel gives no
name with an end in it. -/
structure Sample where
  counters : StatField → Nat
  tasks : List Task
  counters_lt : (StatField.all.map counters).sum < 2 ^ 64
  times_lt : ∀ t ∈ tasks, t.field .userTime + t.field .sysTime < 2 ^ 64
  pids : (tasks.map Task.pid).Nodup
  states : ∀ t ∈ tasks, t.state.isAlpha = true
  comms : ∀ t ∈ tasks, [')', ' '] <:+: t.comm → t.comm.length ≤ 30

def Sample.jiffies (s : Sample) : Nat := (StatField.all.map s.counters).sum

def Sample.cpuLine (s : Sample) : List Char :=
  ['c', 'p', 'u', ' ', ' '] ++
    [' '].intercalate (StatField.all.map fun i => (toString (s.counters i)).toList)

/-- What the kernel guarantees of a later sample. A process is known by its pid and its start
time; a pid may be reused. -/
structure Later (s s' : Sample) : Prop where
  counters : ∀ i, s.counters i ≤ s'.counters i
  times : ∀ t ∈ s.tasks, ∀ t' ∈ s'.tasks, t.pid = t'.pid →
    t.field .startTime = t'.field .startTime → ∀ i ∈ times, t.field i ≤ t'.field i
  started : ∀ t ∈ s.tasks, ∀ t' ∈ s'.tasks, t.pid = t'.pid →
    t.field .startTime ≤ t'.field .startTime

/-- A call reads from a sample, though not every file must be readable. -/
structure Call where
  system : System
  sample : Sample
  stat : ∀ line ∈ system.stat, line = sample.cpuLine
  procs : ∀ entries ∈ system.procs, ∀ entry ∈ entries, ∀ pid,
    Text.parseUint 64 entry.name = some pid → ∀ text ∈ entry.stat,
      ∃ t ∈ sample.tasks, t.pid = pid ∧ text = t.line

namespace Call

def Succeeds (call : Call) : Bool := call.system.stat.isSome && call.system.procs.isSome

/-- The call sees the process with this pid. -/
def Records (call : Call) (pid : Nat) (proc : Process) : Prop :=
  ∃ procs, call.system.procs = some procs ∧ ∃ entry ∈ procs, readEntry entry = some (pid, proc)

/-- Two calls see different processes under one pid. -/
def Reused (last call : Call) : Prop :=
  ∃ t ∈ last.sample.tasks, ∃ t' ∈ call.sample.tasks, t.pid = t'.pid ∧
    t.field .startTime ≠ t'.field .startTime ∧
    (∃ proc, last.Records t.pid proc) ∧ ∃ proc, call.Records t'.pid proc

end Call

/-- The last call that did not fail. -/
def previous (calls : List Call) : Option Call := (calls.filter Call.Succeeds).getLast?

/-- The controller after a sequence of calls; a call that fails leaves it as it was. -/
def controllerAfter (sorter : Sorter Process Nat) (calls : List Call) : Controller :=
  calls.foldl (fun c call =>
    match getProcessStats sorter c call.system with
    | .ok (_, c') => c'
    | .error _ => c) newController

/-- The differences of a call are at most the counters they come from, the processes that are
sorted and reported are the recorded ones whose pid the controller has, and each of them is one
that the last call has seen, with the difference to its own times. -/
structure Exact (sorter : Sorter Process Nat) (c : Controller) (last : Option Call) (call : Call)
    (stats : ProcessStats) : Prop where
  user : stats.userCycles.toNat ≤ call.sample.counters .userTime
  sys : stats.sysCycles.toNat ≤ call.sample.counters .systemTime
  total : stats.totalCycles.toNat ≤ call.sample.jiffies
  sorted : ∃ changes, (stats.cpuProcesses, stats.memProcesses) =
      rank sorter stats.totalCycles changes ∧
    ∀ change, change ∈ changes ↔
      ∃ pid proc, call.Records pid proc ∧ changeOf c.processes pid proc = some change
  changes : ∀ pid proc change, call.Records pid proc →
    changeOf c.processes pid proc = some change →
    ∃ t ∈ call.sample.tasks, t.pid = pid ∧
      (∀ i ∈ times, ((change.values i).toNat : Int) ≤ t.field i) ∧
      (cpuTime change : Int) ≤ t.field .userTime + t.field .sysTime ∧
      ∃ seen, last = some seen ∧ ∃ t' ∈ seen.sample.tasks, t'.pid = pid ∧
        t'.field .startTime = t.field .startTime ∧
        ∀ i ∈ times, ((change.values i).toNat : Int) + t'.field i = t.field i

/-! ## Reading a sample -/

theorem readTotals_printed {f : StatField → Nat} (hf : ∀ i, f i < 2 ^ 64)
    (is : List StatField) (jiffies : UInt64) (totals : Totals) :
    readTotals is (is.map fun i => (toString (f i)).toList) (jiffies, totals) =
      some (jiffies + UInt64.ofNat (is.map f).sum,
        fun i => if i ∈ is then UInt64.ofNat (f i) else totals i) := by
  induction is generalizing jiffies totals with
  | nil => simp [readTotals]
  | cons i is ih =>
      rw [List.map_cons, readTotals, Text.parseUint_toString (hf i)]
      dsimp only
      rw [ih, List.map_cons, List.sum_cons, UInt64.ofNat_add, UInt64.add_assoc]
      congr 2
      funext j
      by_cases hj : j = i
      · subst hj
        simp
      · simp [hj]

namespace Sample

variable (s : Sample)

theorem counter_lt (i : StatField) : s.counters i < 2 ^ 64 := by
  have hin := List.mem_map_of_mem (f := s.counters) (StatField.mem_all i)
  exact (List.le_sum_of_mem hin).trans_lt s.counters_lt

theorem readStat_cpuLine :
    readStat (some s.cpuLine) =
      some (UInt64.ofNat s.jiffies, fun i => UInt64.ofNat (s.counters i)) := by
  have hsplit : splitOnce ' ' s.cpuLine = some (['c', 'p', 'u'],
      ' ' :: [' '].intercalate (StatField.all.map fun i => (toString (s.counters i)).toList)) :=
    splitOnce_eq_some.mpr ⟨rfl, by decide⟩
  have hwords : Text.splitWhitespace
      (' ' :: [' '].intercalate (StatField.all.map fun i => (toString (s.counters i)).toList)) =
      StatField.all.map fun i => (toString (s.counters i)).toList := by
    rw [Text.splitWhitespace_cons (by decide)]
    apply Text.splitWhitespace_intercalate
    intro w hw
    rcases List.mem_map.mp hw with ⟨i, _, hi⟩
    subst hi
    exact Text.toString_int_word (s.counters i)
  unfold readStat
  simp only [Option.bind_eq_bind, Option.bind_some, hsplit, hwords]
  rw [readTotals_printed s.counter_lt]
  simp [StatField.mem_all, jiffies]

end Sample

theorem Later.jiffies {s s' : Sample} (h : Later s s') : s.jiffies ≤ s'.jiffies :=
  List.sum_le_sum fun i _ => h.counters i

/-- The controller holds what the call has read. -/
structure Keeps (c : Controller) (call : Call) : Prop where
  jiffies : c.jiffies.toNat = call.sample.jiffies
  totals : ∀ i, (c.totals i).toNat = call.sample.counters i
  processes : ∀ pid proc, c.processes pid = some proc ↔ call.Records pid proc

section Step

variable {sorter : Sorter Process Nat} {c c' : Controller} {call : Call} {stats : ProcessStats}

theorem Call.records_iff {procs : List Entry} (hprocs : call.system.procs = some procs)
    {pid : Nat} {proc : Process} :
    call.Records pid proc ↔ ∃ entry ∈ procs, readEntry entry = some (pid, proc) := by
  constructor
  · intro h
    rcases h with ⟨procs', hprocs', hentry⟩
    rw [hprocs] at hprocs'
    cases hprocs'
    exact hentry
  · intro hentry
    exact ⟨procs, hprocs, hentry⟩

theorem Call.stat_of_readStat {counters : UInt64 × Totals}
    (h : readStat call.system.stat = some counters) :
    call.system.stat = some call.sample.cpuLine := by
  cases hline : call.system.stat with
  | none =>
      rw [hline] at h
      cases h
  | some line => rw [call.stat line hline]

theorem Call.succeeds_iff :
    call.Succeeds = true ↔ ∃ stats c', getProcessStats sorter c call.system = .ok (stats, c') := by
  rw [Succeeds, Bool.and_eq_true]
  constructor
  · intro h
    rcases Option.isSome_iff_exists.mp h.1 with ⟨line, hline⟩
    apply exists_getProcessStats_eq_ok _ _ _ h.2
    rw [hline, call.stat line hline, call.sample.readStat_cpuLine]
    rfl
  · intro h
    rcases h with ⟨stats, c', h⟩
    rcases getProcessStats_eq_ok h with ⟨procs, hprocs, hstat, _⟩
    rw [hprocs, stat_of_readStat hstat]
    exact ⟨rfl, rfl⟩

theorem keeps_of_ok (h : getProcessStats sorter c call.system = .ok (stats, c')) :
    Keeps c' call := by
  rcases getProcessStats_eq_ok h with ⟨procs, hprocs, hstat, _⟩
  rw [Call.stat_of_readStat hstat, call.sample.readStat_cpuLine, Option.some.injEq,
    Prod.mk.injEq] at hstat
  constructor
  · rw [← hstat.1]
    exact UInt64.toNat_ofNat_of_lt' call.sample.counters_lt
  · intro i
    rw [← hstat.2]
    exact UInt64.toNat_ofNat_of_lt' (call.sample.counter_lt i)
  · intro pid proc
    rw [processes_eq_some_iff h hprocs, Call.records_iff hprocs]

end Step

/-- After a sequence of calls the controller holds what the last of them that did not fail has
read. -/
theorem controllerAfter_spec (sorter : Sorter Process Nat) (calls : List Call) :
    (previous calls = none ∧ controllerAfter sorter calls = newController) ∨
      ∃ last, previous calls = some last ∧ Keeps (controllerAfter sorter calls) last := by
  induction calls using List.reverseRecOn with
  | nil => exact .inl ⟨rfl, rfl⟩
  | append_singleton calls call ih =>
      have hprevious : previous (calls ++ [call]) =
          if call.Succeeds then some call else previous calls := by
        unfold previous
        rw [List.filter_append]
        by_cases hok : call.Succeeds = true
        · simp [hok]
        · simp [hok]
      have hafter : controllerAfter sorter (calls ++ [call]) =
          match getProcessStats sorter (controllerAfter sorter calls) call.system with
          | .ok (_, c') => c'
          | .error _ => controllerAfter sorter calls := by
        unfold controllerAfter
        rw [List.foldl_append]
        rfl
      rw [hprevious, hafter]
      cases hcall : getProcessStats sorter (controllerAfter sorter calls) call.system with
      | ok result =>
          rcases result with ⟨stats, c'⟩
          rw [if_pos (Call.succeeds_iff.mpr ⟨stats, c', hcall⟩)]
          exact .inr ⟨call, rfl, keeps_of_ok hcall⟩
      | error e =>
          have hfails : ¬ call.Succeeds = true := by
            intro hok
            rcases Call.succeeds_iff.mp hok with ⟨stats, c', h⟩
            rw [hcall] at h
            cases h
          rw [if_neg hfails]
          exact ih

theorem mem_of_previous {calls : List Call} {last : Call} (h : previous calls = some last) :
    last ∈ calls :=
  (List.mem_filter.mp (List.mem_of_getLast? h)).1

/-! ## The differences of one call -/

theorem not_signed_of_mem_times : ∀ i ∈ times, ¬ i.Signed := by
  decide

theorem Task.toNat_values_sub {t t' : Task} {i : StatPidField} (hi : i ∈ times)
    (hle : t'.field i ≤ t.field i) :
    ((t.values i - t'.values i).toNat : Int) = t.field i - t'.field i := by
  have hnew := t.toNat_values (not_signed_of_mem_times i hi)
  have hold := t'.toNat_values (not_signed_of_mem_times i hi)
  have hvalues : t'.values i ≤ t.values i := by
    rw [UInt64.le_iff_toNat_le]
    omega
  rw [UInt64.toNat_sub_of_le _ _ hvalues]
  omega

variable {call : Call}

theorem Call.Records.exists_line {pid : Nat} {proc : Process} (h : call.Records pid proc) :
    ∃ t ∈ call.sample.tasks, t.pid = pid ∧ parseStat t.line = some proc := by
  rcases h with ⟨procs, hprocs, entry, hentry, hread⟩
  rcases readEntry_eq_some.mp hread with ⟨hname, text, htext, hproc⟩
  rcases call.procs procs hprocs entry hentry pid hname text htext with ⟨t, ht, hpid, hline⟩
  exact ⟨t, ht, hpid, hline ▸ hproc⟩

theorem Call.Records.exists_task {pid : Nat} {proc : Process} (h : call.Records pid proc) :
    ∃ t ∈ call.sample.tasks, t.pid = pid ∧ proc.values = t.values := by
  rcases h.exists_line with ⟨t, ht, hpid, hproc⟩
  refine ⟨t, ht, hpid, ?_⟩
  have hcomm : ¬ [')', ' '] <:+: t.comm := by
    intro hinfix
    have hshort := call.sample.comms t ht hinfix
    exact t.not_infix_of_parseStat (call.sample.states t ht) (by omega) hproc hinfix
  rw [t.parseStat_line hcomm] at hproc
  split at hproc
  · cases hproc
    rfl
  · cases hproc

theorem changeOf_eq_some {processes : Nat → Option Process} {pid : Nat} {proc change : Process}
    (h : changeOf processes pid proc = some change) :
    ∃ prev, processes pid = some prev ∧
      ∀ i ∈ times, change.values i = proc.values i - prev.values i := by
  rcases Option.map_eq_some_iff.mp h with ⟨prev, hprev, hchange⟩
  subst hchange
  exact ⟨prev, hprev, fun i hi => if_pos hi⟩

/-- The processes that a call sorts and reports are those of its records that the controller
has a pid for. -/
theorem mem_changes_iff {c : Controller} {procs : List Entry}
    (hprocs : call.system.procs = some procs) {change : Process} :
    change ∈ (procs.foldl (visit c.processes) (fun _ => none, [])).2 ↔
      ∃ pid proc, call.Records pid proc ∧ changeOf c.processes pid proc = some change := by
  rw [foldl_visit, List.nil_append, List.mem_filterMap]
  simp only [Call.records_iff hprocs, List.mem_filterMap, Prod.exists]

/-- The sum of two differences is at most the sum of the times they come from. -/
theorem cpuTime_le {change : Process} {t : Task}
    (h : ∀ i ∈ times, ((change.values i).toNat : Int) ≤ t.field i) :
    (cpuTime change : Int) ≤ t.field .userTime + t.field .sysTime := by
  have huser := h .userTime (by decide)
  have hsys := h .sysTime (by decide)
  have hsum : cpuTime change ≤
      (change.values .userTime).toNat + (change.values .sysTime).toNat := by
    rw [cpuTime, UInt64.toNat_add]
    exact Nat.mod_le _ _
  omega

section Differences

variable {sorter : Sorter Process Nat} {c c' : Controller} {last call : Call}
  {stats : ProcessStats}

theorem exists_changes (h : getProcessStats sorter c call.system = .ok (stats, c')) :
    ∃ changes, (stats.cpuProcesses, stats.memProcesses) = rank sorter stats.totalCycles changes ∧
      ∀ change, change ∈ changes ↔
        ∃ pid proc, call.Records pid proc ∧ changeOf c.processes pid proc = some change := by
  unfold getProcessStats at h
  split at h
  · cases h
  · split at h
    · cases h
    · rename_i procs hprocs
      cases h
      exact ⟨_, rfl, fun change => mem_changes_iff hprocs⟩

/-- Counters that have not fallen give differences that do not wrap. -/
theorem cycles_le (h : getProcessStats sorter c call.system = .ok (stats, c'))
    (hjiffies : c.jiffies.toNat ≤ call.sample.jiffies)
    (htotals : ∀ i, (c.totals i).toNat ≤ call.sample.counters i) :
    stats.userCycles.toNat ≤ call.sample.counters .userTime ∧
    stats.sysCycles.toNat ≤ call.sample.counters .systemTime ∧
    stats.totalCycles.toNat ≤ call.sample.jiffies := by
  rcases getProcessStats_eq_ok h with ⟨_, _, _, _, huser, hsys, htotal⟩
  have hkeeps := keeps_of_ok h
  have hsub : ∀ i, (c'.totals i - c.totals i).toNat ≤ call.sample.counters i := by
    intro i
    have hle : c.totals i ≤ c'.totals i := by
      rw [UInt64.le_iff_toNat_le, hkeeps.totals]
      exact htotals i
    rw [UInt64.toNat_sub_of_le _ _ hle, hkeeps.totals]
    exact Nat.sub_le _ _
  have hle : c.jiffies ≤ c'.jiffies := by
    rw [UInt64.le_iff_toNat_le, hkeeps.jiffies]
    exact hjiffies
  rw [huser, hsys, htotal, UInt64.toNat_sub_of_le _ _ hle, hkeeps.jiffies]
  exact ⟨hsub .userTime, hsub .systemTime, Nat.sub_le _ _⟩

theorem exact_first (h : getProcessStats sorter newController call.system = .ok (stats, c')) :
    Exact sorter newController none call stats := by
  rcases cycles_le h (Nat.zero_le _) (fun _ => Nat.zero_le _) with ⟨huser, hsys, htotal⟩
  refine ⟨huser, hsys, htotal, exists_changes h, ?_⟩
  intro pid proc change _ hchange
  cases hchange

/-- A call whose last one kept the pids of its processes. -/
theorem exact_of_not_reused (hkeeps : Keeps c last) (hlater : Later last.sample call.sample)
    (hnot : ¬ last.Reused call)
    (h : getProcessStats sorter c call.system = .ok (stats, c')) :
    Exact sorter c (some last) call stats := by
  have hcycles : _ ∧ _ ∧ _ := cycles_le h (hkeeps.jiffies ▸ hlater.jiffies)
    (fun i => hkeeps.totals i ▸ hlater.counters i)
  refine ⟨hcycles.1, hcycles.2.1, hcycles.2.2, exists_changes h, ?_⟩
  intro pid proc change hrecords hchange
  rcases changeOf_eq_some hchange with ⟨prev, hprev, hvalues⟩
  have hseen := (hkeeps.processes pid prev).mp hprev
  rcases hrecords.exists_task with ⟨t, ht, hpid, hproc⟩
  rcases hseen.exists_task with ⟨t', ht', hpid', hprev'⟩
  have hstart : t'.field .startTime = t.field .startTime := by
    by_contra hne
    exact hnot ⟨t', ht', t, ht, hpid'.trans hpid.symm, hne, ⟨prev, hpid' ▸ hseen⟩,
      proc, hpid ▸ hrecords⟩
  have hgrown := hlater.times t' ht' t ht (hpid'.trans hpid.symm) hstart
  have hdelta : ∀ i ∈ times, ((change.values i).toNat : Int) = t.field i - t'.field i := by
    intro i hi
    rw [hvalues i hi, hproc, hprev']
    exact Task.toNat_values_sub hi (hgrown i hi)
  have hle : ∀ i ∈ times, ((change.values i).toNat : Int) ≤ t.field i := by
    intro i hi
    have hold := t'.field_nonneg i (not_signed_of_mem_times i hi)
    rw [hdelta i hi]
    omega
  refine ⟨t, ht, hpid, hle, cpuTime_le hle, last, rfl, t', ht', hpid', hstart, ?_⟩
  intro i hi
  rw [hdelta i hi]
  omega

theorem Sample.task_eq {s : Sample} {t t' : Task} (ht : t ∈ s.tasks) (ht' : t' ∈ s.tasks)
    (hpid : t.pid = t'.pid) : t = t' :=
  List.inj_on_of_nodup_map s.pids ht ht' hpid

/-- A difference to the times of another process gives a reused pid away. -/
theorem not_reused_of_exact (hkeeps : Keeps c last)
    (h : Exact sorter c (some last) call stats) :
    ¬ last.Reused call := by
  intro hreused
  rcases hreused with ⟨t', ht', t, ht, hpid, hne, ⟨prev, hprev⟩, proc, hproc⟩
  rw [hpid] at hprev
  have hsome : ∃ change, changeOf c.processes t.pid proc = some change := by
    rw [changeOf, (hkeeps.processes _ _).mpr hprev]
    exact ⟨_, rfl⟩
  rcases hsome with ⟨change, hchange⟩
  rcases h.changes _ _ _ hproc hchange with
    ⟨u, hu, hupid, _, _, seen, hseen, u', hu', hupid', hstart, _⟩
  cases hseen
  have heq := Sample.task_eq hu ht hupid
  have heq' := Sample.task_eq hu' ht' (hupid'.trans hpid.symm)
  subst heq heq'
  exact hne hstart

end Differences

/-- Over a whole sequence of calls the differences are exact if and only if no pid is reused
between one call that did not fail and the next. -/
theorem exact_iff_not_reused (sorter : Sorter Process Nat) (calls : List Call)
    (hlater : (calls.map Call.sample).Pairwise Later) :
    (∀ before call, before ++ [call] <+: calls → ∀ stats c',
      getProcessStats sorter (controllerAfter sorter before) call.system = .ok (stats, c') →
      Exact sorter (controllerAfter sorter before) (previous before) call stats) ↔
    ∀ before call, before ++ [call] <+: calls → call.Succeeds = true →
      ∀ last ∈ previous before, ¬ last.Reused call := by
  constructor
  · intro hexact before call hcalls hok last hlast
    rcases Call.succeeds_iff.mp hok with ⟨stats, c', h⟩
    have hcall := hexact before call hcalls stats c' h
    rcases controllerAfter_spec sorter before with ⟨hnone, _⟩ | ⟨last', hprevious, hkeeps⟩
    · rw [hnone] at hlast
      cases hlast
    · rw [hprevious] at hlast hcall
      cases hlast
      exact not_reused_of_exact hkeeps hcall
  · intro hnot before call hcalls stats c' h
    rcases controllerAfter_spec sorter before with ⟨hnone, hnew⟩ | ⟨last, hprevious, hkeeps⟩
    · rw [hnew] at h
      rw [hnone, hnew]
      exact exact_first h
    · have hok := Call.succeeds_iff.mpr ⟨stats, c', h⟩
      have hin := mem_of_previous hprevious
      have hpair : Later last.sample call.sample := by
        have hsub := hlater.sublist (hcalls.sublist.map Call.sample)
        rw [List.map_append, List.pairwise_append] at hsub
        exact hsub.2.2 _ (List.mem_map_of_mem hin) _ (by simp)
      rw [hprevious]
      exact exact_of_not_reused hkeeps hpair (hnot before call hcalls hok last hprevious) h

def spinner (start user : UInt32) : Task where
  pid := 42
  comm := ['s', 'h']
  state := 'R'
  field i := if i = .startTime then start.toNat else if i = .userTime then user.toNat else 0
  beyond := []
  pid_lt := by decide
  comm_line := by decide
  state_word := by decide
  field_lt i := by
    have hstart := start.toNat_lt
    have huser := user.toNat_lt
    split_ifs <;> omega
  field_nonneg i _ := by
    split_ifs <;> omega

def sampleCounters : StatField → Nat
  | .userTime => 1
  | .niceTime => 2
  | .systemTime => 3
  | .idleTime => 4
  | .ioWaitTime => 5
  | .irq => 6
  | .softIrq => 7
  | .steal => 8
  | .guest => 9
  | .guestNice => 10

def taskSample (t : Task) (htimes : t.field .userTime + t.field .sysTime < 2 ^ 64)
    (hstate : t.state.isAlpha = true) (hcomm : ¬ [')', ' '] <:+: t.comm) : Sample where
  counters := sampleCounters
  tasks := [t]
  counters_lt := by decide
  times_lt := by simpa using htimes
  pids := by simp
  states := by simpa using hstate
  comms := by simpa using fun hinfix => absurd hinfix hcomm

theorem cpuSample_eq : cpuSample = ['c', 'p', 'u', ' ', ' '] ++
    [' '].intercalate (StatField.all.map fun i => (toString (sampleCounters i)).toList) := by
  decide +kernel

def spinnerCall (start user : UInt32) : Call where
  system := taskSystem (spinner start user)
  sample := taskSample (spinner start user) (by
    have huser := user.toNat_lt
    simp only [spinner, reduceCtorEq, if_false, if_true]
    omega) (show 'R'.isAlpha = true by decide) (show ¬ [')', ' '] <:+: ['s', 'h'] by decide)
  stat line hline := by
    cases hline
    exact cpuSample_eq
  procs entries hentries entry hentry pid hpid text htext := by
    cases hentries
    simp only [List.mem_cons, List.not_mem_nil, or_false] at hentry
    rcases hentry with hself | hspinner
    · subst hself
      cases htext
    · subst hspinner
      cases htext
      rw [Text.parseUint_toString (spinner start user).pid_lt] at hpid
      cases hpid
      exact ⟨_, List.mem_singleton_self _, rfl, rfl⟩

theorem parseStat_spinner (start user : UInt32) :
    parseStat (spinner start user).line =
      some ⟨['s', 'h'], ['R'], (spinner start user).values⟩ := by
  have hcomm : ¬ [')', ' '] <:+: ['s', 'h'] := by decide
  rw [Task.parseStat_line _ hcomm]
  rfl

theorem startTime_spinner (start user : UInt32) :
    (spinner start user).field .startTime = start.toNat := rfl

theorem later_spinnerCall {start start' user user' : UInt32} (hstart : start ≤ start')
    (huser : start = start' → user ≤ user') :
    ([spinnerCall start user, spinnerCall start' user'].map Call.sample).Pairwise Later := by
  rw [List.map_cons, List.map_cons, List.map_nil, List.pairwise_pair]
  constructor
  · intro i
    exact le_rfl
  · intro t ht t' ht' _ heq i _
    cases List.mem_singleton.mp ht
    cases List.mem_singleton.mp ht'
    rw [startTime_spinner, startTime_spinner, Int.ofNat_inj, UInt32.toNat_inj] at heq
    have hle := UInt32.le_iff_toNat_le.mp (huser heq)
    subst heq
    simp only [spinner]
    split_ifs <;> omega
  · intro t ht t' ht' _
    cases List.mem_singleton.mp ht
    cases List.mem_singleton.mp ht'
    rw [startTime_spinner, startTime_spinner, Int.ofNat_le]
    exact UInt32.le_iff_toNat_le.mp hstart

theorem not_reused_spinnerCall (start user user' : UInt32) :
    ¬ (spinnerCall start user).Reused (spinnerCall start user') := by
  intro hreused
  rcases hreused with ⟨t, ht, t', ht', _, hne, _⟩
  cases List.mem_singleton.mp ht
  cases List.mem_singleton.mp ht'
  exact hne rfl

theorem records_spinnerCall (start user : UInt32) :
    (spinnerCall start user).Records 42 ⟨['s', 'h'], ['R'], (spinner start user).values⟩ := by
  refine ⟨_, rfl, _, mem_taskSystem _, readEntry_eq_some.mpr ⟨?_, _, rfl, ?_⟩⟩
  · exact Text.parseUint_toString (spinner start user).pid_lt
  · exact parseStat_spinner start user

theorem processes_spinnerCall (start user : UInt32) :
    (controllerAfter .insertion [spinnerCall start user]).processes 42 =
      some ⟨['s', 'h'], ['R'], (spinner start user).values⟩ := by
  rcases controllerAfter_spec .insertion [spinnerCall start user] with
    ⟨hnone, _⟩ | ⟨last, hprevious, hkeeps⟩
  · cases hnone
  · cases hprevious
    exact (hkeeps.processes 42 _).mpr (records_spinnerCall start user)

/-- One process in two calls. -/
theorem exact_spinnerCall :
    ([spinnerCall 10 100, spinnerCall 10 130].map Call.sample).Pairwise Later ∧
    ∀ before call, before ++ [call] <+: [spinnerCall 10 100, spinnerCall 10 130] → ∀ stats c',
      getProcessStats .insertion (controllerAfter .insertion before) call.system =
        .ok (stats, c') →
      Exact .insertion (controllerAfter .insertion before) (previous before) call stats := by
  have hlater : ([spinnerCall 10 100, spinnerCall 10 130].map Call.sample).Pairwise Later :=
    later_spinnerCall (by decide) fun _ => by decide
  have hsame : ∀ call ∈ [spinnerCall 10 100, spinnerCall 10 130],
      ∃ user, call = spinnerCall 10 user := by
    rw [List.forall_mem_cons, List.forall_mem_singleton]
    exact ⟨⟨_, rfl⟩, _, rfl⟩
  refine ⟨hlater, (exact_iff_not_reused .insertion _ hlater).mpr ?_⟩
  intro before call hcalls _ last hlast
  have hin := List.mem_append_left [call] (mem_of_previous hlast)
  rcases hsame last (hcalls.subset hin) with ⟨user, huser⟩
  rcases hsame call (hcalls.subset (by simp)) with ⟨user', huser'⟩
  rw [huser, huser']
  exact not_reused_spinnerCall 10 user user'

/-- The process of the second call has the pid of the first one and has used less time. Its
difference wraps, and it would be the busiest process. -/
theorem reused_pid_wraps :
    ([spinnerCall 10 100, spinnerCall 50 1].map Call.sample).Pairwise Later ∧
    (spinner 50 1).field .userTime = 1 ∧
    ∃ proc change, (spinnerCall 50 1).Records 42 proc ∧
      changeOf (controllerAfter .insertion [spinnerCall 10 100]).processes 42 proc = some change ∧
      (change.values .userTime).toNat = 2 ^ 64 - 99 := by
  have hchange : ∃ change, changeOf (controllerAfter .insertion [spinnerCall 10 100]).processes 42
      ⟨['s', 'h'], ['R'], (spinner 50 1).values⟩ = some change ∧
      (change.values .userTime).toNat = 2 ^ 64 - 99 := by
    rw [changeOf, processes_spinnerCall]
    exact ⟨_, rfl, by decide +kernel⟩
  rcases hchange with ⟨change, hchange, hwraps⟩
  refine ⟨?_, rfl, _, change, records_spinnerCall 50 1, hchange, hwraps⟩
  exact later_spinnerCall (by decide) fun h => absurd h (by decide)

end GhafGivc.Stats
