import GhafGivc.Core.Ranking
import GhafGivc.Stats.ProcStat

/-! # The busiest and the largest processes

`GetProcessStats` sorts the changed processes twice and takes five each time. The second
loop appends to the list of the first one.
-/

namespace GhafGivc.Stats

open Core

structure ProcessStat where
  name : List Char
  user : Float32
  sys : Float32
  resSetSize : UInt64

def percent (value djiffies : UInt64) : Float32 := value.toFloat32 * 100 / djiffies.toFloat32

def processStat (djiffies : UInt64) (proc : Process) : ProcessStat where
  name := proc.name
  user := percent (proc.values .userTime) djiffies
  sys := percent (proc.values .sysTime) djiffies
  resSetSize := proc.values .residentSetSize

/-- The sum may wrap. -/
def cpuTime (proc : Process) : Nat := (proc.values .userTime + proc.values .sysTime).toNat

def resSetSize (proc : Process) : Nat := (proc.values .residentSetSize).toNat

/-- `CpuProcesses` and `MemProcesses`, for the changed processes in the order of the
directory. -/
def rank (sorter : Sorter Process Nat) (djiffies : UInt64) (changes : List Process) :
    List ProcessStat × List ProcessStat :=
  let changes := sorter.sort cpuTime changes
  let cpuProcs := (changes.take (min 5 changes.length)).foldl
    (fun cpuProcs proc => cpuProcs ++ [processStat djiffies proc]) []
  let changes := sorter.sort resSetSize changes
  let memProcs := (changes.take (min 5 changes.length)).foldl
    (fun _ proc => cpuProcs ++ [processStat djiffies proc]) []
  (cpuProcs, memProcs)

/-- The list shows the five processes with the largest keys. -/
def Shows (key : Process → Nat) (djiffies : UInt64) (changes : List Process)
    (procs : List ProcessStat) : Prop :=
  ∃ top, IsTop 5 key changes top ∧ procs = top.map (processStat djiffies)

section Rank

variable {sorter : Sorter Process Nat} {djiffies : UInt64} {changes : List Process}

theorem rank_fst : (rank sorter djiffies changes).1 =
    ((sorter.sort cpuTime changes).take 5).map (processStat djiffies) := by
  unfold rank
  dsimp only
  rw [← List.take_eq_take_min, List.foldl_append_eq_append, List.nil_append, ← List.flatMap_def,
    ← List.map_eq_flatMap]

/-- Only the last round of the second loop leaves something, behind the first list. -/
theorem rank_snd : (rank sorter djiffies changes).2 =
    ((sorter.sort resSetSize (sorter.sort cpuTime changes)).take 5).getLast?.elim [] fun proc =>
      (rank sorter djiffies changes).1 ++ [processStat djiffies proc] := by
  unfold rank
  dsimp only
  rw [← List.take_eq_take_min (l := sorter.sort resSetSize (sorter.sort cpuTime changes))]
  rcases List.eq_nil_or_concat ((sorter.sort resSetSize (sorter.sort cpuTime changes)).take 5)
    with hnil | ⟨procs, last, hlast⟩
  · rw [hnil]
    rfl
  · rw [hlast, List.concat_eq_append, List.foldl_append, List.getLast?_concat]
    rfl

theorem shows_fst : Shows cpuTime djiffies changes (rank sorter djiffies changes).1 :=
  ⟨_, isTop_take (sorter.perm _ _) (sorter.sorted _ _), rank_fst⟩

/-- The sums order the processes as the numbers do, as long as none of them wraps. -/
theorem cpuTime_of_lt {proc : Process}
    (h : (proc.values .userTime).toNat + (proc.values .sysTime).toNat < 2 ^ 64) :
    cpuTime proc = (proc.values .userTime).toNat + (proc.values .sysTime).toNat := by
  rw [cpuTime, UInt64.toNat_add, Nat.mod_eq_of_lt h]

theorem Shows.length_eq {key : Process → Nat} {procs : List ProcessStat}
    (h : Shows key djiffies changes procs) : procs.length = min 5 changes.length := by
  rcases h with ⟨top, htop, hprocs⟩
  rw [hprocs, List.length_map, htop.count]

theorem length_rank_snd (h : changes ≠ []) :
    (rank sorter djiffies changes).2.length = min 5 changes.length + 1 := by
  have hlen : (sorter.sort resSetSize (sorter.sort cpuTime changes)).length = changes.length := by
    rw [(sorter.perm _ _).length_eq, (sorter.perm _ _).length_eq]
  have hpos : 0 < changes.length := List.length_pos_of_ne_nil h
  have hne : (sorter.sort resSetSize (sorter.sort cpuTime changes)).take 5 ≠ [] := by
    apply List.ne_nil_of_length_pos
    rw [List.length_take, hlen]
    omega
  rw [rank_snd, List.getLast?_eq_some_getLast hne, Option.elim_some, List.length_append,
    shows_fst.length_eq, List.length_singleton]

end Rank

/-- The first list is a top list by the sum of the two times, as the code computes it, and by
the sum itself where none of them wraps. The second list is a top list only for no change at
all. -/
theorem rank_shows_iff (sorter : Sorter Process Nat) (djiffies : UInt64)
    (changes : List Process) :
    Shows cpuTime djiffies changes (rank sorter djiffies changes).1 ∧
    ((∀ proc ∈ changes,
        (proc.values .userTime).toNat + (proc.values .sysTime).toNat < 2 ^ 64) →
      Shows (fun proc => (proc.values .userTime).toNat + (proc.values .sysTime).toNat) djiffies
        changes (rank sorter djiffies changes).1) ∧
    (Shows resSetSize djiffies changes (rank sorter djiffies changes).2 ↔ changes = []) := by
  have hfst : Shows cpuTime djiffies changes (rank sorter djiffies changes).1 := shows_fst
  refine ⟨hfst, ?_, ?_⟩
  · intro hlt
    rcases hfst with ⟨top, htop, hprocs⟩
    refine ⟨top, htop.of_le_imp_le ?_, hprocs⟩
    intro a ha b hb hle
    rwa [cpuTime_of_lt (hlt a ha), cpuTime_of_lt (hlt b hb)] at hle
  · constructor
    · intro hshows
      by_contra hne
      have hlen := hshows.length_eq
      rw [length_rank_snd hne] at hlen
      omega
    · intro hnil
      subst hnil
      refine ⟨[], ⟨rfl, .nil, [], .refl _, by simp⟩, ?_⟩
      rw [rank_snd, (sorter.perm _ _).trans (sorter.perm _ _) |>.eq_nil]
      rfl

def busy : Process where
  name := ['s', 'h']
  state := ['R']
  values i := if i = .userTime ∨ i = .residentSetSize then 1 else 0

/-- The only changed process is shown twice. -/
theorem busy_shown_twice :
    (rank .insertion 100 [busy]).2 = [processStat 100 busy, processStat 100 busy] ∧
    ¬ Shows resSetSize 100 [busy] (rank .insertion 100 [busy]).2 := by
  refine ⟨rfl, fun hshows => ?_⟩
  have hlen : (2 : Nat) = 1 := hshows.length_eq
  cases hlen

end GhafGivc.Stats
