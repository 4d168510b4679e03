import GhafGivc.Core.Text
import Mathlib.Logic.Function.Basic

/-! # The status line of a process

`GetProcessStats` reads the line that the kernel prints to `/proc/<pid>/stat`. The name of
the process stands in parentheses and may hold any text. The numbers after it are read as
unsigned, except for two that are skipped.
-/

namespace GhafGivc.Stats

open Core Core.Delimited

/-- The numbers after the state of a process, in their order. -/
inductive StatPidField where
  | parentPid
  | processGroup
  | sessionId
  | ttyNumber
  | ttyProcGroup
  | flags
  | minorFaults
  | childMinorFaults
  | majorFaults
  | childMajorFaults
  | userTime
  | sysTime
  | childUserTime
  | childSysTime
  | priority
  | nice
  | numThreads
  | jiffiesToAlrm
  | startTime
  | vmSize
  | residentSetSize
deriving DecidableEq

namespace StatPidField

def all : List StatPidField :=
  [parentPid, processGroup, sessionId, ttyNumber, ttyProcGroup, flags, minorFaults,
    childMinorFaults, majorFaults, childMajorFaults, userTime, sysTime, childUserTime,
    childSysTime, priority, nice, numThreads, jiffiesToAlrm, startTime, vmSize, residentSetSize]

theorem mem_all (i : StatPidField) : i ∈ all := by
  cases i <;> decide

/-- The numbers that the kernel prints with a sign. -/
def Signed (i : StatPidField) : Prop := i = ttyProcGroup ∨ i = priority ∨ i = nice

instance (i : StatPidField) : Decidable i.Signed :=
  inferInstanceAs (Decidable (_ ∨ _))

end StatPidField

abbrev Values := StatPidField → UInt64

structure Process where
  name : List Char
  state : List Char
  values : Values

/-- The loop over the numbers. It stops after the resident set size; a number that is not
unsigned and a line that ends too early both skip the process. -/
def readFields : List StatPidField → List (List Char) → Values → Option Values
  | [], _, intfields => some intfields
  | _ :: _, [], _ => none
  | i :: is, field :: fields, intfields =>
      if i ≠ .ttyProcGroup ∧ i ≠ .priority then
        match Text.parseUint 64 field with
        | none => none
        | some val => readFields is fields (Function.update intfields i (UInt64.ofNat val))
      else readFields is fields intfields

def parseStat (stat : List Char) : Option Process := do
  let (_, namerest) ← splitOnce '(' stat
  let (name, staterest) ← namerest.dropInfix? [')', ' ']
  -- without a blank, all of the text is the state
  let (state, rest) := (splitOnce ' ' staterest).getD (staterest, [])
  let intfields ← readFields StatPidField.all (Text.splitWhitespace rest) fun _ => 0
  return ⟨name, state, intfields⟩

/-! ## The kernel's side -/

/-- A process as the kernel shows it. -/
structure Task where
  pid : Nat
  comm : List Char
  state : Char
  field : StatPidField → Int
  /-- The numbers after the resident set size. -/
  beyond : List Int
  pid_lt : pid < 2 ^ 64
  comm_line : '\n' ∉ comm
  state_word : state ≠ ' '
  field_lt : ∀ i, field i < 2 ^ 64
  field_nonneg : ∀ i, ¬ i.Signed → 0 ≤ field i

namespace Task

def words (t : Task) : List (List Char) :=
  (StatPidField.all.map t.field ++ t.beyond).map fun i => (toString i).toList

def rest (t : Task) : List Char :=
  t.state :: ' ' :: ([' '].intercalate t.words ++ ['\n'])

def line (t : Task) : List Char :=
  (toString t.pid).toList ++ [' ', '('] ++ (t.comm ++ [')', ' '] ++ t.rest)

def values (t : Task) : Values := fun i =>
  if i ≠ .ttyProcGroup ∧ i ≠ .priority then UInt64.ofNat (t.field i).toNat else 0

end Task

/-- The record shows the name, the state and the unsigned numbers of the process. -/
structure Recorded (proc : Process) (t : Task) : Prop where
  name : proc.name = t.comm
  state : proc.state = [t.state]
  values : ∀ i, ¬ i.Signed → ((proc.values i).toNat : Int) = t.field i

/-! ## Reading what the kernel prints -/

/-- Of the printed numbers, those that are read must not be negative. -/
theorem readFields_printed {f : StatPidField → Int} (hf : ∀ i, f i < 2 ^ 64)
    (is : List StatPidField) (more : List (List Char)) (intfields : Values) :
    readFields is (is.map (fun i => (toString (f i)).toList) ++ more) intfields =
      if ∀ i ∈ is, i ≠ .ttyProcGroup ∧ i ≠ .priority → 0 ≤ f i then
        some fun i => if i ∈ is ∧ i ≠ .ttyProcGroup ∧ i ≠ .priority then
          UInt64.ofNat (f i).toNat else intfields i
      else none := by
  induction is generalizing intfields with
  | nil => simp [readFields]
  | cons i is ih =>
      rw [List.map_cons, List.cons_append, readFields]
      by_cases hread : i ≠ .ttyProcGroup ∧ i ≠ .priority
      · rw [if_pos hread, Text.parseUint_toString_int (hf i)]
        by_cases hsign : 0 ≤ f i
        · rw [if_pos hsign]
          dsimp only
          rw [ih]
          simp only [List.forall_mem_cons, hsign, implies_true, true_and]
          congr 2
          funext j
          by_cases hj : j = i
          · subst hj
            simp [hread]
          · simp [hj]
        · rw [if_neg hsign, if_neg]
          intro hall
          exact hsign (hall i List.mem_cons_self hread)
      · rw [if_neg hread, ih]
        simp only [List.forall_mem_cons, hread, false_implies, true_and]
        congr 2
        funext j
        by_cases hj : j = i
        · subst hj
          simp [hread]
        · simp [hj]

theorem exists_parseUint_of_readFields {is : List StatPidField} {fields : List (List Char)}
    {intfields values : Values} (h : readFields is fields intfields = some values) {k : Nat}
    {i : StatPidField} (hi : is[k]? = some i) (hread : i ≠ .ttyProcGroup ∧ i ≠ .priority) :
    ∃ field val, fields[k]? = some field ∧ Text.parseUint 64 field = some val := by
  induction is generalizing fields intfields k with
  | nil => cases hi
  | cons first is ih =>
      cases fields with
      | nil => cases h
      | cons field fields =>
          rw [readFields] at h
          cases k with
          | zero =>
              cases hi
              rw [if_pos hread] at h
              split at h
              · cases h
              · rename_i val hval
                exact ⟨field, val, rfl, hval⟩
          | succ k =>
              split at h
              · split at h
                · cases h
                · exact ih h hi
              · exact ih h hi

/-- No two numbers in a row are skipped. -/
theorem StatPidField.exists_read {k : Nat} (hk : k < 21) :
    (∃ i, all[k]? = some i ∧ i ≠ .ttyProcGroup ∧ i ≠ .priority) ∨
      ∃ j i, k = j + 1 ∧ all[j]? = some i ∧ i ≠ .ttyProcGroup ∧ i ≠ .priority := by
  have hskipped : all[k]? ≠ none := by
    rw [Ne, List.getElem?_eq_none_iff]
    exact Nat.not_le.mpr hk
  rcases Option.ne_none_iff_exists'.mp hskipped with ⟨i, hi⟩
  by_cases hread : i ≠ .ttyProcGroup ∧ i ≠ .priority
  · exact Or.inl ⟨i, hi, hread⟩
  · have hplace : k = 4 ∨ k = 14 := by
      have hall : ∀ k < 21, all[k]? = some .ttyProcGroup ∨ all[k]? = some .priority →
          k = 4 ∨ k = 14 := by decide
      refine hall k hk ?_
      rw [hi]
      by_cases htty : i = .ttyProcGroup
      · exact Or.inl (congrArg some htty)
      · exact Or.inr (congrArg some (not_not.mp fun h => hread ⟨htty, h⟩))
    rcases hplace with rfl | rfl
    · exact Or.inr ⟨3, .ttyNumber, rfl, rfl, by decide⟩
    · exact Or.inr ⟨13, .childSysTime, rfl, rfl, by decide⟩

/-- A state among the first numbers is not skipped, or else the end of the name before it. -/
theorem readFields_shifted {words more : List (List Char)} {state : Char} (v : Values)
    (hstate : state.isAlpha = true) (hwords : ∀ w ∈ words.getLast?, ')' ∈ w)
    (hlen : words.length < 21) :
    readFields StatPidField.all (words ++ [state] :: more) v = none := by
  cases h : readFields StatPidField.all (words ++ [state] :: more) v with
  | none => rfl
  | some values =>
      rcases StatPidField.exists_read hlen with ⟨i, hi, hread⟩ | ⟨j, i, hj, hi, hread⟩
      · rcases exists_parseUint_of_readFields h hi hread with ⟨field, val, hfield, hval⟩
        rw [List.getElem?_append_right (Nat.le_refl _), Nat.sub_self] at hfield
        cases hfield
        rw [Text.parseUint_of_mem List.mem_cons_self (Text.not_isDigit_of_isAlpha hstate)] at hval
        cases hval
      · rcases exists_parseUint_of_readFields h hi hread with ⟨field, val, hfield, hval⟩
        rw [List.getElem?_append_left (by omega)] at hfield
        have hlast : words.getLast? = some field := by
          rw [List.getLast?_eq_getElem?, hj]
          exact hfield
        rw [Text.parseUint_of_mem (hwords field hlast) (by decide)] at hval
        cases hval

namespace Task

variable (t : Task) {proc : Process}

theorem splitWhitespace_rest :
    Text.splitWhitespace ([' '].intercalate t.words ++ ['\n']) = t.words := by
  rw [Text.splitWhitespace_append_cons _ _ (by decide), Text.splitWhitespace_nil,
    List.append_nil]
  apply Text.splitWhitespace_intercalate
  intro w hw
  rcases List.mem_map.mp hw with ⟨i, _, hi⟩
  subst hi
  exact Text.toString_int_word i

/-- The nice value is read although it has a sign. -/
theorem readFields_words :
    readFields StatPidField.all t.words (fun _ => 0) =
      if 0 ≤ t.field .nice then some t.values else none := by
  have hwords : t.words = StatPidField.all.map (fun i => (toString (t.field i)).toList) ++
      t.beyond.map fun i => (toString i).toList := by
    simp [words]
  have hsign : (∀ i ∈ StatPidField.all, i ≠ .ttyProcGroup ∧ i ≠ .priority → 0 ≤ t.field i) ↔
      0 ≤ t.field .nice := by
    constructor
    · intro h
      exact h .nice (StatPidField.mem_all _) (by decide)
    · intro hnice i _ hread
      by_cases hi : i = .nice
      · exact hi ▸ hnice
      · apply t.field_nonneg
        simp [StatPidField.Signed, hread, hi]
  rw [hwords, readFields_printed t.field_lt, if_congr hsign rfl rfl]
  simp only [StatPidField.mem_all, true_and]
  rfl

theorem splitOnce_line :
    splitOnce '(' t.line =
      some ((toString t.pid).toList ++ [' '], t.comm ++ [')', ' '] ++ t.rest) := by
  rw [splitOnce_eq_some]
  constructor
  · simp [line]
  · rw [List.mem_append, not_or]
    exact ⟨Text.notMem_toString (by decide) t.pid, by decide⟩

/-- The end of the name is found unless the name itself has such an end. -/
theorem dropInfix?_comm :
    (t.comm ++ [')', ' '] ++ t.rest).dropInfix? [')', ' '] = some (t.comm, t.rest) ↔
      ¬ [')', ' '] <:+: t.comm := by
  rw [dropInfix?_append_iff (by simp)]
  apply not_congr
  constructor
  · intro h
    rcases List.infix_concat_iff.mp h with hend | hin
    · -- the name would have to end in a blank and in a parenthesis
      rcases hend with ⟨before, heq⟩
      have hlast := congrArg List.getLast? heq
      simp at hlast
    · exact hin
  · intro h
    exact h.trans (List.prefix_append _ _).isInfix

theorem parseStat_line (h : ¬ [')', ' '] <:+: t.comm) :
    parseStat t.line =
      if 0 ≤ t.field .nice then some ⟨t.comm, [t.state], t.values⟩ else none := by
  have hstate : splitOnce ' ' t.rest = some ([t.state], [' '].intercalate t.words ++ ['\n']) := by
    rw [splitOnce_eq_some]
    exact ⟨rfl, by simp [t.state_word.symm]⟩
  unfold parseStat
  rw [t.splitOnce_line]
  simp only [Option.bind_eq_bind, Option.bind_some, t.dropInfix?_comm.mpr h, hstate,
    Option.getD_some, t.splitWhitespace_rest, t.readFields_words]
  split
  · rfl
  · rfl

theorem toNat_values {i : StatPidField} (hi : ¬ i.Signed) :
    ((t.values i).toNat : Int) = t.field i := by
  have hread : i ≠ .ttyProcGroup ∧ i ≠ .priority := by
    rw [StatPidField.Signed, not_or, not_or] at hi
    exact ⟨hi.1, hi.2.1⟩
  have hlt := t.field_lt i
  have hnonneg := t.field_nonneg i hi
  have hsize : (t.field i).toNat < UInt64.size := by
    rw [show UInt64.size = 2 ^ 64 from rfl]
    omega
  rw [values, if_pos hread, UInt64.toNat_ofNat_of_lt' hsize, Int.toNat_of_nonneg hnonneg]

/-- A record under the name of the process has found the end of the name. -/
theorem name_of_parseStat (h : parseStat t.line = some proc) (hname : proc.name = t.comm) :
    ¬ [')', ' '] <:+: t.comm := by
  unfold parseStat at h
  rw [t.splitOnce_line] at h
  simp only [Option.bind_eq_bind, Option.bind_some] at h
  rcases Option.bind_eq_some_iff.mp h with ⟨⟨name, staterest⟩, hcut, h⟩
  rcases Option.bind_eq_some_iff.mp h with ⟨intfields, hfields, h⟩
  cases h
  dsimp only at hname
  subst hname
  rcases (List.dropInfix?_eq_some_iff.mp hcut).1 with ⟨sep, heq, hsep⟩
  cases eq_of_beq hsep
  rw [← List.append_cancel_left heq] at hcut
  exact t.dropInfix?_comm.mp hcut

theorem splitWhitespace_state (hstate : t.state.isAlpha = true) :
    Text.splitWhitespace t.rest = [t.state] :: t.words := by
  have hblank := Text.not_isWhitespace_of_isAlpha hstate
  have hword : Text.splitWhitespace [t.state] = [[t.state]] :=
    Text.splitWhitespace_of_forall_not (List.cons_ne_nil _ _) (by simpa using hblank)
  have hrest : t.rest = [t.state] ++ ' ' :: ([' '].intercalate t.words ++ ['\n']) := rfl
  rw [hrest, Text.splitWhitespace_append_cons _ _ (by decide), hword, t.splitWhitespace_rest]
  rfl

/-- What is read behind an end in the name: the words of the rest of the name, the last of
which has its parenthesis, and then the state. -/
theorem splitWhitespace_shifted (hstate : t.state.isAlpha = true) (after : List Char) :
    ∃ words, Text.splitWhitespace ((splitOnce ' ' (after ++ ([')', ' '] ++ t.rest))).getD
        (after ++ ([')', ' '] ++ t.rest), [])).2 = words ++ [t.state] :: t.words ∧
      (∀ w ∈ words.getLast?, ')' ∈ w) ∧ 2 * words.length ≤ after.length + 1 := by
  cases hsplit : splitOnce ' ' after with
  | none =>
      have hnone := splitOnce_eq_none.mp hsplit
      have hstaterest : after ++ ([')', ' '] ++ t.rest) = (after ++ [')']) ++ ' ' :: t.rest := by
        simp
      have hname : ' ' ∉ after ++ [')'] := by simpa using hnone
      rw [hstaterest, splitOnce_append_cons _ hname, Option.getD_some,
        t.splitWhitespace_state hstate]
      exact ⟨[], rfl, by simp, Nat.zero_le _⟩
  | some parts =>
      rcases parts with ⟨state, rest⟩
      rcases splitOnce_eq_some.mp hsplit with ⟨rfl, hnone⟩
      have hstaterest : (state ++ ' ' :: rest) ++ ([')', ' '] ++ t.rest) =
          state ++ ' ' :: ((rest ++ [')']) ++ ' ' :: t.rest) := by simp
      rcases Text.exists_splitWhitespace_concat (show Text.isWhitespace ')' = false by decide) rest
        with ⟨words, word, hwords⟩
      rw [hstaterest, splitOnce_append_cons _ hnone, Option.getD_some,
        Text.splitWhitespace_append_cons _ _ (by decide), t.splitWhitespace_state hstate]
      refine ⟨_, rfl, ?_, ?_⟩
      · rw [hwords, List.getLast?_concat]
        intro w hw
        cases hw
        simp
      · have hlen := Text.length_splitWhitespace (rest ++ [')'])
        simp only [List.length_append, List.length_cons, List.length_nil] at hlen ⊢
        omega

/-- A process whose state is a letter is not recorded if its name has an end in it, unless the
name is so long that all numbers can be read from it. -/
theorem not_infix_of_parseStat (hstate : t.state.isAlpha = true) (hshort : t.comm.length < 40)
    (h : parseStat t.line = some proc) : ¬ [')', ' '] <:+: t.comm := by
  intro hinfix
  unfold parseStat at h
  rw [t.splitOnce_line] at h
  simp only [Option.bind_eq_bind, Option.bind_some] at h
  rcases Option.bind_eq_some_iff.mp h with ⟨⟨name, staterest⟩, hcut, h⟩
  rcases Option.bind_eq_some_iff.mp h with ⟨intfields, hfields, -⟩
  rw [List.append_assoc] at hcut
  rcases exists_of_dropInfix? hinfix hcut with ⟨after, hcomm, rfl⟩
  rcases t.splitWhitespace_shifted hstate after with ⟨words, hwords, hlast, hlen⟩
  have hcount : words.length < 21 := by
    have hlength := congrArg List.length hcomm
    simp only [List.length_append] at hlength
    omega
  rw [hwords, readFields_shifted _ hstate hlast hcount] at hfields
  cases hfields

theorem recorded_iff :
    (∃ proc, parseStat t.line = some proc ∧ Recorded proc t) ↔
      ¬ [')', ' '] <:+: t.comm ∧ 0 ≤ t.field .nice := by
  constructor
  · intro h
    rcases h with ⟨proc, hproc, hrecorded⟩
    have hcomm := t.name_of_parseStat hproc hrecorded.name
    refine ⟨hcomm, ?_⟩
    by_contra hnice
    rw [t.parseStat_line hcomm, if_neg hnice] at hproc
    cases hproc
  · intro h
    refine ⟨_, by rw [t.parseStat_line h.1, if_pos h.2], rfl, rfl, ?_⟩
    intro i hi
    exact t.toNat_values hi

end Task

end GhafGivc.Stats
