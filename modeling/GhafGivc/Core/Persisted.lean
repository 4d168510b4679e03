import GhafGivc.Core.Transition

/-! # A value kept in a file and in memory

Requests write an accepted value to the file and later assign it to the memory. The two
steps of one request are not atomic, so requests may overtake each other between them. As
long as no request writes while another one is between its two steps, file and memory agree
once all requests are done; a write that breaks this can leave them apart.
-/

namespace Core.Persisted

variable {ρ φ β : Type}

inductive Phase (β : Type) where
  | idle
  | refused
  | validated (value : β)
  | written (value : β)
  | collected (value : β)
  | finished (value : β)
deriving DecidableEq

namespace Phase

/-- The value of a request that has written the file and not yet assigned the memory. -/
def between : Phase β → Option β
  | written value => some value
  | collected value => some value
  | _ => none

def accepted : Phase β → Option β
  | idle => none
  | refused => none
  | validated value => some value
  | written value => some value
  | collected value => some value
  | finished value => some value

def Done : Phase β → Prop
  | idle => True
  | refused => True
  | finished _ => True
  | _ => False

theorem between_of_done {p : Phase β} (h : p.Done) : p.between = none := by
  cases p <;> first | rfl | cases h

theorem accepted_of_between {p : Phase β} {value : β} (h : p.between = some value) :
    p.accepted = some value := by
  cases p <;> first | exact h | cases h

theorem done_update {task : Nat → Phase β} (h : ∀ i, (task i).Done) (j : Nat) (value : β) :
    ∀ i, (Function.update task j (.finished value) i).Done := by
  intro i
  by_cases hij : i = j
  · subst hij
    rw [Function.update_self]
    trivial
  · rw [Function.update_of_ne hij]
    exact h i

end Phase

structure State (φ β : Type) where
  file : φ
  memory : β
  task : Nat → Phase β

inductive Label (ρ : Type) where
  | validate (i : Nat) (req : ρ)
  | write (i : Nat)
  | collect (i : Nat)
  | assign (i : Nat)

def Label.request : Label ρ → Nat
  | validate i _ => i
  | write i => i
  | collect i => i
  | assign i => i

section Step

variable (accept : ρ → Option β) (encode : β → φ)

def judge (req : ρ) : Phase β :=
  match accept req with
  | some value => .validated value
  | none => .refused

def step (s : State φ β) : Label ρ → Option (State φ β)
  | .validate i req =>
      match s.task i with
      | .idle => some { s with task := Function.update s.task i (judge accept req) }
      | _ => none
  | .write i =>
      match s.task i with
      | .validated value => some { s with
          file := encode value
          task := Function.update s.task i (.written value) }
      | _ => none
  | .collect i =>
      match s.task i with
      | .written value => some { s with task := Function.update s.task i (.collected value) }
      | _ => none
  | .assign i =>
      match s.task i with
      | .collected value => some { s with
          memory := value
          task := Function.update s.task i (.finished value) }
      | _ => none

end Step

def start (file : φ) (memory : β) : State φ β := ⟨file, memory, fun _ => .idle⟩

namespace State

def Finished (s : State φ β) : Prop := ∀ i, (s.task i).Done

/-- A write finds no request between its two steps. -/
def Undisturbed (s : State φ β) : Label ρ → Prop
  | .write _ => ∀ i, (s.task i).between = none
  | _ => True

end State

/-! ## Undisturbed runs -/

/-- File and memory agree, or one request has yet to assign what it wrote. -/
def Settled (decode : φ → β) (encode : β → φ) (s : State φ β) : Prop :=
  ((∀ i, (s.task i).between = none) ∧ decode s.file = s.memory) ∨
    ∃ i value, (s.task i).between = some value ∧ (∀ j, j ≠ i → (s.task j).between = none) ∧
      s.file = encode value

structure Inv (accept : ρ → Option β) (decode : φ → β) (encode : β → φ) (s : State φ β) :
    Prop where
  settled : Settled decode encode s
  accepted : ∀ i value, (s.task i).accepted = some value → ∃ req, accept req = some value

section Runs

variable {accept : ρ → Option β} {encode : β → φ} {decode : φ → β} {file : φ} {memory : β}
  {s t : State φ β} {i : Nat} {p : Phase β} {l : Label ρ} {task : Nat → Phase β}

theorem inv_start (accept : ρ → Option β) (encode : β → φ) (h : decode file = memory) :
    Inv accept decode encode (start file memory) :=
  ⟨Or.inl ⟨fun _ => rfl, h⟩, fun _ _ h => absurd h (by simp [start, Phase.accepted])⟩

theorem accepted_update
    (h : ∀ j value, (task j).accepted = some value → ∃ req, accept req = some value)
    (hp : ∀ value, p.accepted = some value → ∃ req, accept req = some value) :
    ∀ j value, (Function.update task i p j).accepted = some value →
      ∃ req, accept req = some value := by
  intro j value hj
  by_cases hji : j = i
  · subst hji
    rw [Function.update_self] at hj
    exact hp value hj
  · rw [Function.update_of_ne hji] at hj
    exact h j value hj

theorem accepted_move
    (h : ∀ j value, (task j).accepted = some value → ∃ req, accept req = some value)
    (hp : p.accepted = (task i).accepted) :
    ∀ j value, (Function.update task i p j).accepted = some value →
      ∃ req, accept req = some value :=
  accepted_update h fun value hvalue => h i value (hp ▸ hvalue)

theorem accepted_judge {req : ρ} {value : β} (h : (judge accept req).accepted = some value) :
    accept req = some value := by
  unfold judge at h
  cases haccept : accept req with
  | some found =>
      rw [haccept] at h
      exact h
  | none =>
      rw [haccept] at h
      cases h

theorem between_judge (accept : ρ → Option β) (req : ρ) : (judge accept req).between = none := by
  unfold judge
  cases accept req <;> rfl

/-- What a step can do, and the phase of its request that allows it. -/
theorem step_cases (h : step accept encode s l = some t) :
    (∃ i req, l = .validate i req ∧ s.task i = .idle ∧
      t = { s with task := Function.update s.task i (judge accept req) }) ∨
    (∃ i value, l = .write i ∧ s.task i = .validated value ∧
      t = { s with
        file := encode value
        task := Function.update s.task i (.written value) }) ∨
    (∃ i value, l = .collect i ∧ s.task i = .written value ∧
      t = { s with task := Function.update s.task i (.collected value) }) ∨
    (∃ i value, l = .assign i ∧ s.task i = .collected value ∧
      t = { s with
        memory := value
        task := Function.update s.task i (.finished value) }) := by
  cases l with
  | validate i req =>
      simp only [step] at h
      split at h
      · rename_i htask
        exact Or.inl ⟨i, req, rfl, htask, (Option.some.inj h).symm⟩
      · cases h
  | write i =>
      simp only [step] at h
      split at h
      · rename_i value htask
        exact Or.inr (Or.inl ⟨i, value, rfl, htask, (Option.some.inj h).symm⟩)
      · cases h
  | collect i =>
      simp only [step] at h
      split at h
      · rename_i value htask
        exact Or.inr (Or.inr (Or.inl ⟨i, value, rfl, htask, (Option.some.inj h).symm⟩))
      · cases h
  | assign i =>
      simp only [step] at h
      split at h
      · rename_i value htask
        exact Or.inr (Or.inr (Or.inr ⟨i, value, rfl, htask, (Option.some.inj h).symm⟩))
      · cases h

theorem Settled.move (h : Settled decode encode s) (hp : p.between = (s.task i).between) :
    Settled decode encode { s with task := Function.update s.task i p } := by
  have hsame : ∀ j, (Function.update s.task i p j).between = (s.task j).between := by
    intro j
    by_cases hj : j = i
    · subst hj
      rw [Function.update_self, hp]
    · rw [Function.update_of_ne hj]
  rcases h with ⟨hnone, hagree⟩ | ⟨j, value, hj, hothers, hfile⟩
  · exact Or.inl ⟨fun j => (hsame j).trans (hnone j), hagree⟩
  · exact Or.inr ⟨j, value, (hsame j).trans hj, fun k hk => (hsame k).trans (hothers k hk), hfile⟩

theorem Inv.step (h : Inv accept decode encode s) (hl : s.Undisturbed l)
    (hdecode : ∀ req value, accept req = some value → decode (encode value) = value)
    (hs : step accept encode s l = some t) : Inv accept decode encode t := by
  rcases step_cases hs with ⟨i, req, -, htask, rfl⟩ | ⟨i, value, rfl, htask, rfl⟩ |
    ⟨i, value, -, htask, rfl⟩ | ⟨i, value, -, htask, rfl⟩
  · exact ⟨h.settled.move (by rw [htask, between_judge]; rfl),
      accepted_update h.accepted fun value hvalue => ⟨req, accepted_judge hvalue⟩⟩
  · refine ⟨Or.inr ⟨i, value, ?_, fun j hj => ?_, rfl⟩,
      accepted_move h.accepted (by rw [htask]; rfl)⟩
    · dsimp only
      rw [Function.update_self]
      rfl
    · dsimp only
      rw [Function.update_of_ne hj]
      exact hl j
  · exact ⟨h.settled.move (by rw [htask]; rfl), accepted_move h.accepted (by rw [htask]; rfl)⟩
  · refine ⟨Or.inl ?_, accepted_move h.accepted (by rw [htask]; rfl)⟩
    have hbetween : (s.task i).between = some value := by rw [htask]; rfl
    rcases h.settled with ⟨hnone, -⟩ | ⟨j, value', hj, hothers, hfile⟩
    · rw [hnone] at hbetween
      cases hbetween
    · obtain rfl : i = j := by
        by_contra hne
        rw [hothers i hne] at hbetween
        cases hbetween
      obtain rfl := Option.some.inj (hbetween.symm.trans hj)
      obtain ⟨req, hreq⟩ := h.accepted i value (Phase.accepted_of_between hbetween)
      refine ⟨fun k => ?_, (congrArg decode hfile).trans (hdecode req value hreq)⟩
      dsimp only
      by_cases hk : k = i
      · subst hk
        rw [Function.update_self]
        rfl
      · rw [Function.update_of_ne hk]
        exact hothers k hk

theorem Inv.decode_eq (h : Inv accept decode encode s) (hdone : s.Finished) :
    decode s.file = s.memory := by
  rcases h.settled with ⟨-, hagree⟩ | ⟨i, value, hi, -⟩
  · exact hagree
  · rw [Phase.between_of_done (hdone i)] at hi
    cases hi

theorem step_of_refused (h : s.task i = .refused) (hs : step accept encode s l = some t) :
    l.request ≠ i ∧ t.task i = .refused := by
  have hmoves : ∀ {j : Nat} {p q : Phase β}, s.task j = p → p ≠ .refused →
      j ≠ i ∧ Function.update s.task j q i = .refused := by
    intro j p q htask hp
    have hne : j ≠ i := by
      intro heq
      subst heq
      exact hp (htask.symm.trans h)
    exact ⟨hne, (Function.update_of_ne hne.symm _ _).trans h⟩
  rcases step_cases hs with ⟨j, req, hl, htask, ht⟩ | ⟨j, value, hl, htask, ht⟩ |
    ⟨j, value, hl, htask, ht⟩ | ⟨j, value, hl, htask, ht⟩
  all_goals
    subst hl ht
    exact hmoves htask (by simp)

/-- A request that is accepted and served on its own ends with its value in both places. -/
theorem run_of_accepted (encode : β → φ) {req : ρ} {value : β} (hidle : s.task i = .idle)
    (haccept : accept req = some value) :
    ∃ t, run (step accept encode) s [.validate i req, .write i, .collect i, .assign i] = some t ∧
      t.file = encode value ∧ t.memory = value := by
  simp [run, step, judge, hidle, haccept]

theorem run_overtaken (accept : ρ → Option β) (encode : β → φ) {i j : Nat} {a b : β} (hij : i ≠ j)
    (hi : s.task i = .collected a) (hj : s.task j = .written b)
    (hothers : ∀ k, k ≠ i → k ≠ j → (s.task k).Done) :
    ∃ t, run (step accept encode) s [.collect j, .assign j, .assign i] = some t ∧ t.Finished ∧
      t.file = s.file ∧ t.memory = a := by
  refine ⟨{ s with
    memory := a
    task := Function.update (Function.update s.task j (.finished b)) i (.finished a) },
    by simp [run, step, hi, hj, hij], fun k => ?_, rfl, rfl⟩
  dsimp only
  by_cases hki : k = i
  · rw [hki, Function.update_self]
    trivial
  · rw [Function.update_of_ne hki]
    by_cases hkj : k = j
    · rw [hkj, Function.update_self]
      trivial
    · rw [Function.update_of_ne hkj]
      exact hothers k hki hkj

/-- A request that writes another value while one is between its two steps can leave file and
memory apart. -/
theorem exists_disagreement (accept : ρ → Option β) {i j : Nat} {a b : β}
    (hi : (s.task i).between = some a) (hj : s.task j = .validated b)
    (hothers : ∀ k, k ≠ i → k ≠ j → (s.task k).Done)
    (hdecode : decode (encode b) = b) (hab : a ≠ b) :
    ∃ ls t, run (step accept encode) s (.write j :: ls) = some t ∧ t.Finished ∧
      decode t.file ≠ t.memory := by
  have hij : i ≠ j := by
    intro heq
    rw [heq, hj] at hi
    cases hi
  have hwrite : step accept encode s (.write j) = some { s with
      file := encode b
      task := Function.update s.task j (.written b) } := by
    simp [step, hj]
  have hapart {file : φ} {memory : β} (hfile : file = encode b) (hmemory : memory = a) :
      decode file ≠ memory := by
    rw [hfile, hmemory, hdecode]
    exact hab.symm
  cases htask : s.task i with
  | written value =>
      obtain rfl : value = a := by simpa [htask, Phase.between] using hi
      have hi' : Function.update (Function.update s.task j (.written b)) i (.collected value) i =
          .collected value := Function.update_self ..
      have hj' : Function.update (Function.update s.task j (.written b)) i (.collected value) j =
          .written b := by
        rw [Function.update_of_ne hij.symm, Function.update_self]
      obtain ⟨t, hrun, hdone, hfile, hmemory⟩ := run_overtaken accept encode
        (s := ⟨encode b, s.memory,
          Function.update (Function.update s.task j (.written b)) i (.collected value)⟩) hij hi' hj'
        (fun k hki hkj => by simpa [hki, hkj] using hothers k hki hkj)
      refine ⟨[.collect i, .collect j, .assign j, .assign i], t, ?_, hdone, hapart hfile hmemory⟩
      rw [run_cons_of_some _ hwrite, run_cons_of_some _ (by simp [step, htask, hij]; rfl), hrun]
  | collected value =>
      obtain rfl : value = a := by simpa [htask, Phase.between] using hi
      have hi' : Function.update s.task j (.written b) i = .collected value := by
        rw [Function.update_of_ne hij, htask]
      obtain ⟨t, hrun, hdone, hfile, hmemory⟩ := run_overtaken accept encode
        (s := ⟨encode b, s.memory, Function.update s.task j (.written b)⟩) hij hi'
        (Function.update_self ..)
        (fun k hki hkj => by simpa [hkj] using hothers k hki hkj)
      refine ⟨[.collect j, .assign j, .assign i], t, ?_, hdone, hapart hfile hmemory⟩
      rw [run_cons_of_some _ hwrite, hrun]
  | idle => simp [htask, Phase.between] at hi
  | refused => simp [htask, Phase.between] at hi
  | validated value => simp [htask, Phase.between] at hi
  | finished value => simp [htask, Phase.between] at hi

end Runs

end Core.Persisted
