import GhafGivc.Policy.Workers

/-! # The monitor of the policy repository

The monitor keeps a clone of the policy repository. In each round it fetches, checks out a
commit that is new, and has the manager dispatch the changes. When anything fails it clones
the repository again and has everything dispatched. What git and the file system answer is
data of a round.
-/

namespace GhafGivc.Policy

open Core

/-- A repository on disk that can be opened: the URL of its remote, its `HEAD`, and the commit
last checked out, unless a checkout was left incomplete since. A checkout does not move
`HEAD`. -/
structure Clone where
  url : Option String
  head : Except String String
  checkedOut : Option String
deriving DecidableEq

structure RepoSettings where
  url : String
  branch : String
  pollInterval : Nat
deriving DecidableEq

/-- What becomes of a checkout: it fails before it touches the work tree, it stops in the
middle, it is done but the index is not written, or it is done. -/
inductive CheckoutAnswer where
  | untouched (cause : String)
  | partly (cause : String)
  | unindexed (cause : String)
  | done
deriving DecidableEq

/-- What becomes of a clone: it fails beside the old one, while the old one is removed (which
may still open) or before the new one is in its place, or when the new one is read; or it is
done. -/
inductive CloneAnswer where
  | failed (cause : String)
  | removed (opens : Bool) (cause : String)
  | unread (placed : Option Clone) (cause : String)
  | done (head : String)
deriving DecidableEq

structure RepoAnswers where
  fetch : Option String → String → Except String String
  checkout : CheckoutAnswer
  diff : String → String → Except String (List Change)
  clone : Nat → CloneAnswer
  present : String → Bool
  dir : String → String → DirAnswer

/-- What the manager is called with after a move; without changes it is called for all. -/
def RepoAnswers.dispatch (answers : RepoAnswers) (changes : List Char) : Dispatch :=
  if changes = [] then .force answers.dir else .changeset answers.present changes

structure RepoMonitor where
  clone : Option Clone
  heads : RepoState
  waitTime : Nat
  returned : Bool
deriving DecidableEq

namespace RepoMonitor

variable (settings : RepoSettings) (answers : RepoAnswers)

/-- A clone of another repository is left for the first round. -/
def new (clone : Option Clone) : Except String RepoMonitor :=
  match clone with
  | none => .ok ⟨none, ⟨none, none⟩, 30, false⟩
  | some found =>
      if found.url = some settings.url then do
        let head ← found.head
        pure ⟨clone, ⟨some head, some head⟩, 30, false⟩
      else .ok ⟨clone, ⟨none, none⟩, 30, false⟩

def cloneRepo (answer : CloneAnswer) (s : RepoMonitor) : Except String Unit × RepoMonitor :=
  match answer with
  | .failed cause => (.error cause, s)
  | .removed opens cause => (.error cause, { s with
      clone := if opens then s.clone.map ({ · with checkedOut := none }) else none })
  | .unread placed cause => (.error cause, { s with clone := placed })
  | .done head => (.ok (), { s with
      clone := some ⟨some settings.url, .ok head, some head⟩
      heads := ⟨some head, none⟩ })

/-- The attempts from number `i` on, of which some are left. -/
def cloneAttempts : Nat → Nat → RepoMonitor → Except String Unit × RepoMonitor
  | _, 0, s => (.error "Failed to clone repo after retries", s)
  | i, left + 1, s =>
      match cloneRepo settings (answers.clone i) s with
      | (.ok _, s) => (.ok (), s)
      | (.error _, s) => cloneAttempts (i + 1) left s

def ensureClone (s : RepoMonitor) : Except String Unit × RepoMonitor :=
  cloneAttempts settings answers 0 4 s

def moveTo (s : RepoMonitor) (clone : Clone) (id : String) : RepoMonitor :=
  { s with
    clone := some { clone with checkedOut := some id }
    heads := ⟨some id, s.heads.newHead⟩ }

def getUpdate (s : RepoMonitor) : Except String Bool × RepoMonitor :=
  match s.clone with
  | none => (.error "Repo not initialized", s)
  | some clone =>
      -- It fetches from where the clone came from.
      match answers.fetch clone.url settings.branch with
      | .error cause => (.error cause, s)
      | .ok remoteId =>
          if s.heads.newHead = some remoteId then (.ok false, s)
          else
            match answers.checkout with
            | .untouched cause => (.error cause, s)
            | .partly cause => (.error cause, { s with
                clone := some { clone with checkedOut := none } })
            | .unindexed cause => (.error cause, { s with
                clone := some { clone with checkedOut := some remoteId } })
            | .done => (.ok true, s.moveTo clone remoteId)

def getChangeSet (s : RepoMonitor) : Except String (List Char) :=
  match s.clone, s.heads.oldHead, s.heads.newHead with
  | none, _, _ => .error "Repo not initialized"
  | some _, some old, some new =>
      if old = new then s.heads.getChangeSet []
      else answers.diff old new >>= s.heads.getChangeSet
  | some _, _, _ => s.heads.getChangeSet []

/-- A round until it is known whether something failed, with what was dispatched. The calls of
the manager return no error. -/
def attempt (s : RepoMonitor) : Except String Unit × RepoMonitor × List Dispatch :=
  match getUpdate settings answers s with
  | (.error cause, s) => (.error cause, s, [])
  | (.ok false, s) => (.ok (), s, [])
  | (.ok true, s) =>
      match s.getChangeSet answers with
      | .error cause => (.error cause, s, [])
      | .ok changes => (.ok (), s, [answers.dispatch changes])

def round (s : RepoMonitor) : RepoMonitor × List Dispatch :=
  match attempt settings answers s with
  | (.error _, s, dispatched) =>
      ((ensureClone settings answers s).2, dispatched ++ [.force answers.dir])
  | (.ok _, s, dispatched) => ({ s with
      waitTime := settings.pollInterval
      returned := settings.pollInterval = 0 }, dispatched)

end RepoMonitor

/-- A dispatch with the clone and the heads that it was made from. -/
structure Told where
  dispatch : Dispatch
  clone : Option Clone
  heads : RepoState

namespace RepoMonitor

variable (settings : RepoSettings)

/-- Rounds until the monitor returns, with everything dispatched. -/
def rounds : RepoMonitor → List RepoAnswers → RepoMonitor × List Told
  | s, [] => (s, [])
  | s, answers :: later =>
      if s.returned then (s, [])
      else
        let next := round settings answers s
        let rest := rounds next.1 later
        (rest.1, next.2.map (⟨·, next.1.clone, next.1.heads⟩) ++ rest.2)

end RepoMonitor

/-! ## One round -/

namespace RepoMonitor

/-- What a round can do. It finds the remote where the heads have it, or moves to the commit
of the remote and dispatches the changes since the last one, or fails, clones again and
dispatches everything. -/
inductive Round (settings : RepoSettings) (answers : RepoAnswers) (s : RepoMonitor) :
    RepoMonitor → List Dispatch → Prop
  | current {clone : Clone} {id : String} (hclone : s.clone = some clone)
      (hfetch : answers.fetch clone.url settings.branch = .ok id)
      (hnew : s.heads.newHead = some id) :
      Round settings answers s { s with
        waitTime := settings.pollInterval
        returned := settings.pollInterval = 0 } []
  | moved {clone : Clone} {id old : String} {changes : List Change}
      (hclone : s.clone = some clone)
      (hfetch : answers.fetch clone.url settings.branch = .ok id)
      (hold : s.heads.newHead = some old) (hne : old ≠ id)
      (hdiff : answers.diff old id = .ok changes) :
      Round settings answers s
        { clone := some { clone with checkedOut := some id }
          heads := ⟨some id, some old⟩
          waitTime := settings.pollInterval
          returned := settings.pollInterval = 0 } [answers.dispatch (changesStr changes)]
  | failed {cause : String} (before : RepoMonitor) (hreturned : before.returned = s.returned)
      (hattempt : attempt settings answers s = (.error cause, before, [])) :
      Round settings answers s (ensureClone settings answers before).2 [.force answers.dir]

section Round

variable {settings : RepoSettings} {answers : RepoAnswers} {s : RepoMonitor} {id old : String}
  {clone : Clone}

theorem getUpdate_cases (settings : RepoSettings) (answers : RepoAnswers) (s : RepoMonitor) :
    (∃ cause before, getUpdate settings answers s = (.error cause, before) ∧
      before.returned = s.returned) ∨
    ∃ clone id, s.clone = some clone ∧ answers.fetch clone.url settings.branch = .ok id ∧
      (s.heads.newHead = some id ∧ getUpdate settings answers s = (.ok false, s) ∨
        s.heads.newHead ≠ some id ∧
          getUpdate settings answers s = (.ok true, s.moveTo clone id)) := by
  cases hclone : s.clone with
  | none => exact .inl ⟨_, s, by simp only [getUpdate, hclone]; rfl, rfl⟩
  | some clone =>
      cases hfetch : answers.fetch clone.url settings.branch with
      | error cause => exact .inl ⟨cause, s, by simp only [getUpdate, hclone, hfetch], rfl⟩
      | ok id =>
          by_cases hnew : s.heads.newHead = some id
          · have hcheck : getUpdate settings answers s = (.ok false, s) := by
              simp only [getUpdate, hclone, hfetch, if_pos hnew]
            exact .inr ⟨clone, id, rfl, hfetch, .inl ⟨hnew, hcheck⟩⟩
          · cases hcheckout : answers.checkout with
            | done =>
                refine .inr ⟨clone, id, rfl, hfetch, .inr ⟨hnew, ?_⟩⟩
                simp only [getUpdate, hclone, hfetch, if_neg hnew, hcheckout]
            | untouched cause =>
                refine .inl ⟨cause, s, ?_, rfl⟩
                simp only [getUpdate, hclone, hfetch, if_neg hnew, hcheckout]
            | partly cause =>
                refine .inl ⟨cause, { s with
                  clone := some { clone with checkedOut := none } }, ?_, rfl⟩
                simp only [getUpdate, hclone, hfetch, if_neg hnew, hcheckout]
            | unindexed cause =>
                refine .inl ⟨cause, { s with
                  clone := some { clone with checkedOut := some id } }, ?_, rfl⟩
                simp only [getUpdate, hclone, hfetch, if_neg hnew, hcheckout]

theorem getChangeSet_moveTo (answers : RepoAnswers) (clone : Clone)
    (hold : s.heads.newHead = some old) (hne : old ≠ id) :
    (s.moveTo clone id).getChangeSet answers = (answers.diff old id).map changesStr := by
  simp only [getChangeSet, moveTo, hold, if_neg hne]
  cases answers.diff old id with
  | error cause => rfl
  | ok changes =>
      change RepoState.getChangeSet ⟨some id, some old⟩ changes = _
      simp only [RepoState.getChangeSet, if_neg hne, Except.map]

/-- A move from nowhere, as with the clone of another repository, is a failure. -/
theorem attempt_of_none {id : String} (hnone : s.heads.newHead = none)
    (hcheck : getUpdate settings answers s = (.ok true, s.moveTo clone id)) :
    attempt settings answers s = (.error "Old head missing", s.moveTo clone id, []) := by
  have hchanges : (s.moveTo clone id).getChangeSet answers = .error "Old head missing" := by
    simp only [getChangeSet, moveTo, RepoState.getChangeSet, hnone]
  simp only [attempt, hcheck, hchanges]

theorem attempt_of_diff {changes : List Change}
    (hcheck : getUpdate settings answers s = (.ok true, s.moveTo clone id))
    (hold : s.heads.newHead = some old) (hne : old ≠ id)
    (hdiff : answers.diff old id = .ok changes) :
    attempt settings answers s =
      (.ok (), s.moveTo clone id, [answers.dispatch (changesStr changes)]) := by
  simp only [attempt, hcheck, getChangeSet_moveTo answers clone hold hne, hdiff, Except.map]

theorem round_of_error {cause : String} {before : RepoMonitor}
    (h : attempt settings answers s = (.error cause, before, []))
    (hreturned : before.returned = s.returned) :
    Round settings answers s (round settings answers s).1 (round settings answers s).2 := by
  have hround : round settings answers s =
      ((ensureClone settings answers before).2, [.force answers.dir]) := by
    simp only [round, h, List.nil_append]
  rw [hround]
  exact .failed before hreturned h

theorem round_of_ok {after : RepoMonitor} {dispatched : List Dispatch}
    (h : attempt settings answers s = (.ok (), after, dispatched)) :
    round settings answers s = ({ after with
      waitTime := settings.pollInterval
      returned := settings.pollInterval = 0 }, dispatched) := by
  simp only [round, h]

theorem round_spec (settings : RepoSettings) (answers : RepoAnswers) (s : RepoMonitor) :
    Round settings answers s (round settings answers s).1 (round settings answers s).2 := by
  rcases getUpdate_cases settings answers s with
    ⟨cause, before, hcheck, hreturned⟩ |
      ⟨clone, id, hclone, hfetch, ⟨hnew, hcheck⟩ | ⟨hne, hcheck⟩⟩
  · have hattempt : attempt settings answers s = (.error cause, before, []) := by
      simp only [attempt, hcheck]
    exact round_of_error hattempt hreturned
  · have hattempt : attempt settings answers s = (.ok (), s, []) := by
      simp only [attempt, hcheck]
    rw [round_of_ok hattempt]
    exact .current hclone hfetch hnew
  · cases hold : s.heads.newHead with
    | none => exact round_of_error (attempt_of_none hold hcheck) rfl
    | some old =>
        have hne_old : old ≠ id := by
          intro heq
          exact hne (by rw [hold, heq])
        cases hdiff : answers.diff old id with
        | error cause =>
            have hattempt : attempt settings answers s =
                (.error cause, s.moveTo clone id, []) := by
              simp only [attempt, hcheck, getChangeSet_moveTo answers clone hold hne_old, hdiff,
                Except.map]
            exact round_of_error hattempt rfl
        | ok changes =>
            rw [round_of_ok (attempt_of_diff hcheck hold hne_old hdiff)]
            simp only [moveTo, hold]
            exact .moved hclone hfetch hold hne_old hdiff

end Round

/-! ## What a run dispatches -/

/-- A change set tells the changes from the commit that the heads had before to the commit
that is checked out. -/
def Follows (answers : List RepoAnswers) (before : RepoState) (told : Told) : Prop :=
  match told.dispatch with
  | .changeset _ text =>
      ∃ old new changes, before.newHead = some old ∧ told.heads = ⟨some new, some old⟩ ∧
        (∃ clone, told.clone = some clone ∧ clone.checkedOut = some new) ∧
        (∃ round ∈ answers, round.diff old new = .ok changes) ∧ text = changesStr changes
  | .all _ _ => False
  | .force _ => True

/-- Each dispatch starts where the one before it ended. -/
def Chained (answers : List RepoAnswers) : RepoState → List Told → Prop
  | _, [] => True
  | before, told :: later => Follows answers before told ∧ Chained answers told.heads later

/-- The clone and the heads that the last dispatch was made from, if there was one. -/
def lastSeen : Option Clone × RepoState → List Told → Option Clone × RepoState
  | seen, [] => seen
  | _, told :: later => lastSeen (told.clone, told.heads) later

section Runs

variable {settings : RepoSettings}

theorem rounds_cons (s : RepoMonitor) (answers : RepoAnswers) (later : List RepoAnswers)
    (h : s.returned = false) :
    rounds settings s (answers :: later) =
      ((rounds settings (round settings answers s).1 later).1,
        (round settings answers s).2.map
            (⟨·, (round settings answers s).1.clone, (round settings answers s).1.heads⟩) ++
          (rounds settings (round settings answers s).1 later).2) := by
  simp only [rounds, h, Bool.false_eq_true, if_false]

theorem rounds_of_returned (s : RepoMonitor) (answers : List RepoAnswers)
    (h : s.returned = true) : rounds settings s answers = (s, []) := by
  cases answers with
  | nil => rfl
  | cons answers later => simp only [rounds, h, if_true]

/-- The chain is stated over the answers of the whole run, of which the induction keeps a
part. -/
theorem chained_of_subset (all : List RepoAnswers) (answers : List RepoAnswers)
    (s : RepoMonitor) (hsub : answers ⊆ all) :
    Chained all s.heads (rounds settings s answers).2 ∧
      lastSeen (s.clone, s.heads) (rounds settings s answers).2 =
        ((rounds settings s answers).1.clone, (rounds settings s answers).1.heads) := by
  induction answers generalizing s with
  | nil => exact ⟨trivial, rfl⟩
  | cons answers later ih =>
      cases hreturned : s.returned with
      | true =>
          rw [rounds_of_returned s _ hreturned]
          exact ⟨trivial, rfl⟩
      | false =>
          rw [rounds_cons s answers later hreturned]
          have hlater := ih (round settings answers s).1 (List.subset_of_cons_subset hsub)
          have hround := round_spec settings answers s
          generalize (round settings answers s).1 = next at hround hlater ⊢
          generalize (round settings answers s).2 = dispatched at hround ⊢
          cases hround with
          | current hclone hfetch hnew => exact hlater
          | @moved _ _ _ changes hclone hfetch hold hne hdiff =>
              refine ⟨⟨?_, hlater.1⟩, hlater.2⟩
              by_cases hchanges : changesStr changes = []
              · simp only [Follows, RepoAnswers.dispatch, if_pos hchanges]
              · simp only [Follows, RepoAnswers.dispatch, if_neg hchanges]
                exact ⟨_, _, _, hold, rfl, ⟨_, rfl, rfl⟩,
                  ⟨answers, hsub List.mem_cons_self, hdiff⟩, rfl⟩
          | failed before hreturned hattempt =>
              exact ⟨⟨trivial, hlater.1⟩, hlater.2⟩

/-- No commit is passed over: every change set starts at the commit of the dispatch before,
and after any number of rounds the clone and the heads are those that the last dispatch was
made from. -/
theorem dispatches_chained (s : RepoMonitor) (answers : List RepoAnswers) :
    Chained answers s.heads (rounds settings s answers).2 ∧
      lastSeen (s.clone, s.heads) (rounds settings s answers).2 =
        ((rounds settings s answers).1.clone, (rounds settings s answers).1.heads) :=
  chained_of_subset answers answers s (List.Subset.refl _)

end Runs

/-! ## The commit checked out -/

/-- One of the four attempts to clone succeeds. -/
def Recovers (answers : RepoAnswers) : Prop :=
  ∃ i < 4, ∃ head, answers.clone i = .done head

/-- The clone is of the configured repository and the commit of the heads is checked out. -/
def InSync (settings : RepoSettings) (clone : Option Clone) (heads : RepoState) : Prop :=
  ∃ found id, clone = some found ∧ found.url = some settings.url ∧
    found.checkedOut = some id ∧ heads.newHead = some id

/-- Heads are known of the configured repository only. -/
def Located (settings : RepoSettings) (s : RepoMonitor) : Prop :=
  s.heads.newHead = none ∨ ∃ found, s.clone = some found ∧ found.url = some settings.url

section InSync

variable {settings : RepoSettings} {answers : RepoAnswers} {s : RepoMonitor}

theorem located_new {clone : Option Clone} (h : new settings clone = .ok s) :
    Located settings s := by
  cases clone with
  | none =>
      cases h
      exact .inl rfl
  | some found =>
      by_cases hurl : found.url = some settings.url
      · simp only [new, if_pos hurl] at h
        cases hhead : found.head with
        | error cause =>
            rw [hhead] at h
            cases h
        | ok head =>
            rw [hhead] at h
            cases h
            exact .inr ⟨found, rfl, hurl⟩
      · simp only [new, if_neg hurl] at h
        cases h
        exact .inl rfl

theorem located_of_inSync (h : InSync settings s.clone s.heads) : Located settings s := by
  rcases h with ⟨found, id, hclone, hurl, -, -⟩
  exact .inr ⟨found, hclone, hurl⟩

theorem inSync_cloneAttempts {i left : Nat}
    (h : ∃ j < left, ∃ head, answers.clone (i + j) = .done head) :
    InSync settings (cloneAttempts settings answers i left s).2.clone
      (cloneAttempts settings answers i left s).2.heads := by
  induction left generalizing i s with
  | zero =>
      rcases h with ⟨j, hj, -⟩
      omega
  | succ left ih =>
      have hlater (hfails : ∀ head, answers.clone i ≠ .done head) :
          ∃ j < left, ∃ head, answers.clone (i + 1 + j) = .done head := by
        rcases h with ⟨j, hj, head, hdone⟩
        cases j with
        | zero => exact absurd hdone (hfails head)
        | succ j => exact ⟨j, by omega, head, by rw [← hdone]; congr 1; omega⟩
      cases hanswer : answers.clone i with
      | done head =>
          simp only [cloneAttempts, cloneRepo, hanswer]
          exact ⟨_, head, rfl, rfl, rfl, rfl⟩
      | failed cause =>
          simp only [cloneAttempts, cloneRepo, hanswer]
          exact ih (hlater (by simp [hanswer]))
      | removed opens cause =>
          simp only [cloneAttempts, cloneRepo, hanswer]
          exact ih (hlater (by simp [hanswer]))
      | unread placed cause =>
          simp only [cloneAttempts, cloneRepo, hanswer]
          exact ih (hlater (by simp [hanswer]))

/-- A round keeps the clone and the heads, or ends in sync. -/
theorem round_inSync {t : RepoMonitor} {dispatched : List Dispatch}
    (hround : Round settings answers s t dispatched) (hlocated : Located settings s)
    (hrecovers : Recovers answers) :
    (dispatched = [] ∧ t.clone = s.clone ∧ t.heads = s.heads) ∨
      InSync settings t.clone t.heads := by
  cases hround with
  | current hclone hfetch hnew => exact .inl ⟨rfl, rfl, rfl⟩
  | moved hclone hfetch hold hne hdiff =>
      rcases hlocated with hnone | ⟨found, hfound, hurl⟩
      · rw [hnone] at hold
        cases hold
      · rw [hfound] at hclone
        cases hclone
        exact .inr ⟨_, _, rfl, hurl, rfl, rfl⟩
  | failed before hreturned hattempt =>
      rcases hrecovers with ⟨i, hi, head, hdone⟩
      exact .inr (inSync_cloneAttempts ⟨i, hi, head, by rw [Nat.zero_add, hdone]⟩)

theorem rounds_inSync (answers : List RepoAnswers) (s : RepoMonitor)
    (hlocated : Located settings s) (hrecovers : ∀ round ∈ answers, Recovers round) :
    ∀ told ∈ (rounds settings s answers).2, InSync settings told.clone told.heads := by
  induction answers generalizing s with
  | nil =>
      intro told htold
      cases htold
  | cons answers later ih =>
      cases hreturned : s.returned with
      | true =>
          rw [rounds_of_returned s _ hreturned]
          intro told htold
          cases htold
      | false =>
          rw [rounds_cons s answers later hreturned]
          intro told htold
          have hcases := round_inSync (round_spec settings answers s) hlocated
            (hrecovers answers List.mem_cons_self)
          have hnext : Located settings (round settings answers s).1 := by
            rcases hcases with ⟨-, hclone, hheads⟩ | hsync
            · unfold Located
              rw [hclone, hheads]
              exact hlocated
            · exact located_of_inSync hsync
          rcases List.mem_append.mp htold with hnow | hlater
          · rcases List.mem_map.mp hnow with ⟨dispatch, hmem, rfl⟩
            rcases hcases with ⟨hnone, -, -⟩ | hsync
            · rw [hnone] at hmem
              cases hmem
            · exact hsync
          · exact ih _ hnext (fun round h => hrecovers round (List.mem_cons_of_mem _ h)) told hlater

/-- While clones recover, whatever is dispatched is dispatched from the configured repository
at the commit of the heads, also when the monitor found the clone of another one. -/
theorem dispatches_in_sync {clone : Option Clone} (hnew : new settings clone = .ok s)
    (answers : List RepoAnswers) (hrecovers : ∀ round ∈ answers, Recovers round) :
    ∀ told ∈ (rounds settings s answers).2, InSync settings told.clone told.heads :=
  rounds_inSync answers s (located_new hnew) hrecovers

def freshRounds : List RepoAnswers :=
  ["c1", "c2"].map fun id =>
    { fetch := fun _ _ => .ok id
      checkout := .done
      diff := fun _ _ => .ok [⟨.modification, "vm-policies/rules/b.json"⟩]
      clone := fun _ => .done "c1"
      present := fun _ => true
      dir := fun _ _ => .missing }

theorem dispatches_in_sync_fresh :
    (rounds ⟨"git://policies", "main", 60⟩ ⟨none, ⟨none, none⟩, 30, false⟩
        freshRounds).2.length = 2 ∧
      ∀ told ∈ (rounds ⟨"git://policies", "main", 60⟩ ⟨none, ⟨none, none⟩, 30, false⟩
        freshRounds).2, InSync ⟨"git://policies", "main", 60⟩ told.clone told.heads := by
  have hnew : new ⟨"git://policies", "main", 60⟩ none =
      .ok ⟨none, ⟨none, none⟩, 30, false⟩ := rfl
  refine ⟨by decide +kernel, dispatches_in_sync hnew freshRounds ?_⟩
  intro round hround
  rcases List.mem_map.mp hround with ⟨id, -, rfl⟩
  exact ⟨0, by decide, "c1", rfl⟩

end InSync

/-- A round in which git does all that it is asked, apart from cloning. -/
structure Healthy (answers : RepoAnswers) : Prop where
  fetch : ∀ url branch, ∃ id, answers.fetch url branch = .ok id
  checkout : answers.checkout = .done
  diff : ∀ old new, ∃ changes, answers.diff old new = .ok changes

/-- The repository on disk is a clone from this URL. -/
def ClonedFrom (url : Option String) (clone : Option Clone) : Prop :=
  ∃ found, clone = some found ∧ found.url = url

/-- Every attempt to clone fails before the old clone is touched. -/
def Unreachable (answers : RepoAnswers) : Prop :=
  ∀ i, ∃ cause, answers.clone i = .failed cause

section Other

variable {settings : RepoSettings} {answers : RepoAnswers} {s : RepoMonitor} {clone : Clone}

theorem cloneAttempts_of_unreachable (h : Unreachable answers) (i left : Nat) :
    (cloneAttempts settings answers i left s).2 = s := by
  induction left generalizing i with
  | zero => rfl
  | succ left ih =>
      rcases h i with ⟨cause, hanswer⟩
      simp only [cloneAttempts, cloneRepo, hanswer]
      exact ih (i + 1)

theorem Healthy.getUpdate_ok (h : Healthy answers) (settings : RepoSettings)
    (hclone : s.clone = some clone) :
    ∃ id, s.heads.newHead = some id ∧ getUpdate settings answers s = (.ok false, s) ∨
      s.heads.newHead ≠ some id ∧
        getUpdate settings answers s = (.ok true, s.moveTo clone id) := by
  rcases h.fetch clone.url settings.branch with ⟨id, hfetch⟩
  refine ⟨id, ?_⟩
  by_cases hnew : s.heads.newHead = some id
  · exact .inl ⟨hnew, by simp only [getUpdate, hclone, hfetch, if_pos hnew]⟩
  · exact .inr ⟨hnew, by simp only [getUpdate, hclone, hfetch, if_neg hnew, h.checkout]⟩

/-- Once the heads are known, a healthy round does not come to clone. -/
theorem Healthy.round_keeps (h : Healthy answers) (settings : RepoSettings) {old : String}
    (hclone : s.clone = some clone) (hold : s.heads.newHead = some old) :
    ∃ next id, (round settings answers s).1.clone = some next ∧ next.url = clone.url ∧
      (round settings answers s).1.heads.newHead = some id := by
  rcases h.getUpdate_ok settings hclone with ⟨id, ⟨hnew, hcheck⟩ | ⟨hne, hcheck⟩⟩
  · have hattempt : attempt settings answers s = (.ok (), s, []) := by
      simp only [attempt, hcheck]
    rw [round_of_ok hattempt]
    exact ⟨clone, id, hclone, rfl, hnew⟩
  · have hne_old : old ≠ id := by
      intro heq
      exact hne (by rw [hold, heq])
    rcases h.diff old id with ⟨changes, hdiff⟩
    rw [round_of_ok (attempt_of_diff hcheck hold hne_old hdiff)]
    exact ⟨_, id, rfl, rfl, rfl⟩

theorem Healthy.rounds_keep (settings : RepoSettings) (answers : List RepoAnswers) (s : RepoMonitor)
    {old : String} (hhealthy : ∀ round ∈ answers, Healthy round) (hclone : s.clone = some clone)
    (hold : s.heads.newHead = some old) :
    ClonedFrom clone.url (rounds settings s answers).1.clone ∧
      ∀ told ∈ (rounds settings s answers).2, ClonedFrom clone.url told.clone := by
  induction answers generalizing s clone old with
  | nil => exact ⟨⟨clone, hclone, rfl⟩, by simp [rounds]⟩
  | cons answers later ih =>
      cases hreturned : s.returned with
      | true =>
          rw [rounds_of_returned s _ hreturned]
          exact ⟨⟨clone, hclone, rfl⟩, by simp⟩
      | false =>
          rcases (hhealthy answers List.mem_cons_self).round_keeps settings hclone hold with
            ⟨next, id, hnext, hurl, hid⟩
          have hrest := ih _ (fun round h => hhealthy round (List.mem_cons_of_mem _ h)) hnext hid
          rw [hurl] at hrest
          rw [rounds_cons s answers later hreturned]
          refine ⟨hrest.1, ?_⟩
          intro told htold
          rcases List.mem_append.mp htold with hnow | hlater
          · rcases List.mem_map.mp hnow with ⟨dispatch, -, rfl⟩
            exact ⟨next, hnext, hurl⟩
          · exact hrest.2 told hlater

/-- A monitor that finds the clone of another repository, and cannot clone the configured one
in its first round, dispatches what the other repository has. It stays with the other
repository as long as git serves that one, even when the configured one could be cloned
later. -/
theorem mismatch_follows_other {found : Clone} {first : RepoAnswers} {later : List RepoAnswers}
    (hurl : found.url ≠ some settings.url) (hnew : new settings (some found) = .ok s)
    (hfirst : Healthy first) (hunreachable : Unreachable first)
    (hlater : ∀ round ∈ later, Healthy round) :
    (rounds settings s (first :: later)).2 ≠ [] ∧
      (∀ told ∈ (rounds settings s (first :: later)).2, ClonedFrom found.url told.clone) ∧
      ClonedFrom found.url (rounds settings s (first :: later)).1.clone := by
  simp only [new, if_neg hurl] at hnew
  cases hnew
  rcases hfirst.getUpdate_ok settings (s := ⟨some found, ⟨none, none⟩, 30, false⟩) rfl with
    ⟨id, ⟨hcurrent, -⟩ | ⟨-, hcheck⟩⟩
  · cases hcurrent
  · have hattempt := attempt_of_none rfl hcheck
    have hround : round settings first ⟨some found, ⟨none, none⟩, 30, false⟩ =
        (moveTo ⟨some found, ⟨none, none⟩, 30, false⟩ found id, [.force first.dir]) := by
      simp only [round, hattempt, ensureClone, cloneAttempts_of_unreachable hunreachable,
        List.nil_append]
    rw [rounds_cons _ first later rfl, hround]
    have hrest := Healthy.rounds_keep settings later
      (moveTo ⟨some found, ⟨none, none⟩, 30, false⟩ found id) hlater rfl rfl
    refine ⟨List.cons_ne_nil _ _, ?_, hrest.1⟩
    intro told htold
    rcases List.mem_cons.mp htold with rfl | hmem
    · exact ⟨_, rfl, rfl⟩
    · exact hrest.2 told hmem

def servedRound (clone : Nat → CloneAnswer) : RepoAnswers where
  fetch _ _ := .ok "c2"
  checkout := .done
  diff _ _ := .ok [⟨.addition, "vm-policies/rules/a.json"⟩]
  clone := clone
  present _ := true
  dir _ _ := .missing

theorem healthy_servedRound (clone : Nat → CloneAnswer) : Healthy (servedRound clone) where
  fetch _ _ := ⟨"c2", rfl⟩
  checkout := rfl
  diff _ _ := ⟨_, rfl⟩

def movedSettings : RepoSettings := ⟨"git://new", "master", 300⟩

def otherClone : Clone := ⟨some "git://old", .ok "c1", some "c1"⟩

def movedRounds : RepoMonitor × List Told :=
  rounds movedSettings ⟨some otherClone, ⟨none, none⟩, 30, false⟩
    [servedRound fun _ => .failed "timeout", servedRound fun _ => .done "n1"]

theorem mismatch_follows_other_moved :
    movedRounds.2 ≠ [] ∧
      (∀ told ∈ movedRounds.2, ClonedFrom (some "git://old") told.clone) ∧
      ClonedFrom (some "git://old") movedRounds.1.clone := by
  have hurl : otherClone.url ≠ some movedSettings.url := by decide
  have hnew : new movedSettings (some otherClone) =
      .ok ⟨some otherClone, ⟨none, none⟩, 30, false⟩ := by decide +kernel
  refine mismatch_follows_other hurl hnew (healthy_servedRound _) ?_ ?_
  · intro i
    exact ⟨"timeout", rfl⟩
  · intro round hround
    rw [List.mem_singleton.mp hround]
    exact healthy_servedRound _

end Other

end RepoMonitor

end GhafGivc.Policy
