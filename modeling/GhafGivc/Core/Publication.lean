import GhafGivc.Core.Transition
import Mathlib.Order.Basic

/-! # Publications to one store

Clients upload objects under keys and then publish, under a reference, a record that names
such keys. Their uploads interleave in any order, and a client can stop for good after any
of them. An upload that was reported as failed may have been stored.
-/

namespace Core.Publication

variable {ι K C R M : Type}

inductive Upload (K C R M : Type) where
  | object (key : K) (content : C)
  | record (reference : R) (image : M)
deriving DecidableEq

structure ObjectStore (K C R M : Type) where
  objects : K → Option C
  records : R → Option M

def ObjectStore.empty : ObjectStore K C R M := ⟨fun _ => none, fun _ => none⟩

/-- An upload and its report: `true` if the client was told that it succeeded. -/
abbrev Script (K C R M : Type) := List (Upload K C R M × Bool)

/-- The store, and how many of its uploads each client has made. -/
structure State (ι K C R M : Type) where
  store : ObjectStore K C R M
  position : ι → Nat

def start : State ι K C R M := ⟨.empty, fun _ => 0⟩

/-- Two objects under one key are the same. -/
def Addressed (scripts : ι → Script K C R M) : Prop :=
  ∀ i j key content content' done done', (.object key content, done) ∈ scripts i →
    (.object key content', done') ∈ scripts j → content = content'

/-- What was uploaded can be read, there is a record where one was uploaded, and a record in
the store was uploaded by a client. -/
structure Inv (scripts : ι → Script K C R M) (s : State ι K C R M) : Prop where
  uploaded : ∀ i n key content, n < s.position i →
    (scripts i)[n]? = some (.object key content, true) → s.store.objects key = some content
  visible : ∀ i n reference image, n < s.position i →
    (scripts i)[n]? = some (.record reference image, true) → s.store.records reference ≠ none
  published : ∀ reference image, s.store.records reference = some image →
    ∃ i n done, n < s.position i ∧ (scripts i)[n]? = some (.record reference image, done)

/-- Everything that the record needs is uploaded, and reported as done, before the record
is. -/
def Ordered (scripts : ι → Script K C R M) (Needs : ι → M → K → C → Prop) : Prop :=
  ∀ (i : ι) (n : Nat) (reference : R) (image : M) (done : Bool),
    (scripts i)[n]? = some (Upload.record reference image, done) →
    ∀ key content, Needs i image key content →
      ∃ m < n, (scripts i)[m]? = some (Upload.object key content, true)

theorem inv_start (scripts : ι → Script K C R M) : Inv scripts (start : State ι K C R M) where
  uploaded i n key content hn := absurd hn (Nat.not_lt_zero n)
  visible i n reference image hn := absurd hn (Nat.not_lt_zero n)
  published reference image h := by cases h

section Apply

variable [DecidableEq K] [DecidableEq R] {store : ObjectStore K C R M} {reference : R}
  {upload : Upload K C R M}

def Upload.apply (store : ObjectStore K C R M) : Upload K C R M → ObjectStore K C R M
  | object key content => { store with objects := Function.update store.objects key (some content) }
  | record reference image =>
      { store with records := Function.update store.records reference (some image) }

theorem Upload.objects_apply_of_addressed {scripts : ι → Script K C R M}
    (haddressed : Addressed scripts) {i j : ι} {done done' : Bool} {key : K} {content : C}
    (hupload : (upload, done) ∈ scripts i) (hobject : (.object key content, done') ∈ scripts j)
    (hstored : store.objects key = some content) :
    (upload.apply store).objects key = some content := by
  cases upload with
  | record reference image => exact hstored
  | object key' content' =>
      change Function.update store.objects key' (some content') key = some content
      by_cases hkey : key = key'
      · subst hkey
        rw [Function.update_self, haddressed i j key content' content done done' hupload hobject]
      · rw [Function.update_of_ne hkey, hstored]

theorem Upload.records_apply_ne_none (upload : Upload K C R M)
    (h : store.records reference ≠ none) : (upload.apply store).records reference ≠ none := by
  cases upload with
  | object key content => exact h
  | record reference' image =>
      change Function.update store.records reference' (some image) reference ≠ none
      by_cases hreference : reference = reference'
      · subst hreference
        simp
      · rw [Function.update_of_ne hreference]
        exact h

theorem Upload.of_records_apply {image : M}
    (h : (upload.apply store).records reference = some image) :
    store.records reference = some image ∨ upload = .record reference image := by
  cases upload with
  | object key content => exact Or.inl h
  | record reference' image' =>
      change Function.update store.records reference' (some image') reference = some image at h
      by_cases hreference : reference = reference'
      · subst hreference
        rw [Function.update_self] at h
        cases h
        exact Or.inr rfl
      · rw [Function.update_of_ne hreference] at h
        exact Or.inl h

end Apply

section Step

variable [DecidableEq ι] [DecidableEq K] [DecidableEq R]

/-- The next upload of one client; the flag says whether it is stored when it is reported
as failed. -/
def step (scripts : ι → Script K C R M) (s : State ι K C R M) (l : ι × Bool) :
    Option (State ι K C R M) :=
  match (scripts l.1)[s.position l.1]? with
  | none => none
  | some (upload, done) =>
      some ⟨if done || l.2 then upload.apply s.store else s.store,
        Function.update s.position l.1 (s.position l.1 + 1)⟩

variable {scripts : ι → Script K C R M} {s t : State ι K C R M} {l : ι × Bool}
  {ls : List (ι × Bool)}

/-- A step makes the next upload of a client, or only counts it. -/
theorem step_cases (h : step scripts s l = some t) :
    ∃ upload done, (scripts l.1)[s.position l.1]? = some (upload, done) ∧
      t.position = Function.update s.position l.1 (s.position l.1 + 1) ∧
      (t.store = upload.apply s.store ∨ done = false ∧ t.store = s.store) := by
  unfold step at h
  cases hnext : (scripts l.1)[s.position l.1]? with
  | none =>
      rw [hnext] at h
      cases h
  | some event =>
      rw [hnext] at h
      cases h
      refine ⟨event.1, event.2, rfl, rfl, ?_⟩
      cases hdone : event.2 with
      | true => exact Or.inl rfl
      | false =>
          cases l.2 with
          | true => exact Or.inl rfl
          | false => exact Or.inr ⟨rfl, rfl⟩

theorem position_le_of_step (h : step scripts s l = some t) (i : ι) :
    s.position i ≤ t.position i := by
  rcases step_cases h with ⟨_, _, _, hposition, _⟩
  rw [hposition]
  by_cases hi : i = l.1
  · subst hi
    simp
  · exact Nat.le_of_eq (Function.update_of_ne hi _ _).symm

theorem lt_position_of_step (h : step scripts s l = some t) {i : ι} {n : Nat}
    (hn : n < t.position i) : n < s.position i ∨ i = l.1 ∧ n = s.position i := by
  rcases step_cases h with ⟨_, _, _, hposition, _⟩
  rw [hposition] at hn
  by_cases hi : i = l.1
  · subst hi
    rw [Function.update_self] at hn
    rcases Nat.lt_succ_iff_lt_or_eq.mp hn with hold | hnew
    · exact Or.inl hold
    · exact Or.inr ⟨rfl, hnew⟩
  · rw [Function.update_of_ne hi] at hn
    exact Or.inl hn

theorem Inv.step (haddressed : Addressed scripts) (hs : Inv scripts s)
    (h : step scripts s l = some t) : Inv scripts t := by
  rcases step_cases h with ⟨upload, done, hnext, -, hstore⟩
  have hupload : (upload, done) ∈ scripts l.1 := List.mem_of_getElem? hnext
  constructor
  · intro i n key content hn hobject
    rcases lt_position_of_step h hn with hold | ⟨rfl, rfl⟩
    · have hstored := hs.uploaded i n key content hold hobject
      rcases hstore with happly | ⟨-, hsame⟩
      · rw [happly]
        exact Upload.objects_apply_of_addressed haddressed hupload (List.mem_of_getElem? hobject)
          hstored
      · rw [hsame]
        exact hstored
    · cases hnext.symm.trans hobject
      rcases hstore with happly | ⟨hfalse, -⟩
      · rw [happly]
        exact Function.update_self ..
      · cases hfalse
  · intro i n reference image hn hrecord
    rcases lt_position_of_step h hn with hold | ⟨rfl, rfl⟩
    · have hvisible := hs.visible i n reference image hold hrecord
      rcases hstore with happly | ⟨-, hsame⟩
      · rw [happly]
        exact upload.records_apply_ne_none hvisible
      · rw [hsame]
        exact hvisible
    · cases hnext.symm.trans hrecord
      rcases hstore with happly | ⟨hfalse, -⟩
      · rw [happly]
        simp [Upload.apply]
      · cases hfalse
  · intro reference image himage
    have hold : s.store.records reference = some image → ∃ i n done, n < t.position i ∧
        (scripts i)[n]? = some (.record reference image, done) := by
      intro hrecord
      rcases hs.published reference image hrecord with ⟨i, n, done, hn, hrecord⟩
      exact ⟨i, n, done, Nat.lt_of_lt_of_le hn (position_le_of_step h i), hrecord⟩
    rcases hstore with happly | ⟨-, hsame⟩
    · rw [happly] at himage
      rcases Upload.of_records_apply himage with hrecord | hrecord
      · exact hold hrecord
      · subst hrecord
        rcases step_cases h with ⟨_, _, _, hposition, _⟩
        refine ⟨l.1, s.position l.1, done, ?_, hnext⟩
        rw [hposition, Function.update_self]
        exact Nat.lt_succ_self _
    · rw [hsame] at himage
      exact hold himage

theorem Inv.run (haddressed : Addressed scripts) (hs : Inv scripts s)
    (h : run (Publication.step scripts) s ls = some t) : Inv scripts t :=
  run_preserves (fun _ _ _ _ ha hstep => ha.step haddressed hstep) hs h

theorem position_le_of_run (h : run (step scripts) s ls = some t) (i : ι) :
    s.position i ≤ t.position i :=
  run_preserves (P := fun a => s.position i ≤ a.position i)
    (fun _ _ _ _ ha hstep => Nat.le_trans ha (position_le_of_step hstep i)) (Nat.le_refl _) h

/-- A record that can be read was published by one client, and all that it needs can be read
from then on, whatever the clients do. -/
theorem exists_publisher {Needs : ι → M → K → C → Prop} (haddressed : Addressed scripts)
    (hordered : Ordered scripts Needs) (hrun : run (step scripts) start ls = some s) {reference : R}
    {image : M} (himage : s.store.records reference = some image) :
    ∃ i done, (Upload.record reference image, done) ∈ scripts i ∧
      ∀ more t, run (step scripts) s more = some t →
        ∀ key content, Needs i image key content → t.store.objects key = some content := by
  have hs : Inv scripts s := (inv_start scripts).run haddressed hrun
  rcases hs.published reference image himage with ⟨i, n, done, hn, hrecord⟩
  refine ⟨i, done, List.mem_of_getElem? hrecord, ?_⟩
  intro more t hmore key content hneeds
  rcases hordered i n reference image done hrecord key content hneeds with ⟨m, hm, hobject⟩
  have hlater : m < t.position i :=
    Nat.lt_of_lt_of_le (Nat.lt_trans hm hn) (position_le_of_run hmore i)
  exact (hs.run haddressed hmore).uploaded i m key content hlater hobject

end Step

end Core.Publication
