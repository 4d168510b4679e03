import GhafGivc.Policy.Manager

/-! # Change sets of the policy repository

The repository monitor writes the changes between two revisions into one text, and the
manager reads that text back line by line. The monitor ends no line, so the whole list is
one line and the manager sees its first path only. The diff of two trees tells the changed
directories as well, so this path is as a rule a directory.
-/

namespace GhafGivc.Policy

open Core

inductive ChangeKind where
  | modification
  | addition
  | deletion
  | rewrite
deriving DecidableEq

def ChangeKind.letter : ChangeKind → Option Char
  | modification => some 'M'
  | addition => some 'A'
  | deletion => some 'D'
  | rewrite => none

structure Change where
  kind : ChangeKind
  location : String
deriving DecidableEq

def Change.text (change : Change) : List Char :=
  match change.kind.letter with
  | some kind => kind :: ' ' :: change.location.toList
  | none => []

def changesStr (changes : List Change) : List Char := changes.flatMap Change.text

structure RepoState where
  newHead : Option String
  oldHead : Option String
deriving DecidableEq

/-- `get_change_set`, with the changes that the diff of the two trees delivers. -/
def RepoState.getChangeSet (state : RepoState) (changes : List Change) :
    Except String (List Char) :=
  match state.oldHead, state.newHead with
  | none, _ => .error "Old head missing"
  | some _, none => .error "New head missing"
  | some old, some new => if old = new then .ok [] else .ok (changesStr changes)

/-! ## What is wanted and what is heard -/

/-- The change brings a new content of this file of the policy. -/
def Change.Brings (change : Change) (policyName fileName : String) : Prop :=
  (change.kind = .modification ∨ change.kind = .addition) ∧
    change.location.toList =
      "vm-policies/".toList ++ policyName.toList ++ '/' :: fileName.toList ∧
    '/' ∉ policyName.toList ∧ '/' ∉ fileName.toList

/-- The sends that the changes call for. -/
def Wanted (manager : PolicyManager) (present : String → Bool) (changes : List Change)
    (send : Send) : Prop :=
  ∃ change ∈ changes, ∃ fileName, change.Brings send.policyName fileName ∧
    send.file = manager.fullPath send.policyName fileName ∧ present send.file = true ∧
    send.vm ∈ manager.configs.subscribers send.policyName

/-- A file in the store of a policy that has subscribers. -/
def Deliverable (manager : PolicyManager) (present : String → Bool)
    (policyName fileName : String) : Prop :=
  present (manager.fullPath policyName fileName) = true ∧
    manager.configs.subscribers policyName ≠ []

def Brought (changes : List Change) (policyName fileName : String) : Prop :=
  ∃ change ∈ changes, change.Brings policyName fileName

/-- The changes that are told; a rewrite is not. -/
def reported (changes : List Change) : List Change := changes.filter (·.kind ≠ .rewrite)

/-- The list opens with the path of this file: the first path that is told, with the kind
letter of the next change at its end, reads so after any blanks and up to a blank, a slash or
its end. -/
def Opens (changes : List Change) (policyName fileName : String) : Prop :=
  ∃ first rest blanks tail, reported changes = first :: rest ∧
    first.location.toList ++ (rest.head?.bind (·.kind.letter)).toList =
      blanks ++ ("vm-policies/".toList ++ policyName.toList ++ '/' :: fileName.toList) ++ tail ∧
    (∀ c ∈ blanks, Text.isWhitespace c = true) ∧
    (∀ c ∈ policyName.toList ++ fileName.toList, Text.isWhitespace c = false ∧ c ≠ '/') ∧
    ∀ c ∈ tail.head?, Text.isWhitespace c = true ∨ c = '/'

/-- The first change that is told is one of the top directory. It is when each directory
is told before what lies in it. -/
def TopFirst (changes : List Change) : Prop :=
  ∀ first ∈ (reported changes).head?, '/' ∉ first.location.toList

/-- The text of the changes has the manager send what they call for, and nothing else. -/
def NoneLost (manager : PolicyManager) (present : String → Bool) (changes : List Change)
    (text : List Char) : Prop :=
  ∀ send, send ∈ manager.processChangeset present text ↔ Wanted manager present changes send

section Text

variable {changes : List Change} {change : Change} {policyName fileName : String}
  {rest : List Change}

theorem notMem_changesStr (h : ∀ change ∈ changes, '\n' ∉ change.location.toList) :
    '\n' ∉ changesStr changes := by
  intro hmem
  obtain ⟨change, hc, hmem⟩ := List.mem_flatMap.mp hmem
  have hloc := h change hc
  unfold Change.text at hmem
  cases hk : change.kind <;> simp [hk, ChangeKind.letter, hloc] at hmem

theorem isWhitespace_letter {kind : ChangeKind} {k : Char} (h : kind.letter = some k) :
    Text.isWhitespace k = false := by
  cases kind <;> cases h <;> decide

theorem letter_of_mem_reported (h : change ∈ reported changes) :
    ∃ k, change.kind.letter = some k ∧ change.text = k :: ' ' :: change.location.toList := by
  have hk := (List.mem_filter.mp h).2
  cases hkind : change.kind <;> simp [hkind, ChangeKind.letter, Change.text] at hk ⊢

theorem changesStr_reported (changes : List Change) :
    changesStr (reported changes) = changesStr changes := by
  induction changes with
  | nil => rfl
  | cons change rest ih =>
      cases hk : change.kind <;>
        simp [reported, changesStr, Change.text, ChangeKind.letter, hk] at ih ⊢ <;> exact ih

/-- What follows a path does not add to its first word but the next kind letter. -/
theorem head?_splitWhitespace_append_changesStr (location : List Char)
    (h : rest ⊆ reported changes) :
    (Text.splitWhitespace (location ++ changesStr rest)).head? =
      (Text.splitWhitespace (location ++ (rest.head?.bind (·.kind.letter)).toList)).head? := by
  cases rest with
  | nil => rfl
  | cons next rest =>
      obtain ⟨k, hk, htext⟩ := letter_of_mem_reported (h List.mem_cons_self)
      have hstr : location ++ changesStr (next :: rest) =
          (location ++ [k]) ++ ' ' :: (next.location.toList ++ changesStr rest) := by
        simp [changesStr, htext]
      have hne : Text.splitWhitespace (location ++ [k]) ≠ [] :=
        Text.splitWhitespace_ne_nil (by simp) (isWhitespace_letter hk)
      rw [hstr, Text.splitWhitespace_append_cons _ _ (by decide), List.head?_append_of_ne_nil _ hne]
      simp [hk]

/-- The second word of the text is the first word of the first path. -/
theorem splitWhitespace_changesStr {first : Change} (h : reported changes = first :: rest) :
    (Text.splitWhitespace (changesStr changes))[1]? =
      (Text.splitWhitespace (first.location.toList ++
        (rest.head?.bind (·.kind.letter)).toList)).head? := by
  have hsub : first :: rest ⊆ reported changes := h ▸ List.Subset.refl _
  obtain ⟨k, hk, htext⟩ := letter_of_mem_reported (hsub List.mem_cons_self)
  have hstr : changesStr changes = [k] ++ ' ' :: (first.location.toList ++ changesStr rest) := by
    rw [← changesStr_reported, h]
    simp [changesStr, htext]
  have hword : Text.splitWhitespace [k] = [[k]] :=
    Text.splitWhitespace_of_forall_not (by simp) (by simpa using isWhitespace_letter hk)
  rw [← head?_splitWhitespace_append_changesStr _ (List.subset_of_cons_subset hsub), hstr,
    Text.splitWhitespace_append_cons _ _ (by decide), hword]
  simp [List.head?_eq_getElem?]

theorem splitOnP_slash_of_notMem {part : List Char} (h : '/' ∉ part) :
    part.splitOnP (· = '/') = [part] :=
  List.splitOnP_eq_singleton fun _ hc => decide_eq_false fun e => h (e ▸ hc)

theorem target_eq_some {word : List Char} :
    PolicyManager.target word = some (policyName, fileName) ↔
      ∃ tail, word = "vm-policies/".toList ++ policyName.toList ++ '/' :: fileName.toList ++ tail ∧
        '/' ∉ policyName.toList ∧ '/' ∉ fileName.toList ∧ ∀ c ∈ tail.head?, c = '/' := by
  constructor
  · intro h
    obtain ⟨rest, hrest, h⟩ := Option.bind_eq_some_iff.mp h
    split at h
    · rename_i p f parts hparts
      obtain ⟨rfl, rfl⟩ := Prod.mk.inj (Option.some.inj h)
      obtain ⟨hp, hf, tail, rfl, htail⟩ := Delimited.of_splitOn_eq_cons_cons hparts
      refine ⟨tail, ?_, by simpa using hp, by simpa using hf, ?_⟩
      · rw [Text.stripLead_eq_some.mp hrest]
        simp
      · rcases htail with rfl | ⟨more, rfl⟩
        · simp
        · simp
    · cases h
  · intro h
    obtain ⟨tail, rfl, hp, hf, htail⟩ := h
    have hlead : Text.stripLead "vm-policies/".toList ("vm-policies/".toList ++
        policyName.toList ++ '/' :: fileName.toList ++ tail) =
          some (policyName.toList ++ '/' :: (fileName.toList ++ tail)) :=
      Text.stripLead_eq_some.mpr (by simp)
    have hparts : ∃ parts, (fileName.toList ++ tail).splitOnP (· = '/') =
        fileName.toList :: parts := by
      cases tail with
      | nil => exact ⟨[], by rw [List.append_nil, splitOnP_slash_of_notMem hf]⟩
      | cons c tail =>
          obtain rfl := htail c rfl
          rw [List.splitOnP_append_cons _ _ (by simp), splitOnP_slash_of_notMem hf]
          exact ⟨_, rfl⟩
    obtain ⟨parts, hparts⟩ := hparts
    unfold PolicyManager.target
    rw [hlead, Option.bind_eq_bind, Option.bind_some, List.splitOnP_append_cons _ _ (by simp),
      splitOnP_slash_of_notMem hp, hparts]
    simp

theorem not_blank_iff {policyName fileName : List Char} :
    (∀ c ∈ "vm-policies/".toList ++ policyName ++ '/' :: fileName, Text.isWhitespace c = false) ↔
      ∀ c ∈ policyName ++ fileName, Text.isWhitespace c = false := by
  have hlead : "vm-policies/".toList.all (Text.isWhitespace · = false) = true := by decide +kernel
  have hslash : Text.isWhitespace '/' = false := by decide
  simp only [List.all_eq_true, decide_eq_true_eq] at hlead
  simp only [List.forall_mem_append, List.forall_mem_cons]
  constructor
  · intro h
    exact ⟨h.1.2, h.2.2⟩
  · intro h
    exact ⟨⟨hlead, h.1⟩, hslash, h.2⟩

theorem opens_iff :
    Opens changes policyName fileName ↔
      ∃ word, (Text.splitWhitespace (changesStr changes))[1]? = some word ∧
        PolicyManager.target word = some (policyName, fileName) := by
  constructor
  · intro h
    obtain ⟨first, rest, blanks, tail, hreported, hpath, hblanks, hnames, htail⟩ := h
    obtain ⟨more, tail, rfl, hmore, hend⟩ := Text.exists_span tail
    have hchars := not_blank_iff.mpr fun c hc => (hnames c hc).1
    rw [splitWhitespace_changesStr hreported, hpath]
    refine ⟨"vm-policies/".toList ++ policyName.toList ++ '/' :: fileName.toList ++ more,
      Text.head?_splitWhitespace_eq_some.mpr ⟨blanks, tail, by simp, hblanks, by simp,
        List.forall_mem_append.mpr ⟨hchars, hmore⟩, hend⟩,
      target_eq_some.mpr ⟨more, rfl, fun hs => (hnames _ (by simp [hs])).2 rfl,
        fun hs => (hnames _ (by simp [hs])).2 rfl, ?_⟩⟩
    intro c hc
    have hhead : c ∈ (more ++ tail).head? := by simp [List.head?_append, Option.mem_def.mp hc]
    rcases htail c hhead with hblank | hslash
    · rw [hmore c (List.mem_of_head? hc)] at hblank
      cases hblank
    · exact hslash
  · intro h
    obtain ⟨word, hword, htarget⟩ := h
    cases hreported : reported changes with
    | nil =>
        rw [← changesStr_reported, hreported] at hword
        cases hword
    | cons first rest =>
        rw [splitWhitespace_changesStr hreported] at hword
        obtain ⟨blanks, tail, hpath, hblanks, _, hchars, htail⟩ :=
          Text.head?_splitWhitespace_eq_some.mp hword
        obtain ⟨more, rfl, hp, hf, hmore⟩ := target_eq_some.mp htarget
        have hnames := not_blank_iff.mp (List.forall_mem_append.mp hchars).1
        refine ⟨first, rest, blanks, more ++ tail, hreported, by rw [hpath]; simp, hblanks, ?_, ?_⟩
        · intro c hc
          refine ⟨hnames c hc, fun e => ?_⟩
          subst e
          rcases List.mem_append.mp hc with hmem | hmem
          · exact hp hmem
          · exact hf hmem
        · intro c hc
          cases more with
          | nil => exact Or.inl (htail c hc)
          | cons d more => exact Or.inr (hmore c hc)

theorem not_opens_of_topFirst (h : TopFirst changes) : ¬ Opens changes policyName fileName := by
  intro hopens
  obtain ⟨first, rest, blanks, tail, hreported, hpath, -⟩ := hopens
  have hslash : '/' ∈ first.location.toList ++ (rest.head?.bind (·.kind.letter)).toList := by
    rw [hpath]
    simp
  rcases List.mem_append.mp hslash with hmem | hmem
  · exact h first (by rw [hreported]; rfl) hmem
  · obtain ⟨next, _, hletter⟩ := Option.bind_eq_some_iff.mp (Option.mem_toList.mp hmem)
    cases hk : next.kind <;> rw [hk] at hletter <;> cases hletter

end Text

section Sends

variable {manager : PolicyManager} {present : String → Bool} {changes : List Change}

theorem processChangeset_changesStr (h : ∀ change ∈ changes, '\n' ∉ change.location.toList) :
    manager.processChangeset present (changesStr changes) =
      match (Text.splitWhitespace (changesStr changes))[1]? with
      | none => []
      | some word => manager.processPath present word := by
  by_cases hne : changesStr changes = []
  · rw [hne]
    rfl
  · unfold PolicyManager.processChangeset
    rewrite [Text.lines_of_notMem (notMem_changesStr h) hne, List.flatMap_singleton,
      Text.splitWhitespace_trim]
    rfl

theorem mem_processPath {word : List Char} {send : Send} :
    send ∈ manager.processPath present word ↔
      ∃ fileName, PolicyManager.target word = some (send.policyName, fileName) ∧
        send.file = manager.fullPath send.policyName fileName ∧ present send.file = true ∧
        send.vm ∈ manager.configs.subscribers send.policyName := by
  unfold PolicyManager.processPath
  cases ht : PolicyManager.target word with
  | none => simp
  | some target =>
      obtain ⟨policyName, fileName⟩ := target
      dsimp only
      split
      · rename_i hp
        simp only [List.mem_map, Option.some.injEq, Prod.mk.injEq]
        constructor
        · rintro ⟨vm, hvm, rfl⟩
          exact ⟨fileName, ⟨rfl, rfl⟩, rfl, hp, hvm⟩
        · rintro ⟨_, ⟨rfl, rfl⟩, hfile, _, hvm⟩
          exact ⟨send.vm, hvm, by rw [← hfile]⟩
      · rename_i hp
        simp only [List.not_mem_nil, Option.some.injEq, Prod.mk.injEq, false_iff, not_exists,
          not_and]
        rintro _ ⟨rfl, rfl⟩ hfile hpresent
        exact absurd (hfile ▸ hpresent) hp

theorem head?_ne_of_notMem {name : String} (h : '/' ∉ name.toList) :
    name.toList.head? ≠ some '/' :=
  fun e => h (List.mem_of_head? e)

theorem joinPath_inj {base f f' : String} (hf : '/' ∉ f.toList) (hf' : '/' ∉ f'.toList)
    (h : Image.joinPath base f = Image.joinPath base f') : f = f' := by
  unfold Image.joinPath at h
  rw [if_neg (head?_ne_of_notMem hf), if_neg (head?_ne_of_notMem hf')] at h
  split at h
  · exact (String.append_right_inj _).mp h
  · exact (String.append_right_inj _).mp h

theorem fullPath_inj {policyName f f' : String} (hf : '/' ∉ f.toList) (hf' : '/' ∉ f'.toList)
    (h : manager.fullPath policyName f = manager.fullPath policyName f') : f = f' :=
  joinPath_inj hf hf' h

theorem getChangeSet_eq_ok {state : RepoState} {text : List Char}
    (hmoved : state.oldHead ≠ state.newHead) (h : state.getChangeSet changes = .ok text) :
    text = changesStr changes := by
  unfold RepoState.getChangeSet at h
  split at h
  · cases h
  · cases h
  · rename_i old new ho hn
    have hne : old ≠ new := fun e => hmoved (by rw [ho, hn, e])
    rw [if_neg hne] at h
    exact (Except.ok.inj h).symm

theorem mem_processChangeset (hlines : ∀ change ∈ changes, '\n' ∉ change.location.toList)
    {send : Send} :
    send ∈ manager.processChangeset present (changesStr changes) ↔
      ∃ fileName, Opens changes send.policyName fileName ∧
        send.file = manager.fullPath send.policyName fileName ∧ present send.file = true ∧
        send.vm ∈ manager.configs.subscribers send.policyName := by
  simp only [opens_iff]
  rw [processChangeset_changesStr hlines]
  cases (Text.splitWhitespace (changesStr changes))[1]? with
  | none => simp
  | some word => simp [mem_processPath]

theorem Opens.notMem {policyName fileName : String} (h : Opens changes policyName fileName) :
    '/' ∉ fileName.toList := by
  obtain ⟨word, _, htarget⟩ := opens_iff.mp h
  obtain ⟨_, _, _, hf, _⟩ := target_eq_some.mp htarget
  exact hf

theorem noneLost_changesStr_iff (hlines : ∀ change ∈ changes, '\n' ∉ change.location.toList) :
    NoneLost manager present changes (changesStr changes) ↔
      ∀ policyName fileName, Deliverable manager present policyName fileName →
        (Brought changes policyName fileName ↔ Opens changes policyName fileName) := by
  constructor
  · intro h policyName fileName ⟨hpresent, hvms⟩
    obtain ⟨vm, hvm⟩ := List.exists_mem_of_ne_nil _ hvms
    have hsend := h ⟨vm, policyName, manager.fullPath policyName fileName⟩
    rw [mem_processChangeset hlines] at hsend
    constructor
    · rintro ⟨change, hchange, hbrings⟩
      obtain ⟨f, hopens, hfile, _⟩ :=
        hsend.mpr ⟨change, hchange, fileName, hbrings, rfl, hpresent, hvm⟩
      obtain rfl := fullPath_inj hbrings.2.2.2 hopens.notMem hfile
      exact hopens
    · intro hopens
      obtain ⟨change, hchange, f, hbrings, hfile, _⟩ :=
        hsend.mp ⟨fileName, hopens, rfl, hpresent, hvm⟩
      obtain rfl := fullPath_inj hopens.notMem hbrings.2.2.2 hfile
      exact ⟨change, hchange, hbrings⟩
  · intro h send
    rw [mem_processChangeset hlines]
    constructor
    · rintro ⟨f, hopens, hfile, hpresent, hvm⟩
      have hdel : Deliverable manager present send.policyName f :=
        ⟨hfile ▸ hpresent, List.ne_nil_of_mem hvm⟩
      obtain ⟨change, hchange, hbrings⟩ := (h _ f hdel).mpr hopens
      exact ⟨change, hchange, f, hbrings, hfile, hpresent, hvm⟩
    · rintro ⟨change, hchange, f, hbrings, hfile, hpresent, hvm⟩
      have hdel : Deliverable manager present send.policyName f :=
        ⟨hfile ▸ hpresent, List.ne_nil_of_mem hvm⟩
      exact ⟨f, (h _ f hdel).mp ⟨change, hchange, hbrings⟩, hfile, hpresent, hvm⟩

/-- No change is lost exactly when the list opens with the one file that is to be delivered;
with a directory at its front, exactly when there is none to deliver. -/
theorem processChangeset_wanted_iff {state : RepoState} {text : List Char}
    (hmoved : state.oldHead ≠ state.newHead) (htext : state.getChangeSet changes = .ok text)
    (hlines : ∀ change ∈ changes, '\n' ∉ change.location.toList) :
    (NoneLost manager present changes text ↔
      ∀ policyName fileName, Deliverable manager present policyName fileName →
        (Brought changes policyName fileName ↔ Opens changes policyName fileName)) ∧
    (TopFirst changes →
      (NoneLost manager present changes text ↔
        ∀ policyName fileName, Deliverable manager present policyName fileName →
          ¬ Brought changes policyName fileName)) := by
  obtain rfl := getChangeSet_eq_ok hmoved htext
  refine ⟨noneLost_changesStr_iff hlines, fun htop => ?_⟩
  rw [noneLost_changesStr_iff hlines]
  simp [not_opens_of_topFirst htop]

end Sends

def sampleConfig : PolicyConfig where
  source := ⟨.gitUrl, none, none, none⟩
  policies := [("firewall", ⟨none, ["net-vm"], none⟩), ("usb", ⟨none, ["gui-vm"], none⟩)]
  names_nodup := by decide

def sampleManager : PolicyManager := .new "/etc/policies/data/vm-policies" sampleConfig

def samplePresent (path : String) : Bool :=
  path = "/etc/policies/data/vm-policies/firewall/rules" ||
    path = "/etc/policies/data/vm-policies/audio/rules"

def movedState : RepoState := ⟨some "b", some "a"⟩

/-- The changed file with the directories above it, as the diff of two trees tells them. -/
def rulesChanges (policyName : String) : List Change :=
  [⟨.modification, "vm-policies"⟩, ⟨.modification, "vm-policies/" ++ policyName⟩,
    ⟨.modification, "vm-policies/" ++ policyName ++ "/rules"⟩]

theorem rulesChanges_samples :
    (∀ change ∈ rulesChanges "audio", '\n' ∉ change.location.toList) ∧
      (∀ first ∈ (reported (rulesChanges "audio")).head?, '/' ∉ first.location.toList) ∧
      sampleConfig.subscribers "audio" = [] ∧ '/' ∉ "rules".toList ∧
      "/rules".toList = '/' :: "rules".toList ∧ '/' ∉ "vm-policies".toList ∧
      '/' ∉ "audio".toList ∧ '/' ∉ "firewall".toList ∧
      sampleManager.processChangeset samplePresent (changesStr (rulesChanges "firewall")) = [] ∧
      samplePresent (sampleManager.fullPath "firewall" "rules") = true ∧
      sampleManager.configs.subscribers "firewall" = ["net-vm"] := by
  decide +kernel

theorem brought_rulesChanges {name policyName fileName : String} (hname : '/' ∉ name.toList) :
    Brought (rulesChanges name) policyName fileName ↔ policyName = name ∧ fileName = "rules" := by
  obtain ⟨-, -, -, hrules, hslash, htop, -⟩ := rulesChanges_samples
  constructor
  · rintro ⟨change, hmem, _, hloc, hp, _⟩
    simp only [rulesChanges, List.mem_cons, List.not_mem_nil, or_false] at hmem
    rcases hmem with rfl | rfl | rfl
    · exact absurd (hloc ▸ by simp) htop
    · rw [String.toList_append, List.append_assoc, List.append_cancel_left_eq] at hloc
      exact absurd (hloc ▸ by simp) hname
    · rw [String.toList_append, String.toList_append, List.append_assoc, List.append_assoc,
        List.append_cancel_left_eq, hslash] at hloc
      obtain ⟨h₁, h₂⟩ := Prod.mk.inj (Option.some.inj
        ((Delimited.splitOnce_append_cons _ hname).symm.trans
          (hloc ▸ Delimited.splitOnce_append_cons _ hp)))
      exact ⟨(String.toList_inj.mp h₁).symm, (String.toList_inj.mp h₂).symm⟩
  · rintro ⟨rfl, rfl⟩
    refine ⟨⟨.modification, "vm-policies/" ++ policyName ++ "/rules"⟩, by simp [rulesChanges],
      Or.inl rfl, ?_, hname, hrules⟩
    rw [String.toList_append, String.toList_append, hslash]

theorem processChangeset_wanted_iff_audio :
    TopFirst (rulesChanges "audio") ∧ Brought (rulesChanges "audio") "audio" "rules" ∧
      NoneLost sampleManager samplePresent (rulesChanges "audio")
        (changesStr (rulesChanges "audio")) := by
  obtain ⟨hlines, htop, hvms, -, -, -, haudio, -⟩ := rulesChanges_samples
  have hmoved : movedState.oldHead ≠ movedState.newHead := by decide
  refine ⟨htop, (brought_rulesChanges haudio).mpr ⟨rfl, rfl⟩,
    ((processChangeset_wanted_iff hmoved rfl hlines).2 htop).mpr ?_⟩
  intro policyName fileName hdel hbrought
  obtain ⟨rfl, rfl⟩ := (brought_rulesChanges haudio).mp hbrought
  exact hdel.2 hvms

/-- One file of a policy that net-vm is subscribed to was changed, and nothing is sent. -/
theorem processChangeset_misses_changes :
    movedState.getChangeSet (rulesChanges "firewall") =
        .ok (changesStr (rulesChanges "firewall")) ∧
      sampleManager.processChangeset samplePresent (changesStr (rulesChanges "firewall")) = [] ∧
      ¬ NoneLost sampleManager samplePresent (rulesChanges "firewall")
        (changesStr (rulesChanges "firewall")) := by
  obtain ⟨-, -, -, -, -, -, -, hname, hnone, hpresent, hvms⟩ := rulesChanges_samples
  refine ⟨rfl, hnone, fun h => ?_⟩
  obtain ⟨change, hchange, hbrings⟩ := (brought_rulesChanges hname).mpr ⟨rfl, rfl⟩
  have hmem := (h ⟨"net-vm", "firewall", sampleManager.fullPath "firewall" "rules"⟩).mpr
    ⟨change, hchange, "rules", hbrings, rfl, hpresent, by simp [hvms]⟩
  rw [hnone] at hmem
  cases hmem

end GhafGivc.Policy
