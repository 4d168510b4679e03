import GhafGivc.Core.Fallible
import GhafGivc.Core.Pattern
import GhafGivc.Core.Persisted
import GhafGivc.Core.Text

/-! # Locale and timezone

`set_locale` and `set_timezone` validate a request, write it to a configuration file, collect
the managers to inform, and assign the value in memory. `new` restores the values from the
files when the service starts.
-/

namespace GhafGivc.Admin

open Core Core.Pattern

/-- `^(?:C|POSIX|[a-z]{2}(?:_[A-Z]{2})?(?:@[a-zA-Z0-9]+)?)(?:\.[-a-zA-Z0-9]+)?$` -/
def localePattern : RegularExpression Char :=
  (literal "C".toList + (literal "POSIX".toList +
    oneOf lower * (oneOf lower * (optional (literal "_".toList * (oneOf upper * oneOf upper)) *
      optional (literal "@".toList * many1 (oneOf alnum)))))) *
  optional (literal ".".toList * many1 (oneOf ('-' :: alnum)))

/-- `^[A-Z][-+a-zA-Z0-9]*(?:/[A-Z][-+a-zA-Z0-9_]*)*$` -/
def timezonePattern : RegularExpression Char :=
  oneOf upper * ((oneOf ('-' :: '+' :: alnum)).star *
    (literal "/".toList * (oneOf upper * (oneOf ('-' :: '+' :: '_' :: alnum)).star)).star)

namespace Validator

def validateLocale (locale : String) : Bool := localePattern.rmatch locale.toList

def validateTimezone (timezone : String) : Bool := timezonePattern.rmatch timezone.toList

end Validator

/-! ## Assignments -/

inductive LocaleMacroKey where
  | lang | lcAddress | lcCollate | lcCtype | lcIdentification | lcMonetary | lcMessages
  | lcMeasurement | lcName | lcNumeric | lcPaper | lcTelephone | lcTime | lcAll
deriving DecidableEq

namespace LocaleMacroKey

def all : List LocaleMacroKey :=
  [lang, lcAddress, lcCollate, lcCtype, lcIdentification, lcMonetary, lcMessages, lcMeasurement,
    lcName, lcNumeric, lcPaper, lcTelephone, lcTime, lcAll]

def asI32 : LocaleMacroKey → Int
  | lang => 0
  | lcAddress => 1
  | lcCollate => 2
  | lcCtype => 3
  | lcIdentification => 4
  | lcMonetary => 5
  | lcMessages => 6
  | lcMeasurement => 7
  | lcName => 8
  | lcNumeric => 9
  | lcPaper => 10
  | lcTelephone => 11
  | lcTime => 12
  | lcAll => 13

def asStrName : LocaleMacroKey → String
  | lang => "LANG"
  | lcAddress => "LC_ADDRESS"
  | lcCollate => "LC_COLLATE"
  | lcCtype => "LC_CTYPE"
  | lcIdentification => "LC_IDENTIFICATION"
  | lcMonetary => "LC_MONETARY"
  | lcMessages => "LC_MESSAGES"
  | lcMeasurement => "LC_MEASUREMENT"
  | lcName => "LC_NAME"
  | lcNumeric => "LC_NUMERIC"
  | lcPaper => "LC_PAPER"
  | lcTelephone => "LC_TELEPHONE"
  | lcTime => "LC_TIME"
  | lcAll => "LC_ALL"

def tryFrom (key : Int) : Option LocaleMacroKey := all.find? fun k => k.asI32 = key

def fromStrName (name : String) : Option LocaleMacroKey := all.find? fun k => k.asStrName = name

theorem asI32_of_tryFrom {key : Int} {k : LocaleMacroKey} (h : tryFrom key = some k) :
    k.asI32 = key := by
  simpa using List.find?_some h

theorem fromStrName_asStrName (k : LocaleMacroKey) : fromStrName k.asStrName = some k := by
  cases k <;> decide

theorem asStrName_plain (k : LocaleMacroKey) :
    '=' ∉ k.asStrName.toList ∧ '\n' ∉ k.asStrName.toList := by
  cases k <;> decide

end LocaleMacroKey

structure LocaleAssignment where
  key : Int
  value : String
deriving DecidableEq

def checkAssignment (a : LocaleAssignment) : Except String Unit :=
  if a.value = "" then throw ("Empty locale value for " ++ toString a.key)
  else if Validator.validateLocale a.value = false then throw ("Invalid locale value " ++ a.value)
  else pure ()

def assignmentLine (a : LocaleAssignment) : Except String String :=
  match LocaleMacroKey.tryFrom a.key with
  | some key => pure (key.asStrName ++ "=" ++ a.value)
  | none => throw ("unknown enumeration value " ++ toString a.key)

def localeContent (assignments : List LocaleAssignment) : Except String String := do
  if assignments = [] then throw "No locale assignments provided"
  assignments.forM checkAssignment
  let lines ← assignments.mapM assignmentLine
  return "\n".intercalate lines

def timezoneContent (timezone : String) : Except String String :=
  if Validator.validateTimezone timezone then pure timezone else throw "Invalid timezone"

/-! ## Restoring -/

def parseAssignment (line : List Char) : Option LocaleAssignment := do
  let (key, value) ← Delimited.splitOnce '=' line
  let key ← LocaleMacroKey.fromStrName (String.ofList key)
  return ⟨key.asI32, String.ofList value⟩

def restoreLocale : Option String → List LocaleAssignment
  | none => []
  | some content => (Text.lines content.toList).filterMap parseAssignment

def restoreTimezone : Option String → String
  | none => ""
  | some content => ((Text.lines content.toList).head?.map String.ofList).getD ""

section RoundTrip

variable {a : LocaleAssignment} {line content : String} {assignments : List LocaleAssignment}

theorem locale_plain {value : String} (h : Validator.validateLocale value = true) :
    '\n' ∉ value.toList ∧ '\r' ∉ value.toList := by
  have hsymbols := mem_symbols_of_rmatch h
  constructor
  · intro hin
    exact absurd (hsymbols _ hin) (by decide +kernel)
  · intro hin
    exact absurd (hsymbols _ hin) (by decide +kernel)

theorem timezone_plain {value : String} (h : Validator.validateTimezone value = true) :
    '\n' ∉ value.toList ∧ value.toList ≠ [] := by
  constructor
  · intro hin
    exact absurd (mem_symbols_of_rmatch h _ hin) (by decide +kernel)
  · intro hempty
    rw [Validator.validateTimezone, hempty] at h
    exact absurd h (by decide +kernel)

theorem checkAssignment_eq_ok (h : checkAssignment a = .ok ()) :
    Validator.validateLocale a.value = true := by
  unfold checkAssignment at h
  split at h
  · cases h
  · split at h
    · cases h
    · rename_i hvalid
      simpa using hvalid

theorem assignmentLine_eq_ok (h : assignmentLine a = .ok line)
    (hvalid : Validator.validateLocale a.value = true) :
    parseAssignment line.toList = some a ∧ '\n' ∉ line.toList ∧ line.toList ≠ [] ∧
      line.toList.getLast? ≠ some '\r' := by
  unfold assignmentLine at h
  split at h
  · rename_i key hkey
    cases Except.ok.inj h
    have hplain := key.asStrName_plain
    have hvalue := locale_plain hvalid
    have hline : (key.asStrName ++ "=" ++ a.value).toList =
        key.asStrName.toList ++ '=' :: a.value.toList := by
      simp
    rw [hline]
    refine ⟨?_, by simp [hplain.2, hvalue.1], by simp, fun hlast => ?_⟩
    · rw [parseAssignment, Delimited.splitOnce_append_cons _ hplain.1]
      simp [LocaleMacroKey.fromStrName_asStrName, LocaleMacroKey.asI32_of_tryFrom hkey]
    · have hin := List.mem_of_getLast? hlast
      rw [List.mem_append, List.mem_cons] at hin
      rcases hin with hin | hin | hin
      · cases key <;> exact absurd hin (by decide)
      · cases hin
      · exact hvalue.2 hin
  · cases h

theorem filterMap_of_forall₂ {α β : Type} {f : β → Option α} {Q : β → Prop} {as : List α}
    {bs : List β} (h : List.Forall₂ (fun a b => f b = some a ∧ Q b) as bs) :
    bs.filterMap f = as ∧ ∀ b ∈ bs, Q b := by
  induction h with
  | nil => simp
  | cons hhead _ ih =>
      rw [List.filterMap_cons_some hhead.1, ih.1, List.forall_mem_cons]
      exact ⟨rfl, hhead.2, ih.2⟩

theorem restoreLocale_localeContent (h : localeContent assignments = .ok content) :
    restoreLocale (some content) = assignments := by
  unfold localeContent at h
  split at h
  · cases h
  · rename_i hne
    rcases Fallible.bind_eq_ok.mp h with ⟨_, hcheck, h⟩
    rcases Fallible.bind_eq_ok.mp h with ⟨lines, hlines, h⟩
    cases Except.ok.inj h
    have hvalid : ∀ a ∈ assignments, Validator.validateLocale a.value = true :=
      fun a ha => checkAssignment_eq_ok (Fallible.forM_eq_ok.mp hcheck a ha)
    have hpairs := Fallible.mapM_eq_ok.mp hlines
    have hread : List.Forall₂ (fun a line => parseAssignment line = some a ∧ '\n' ∉ line ∧
        line ≠ [] ∧ line.getLast? ≠ some '\r') assignments (lines.map String.toList) :=
      List.forall₂_map_right_iff.mpr (((List.forall₂_and_left _ _).mpr ⟨hvalid, hpairs⟩).imp
        fun a line hline => assignmentLine_eq_ok hline.2 hline.1)
    rcases filterMap_of_forall₂ hread with ⟨hback, hplain⟩
    have hnonempty : lines.map String.toList ≠ [] := by
      intro hempty
      rw [hempty] at hback
      exact hne hback.symm
    rw [restoreLocale, String.toList_intercalate]
    change (Text.lines (['\n'].intercalate (lines.map String.toList))).filterMap _ = _
    rw [Text.lines_intercalate hnonempty (fun part hpart => (hplain part hpart).1)
      (fun part hpart => (hplain part hpart).2.1) (fun part hpart => (hplain part hpart).2.2)]
    exact hback

theorem restoreTimezone_timezoneContent {timezone : String}
    (h : timezoneContent timezone = .ok content) : restoreTimezone (some content) = timezone := by
  unfold timezoneContent at h
  split at h
  · rename_i hvalid
    cases Except.ok.inj h
    have hplain := timezone_plain hvalid
    simp [restoreTimezone, Text.lines_of_notMem hplain.1 hplain.2]
  · cases h

end RoundTrip

/-! ## Requests in any order -/

structure Settings where
  locale : Persisted.State (Option String) (List LocaleAssignment)
  timezone : Persisted.State (Option String) String

namespace Settings

/-- The value of a request that is not refused. -/
def accepted {ρ : Type} (content : ρ → Except String String) (req : ρ) : Option ρ :=
  (content req).toOption.map fun _ => req

def written {ρ : Type} (content : ρ → Except String String) (req : ρ) : Option String :=
  (content req).toOption

theorem restore_written {ρ : Type} {content : ρ → Except String String}
    {restore : Option String → ρ}
    (h : ∀ req text, content req = .ok text → restore (some text) = req) (req value : ρ)
    (haccepted : accepted content req = some value) :
    restore (written content value) = value := by
  rcases Option.map_eq_some_iff.mp haccepted with ⟨text, htext, heq⟩
  subst heq
  cases hcontent : content req with
  | error message =>
      rw [hcontent] at htext
      cases htext
  | ok found =>
      rw [written, hcontent]
      exact h req found hcontent

inductive Label where
  | locale (l : Persisted.Label (List LocaleAssignment))
  | timezone (l : Persisted.Label String)

def step (s : Settings) : Label → Option Settings
  | .locale l =>
      (Persisted.step (accepted localeContent) (written localeContent) s.locale l).map
        fun locale => { s with locale := locale }
  | .timezone l =>
      (Persisted.step (accepted timezoneContent) (written timezoneContent) s.timezone l).map
        fun timezone => { s with timezone := timezone }

def new (localeConf timezoneConf : Option String) : Settings :=
  ⟨Persisted.start localeConf (restoreLocale localeConf),
    Persisted.start timezoneConf (restoreTimezone timezoneConf)⟩

/-- A write to one of the files finds no request of its kind that has written and not yet
assigned. -/
def Undisturbed (s : Settings) : Label → Prop
  | .locale l => s.locale.Undisturbed l
  | .timezone l => s.timezone.Undisturbed l

abbrev Reachable (localeConf timezoneConf : Option String) : Settings → Prop :=
  Reach step (fun _ _ => True) (· = new localeConf timezoneConf)

abbrev ReachableApart (localeConf timezoneConf : Option String) : Settings → Prop :=
  Reach step Undisturbed (· = new localeConf timezoneConf)

def Finished (s : Settings) : Prop := s.locale.Finished ∧ s.timezone.Finished

/-- After a restart the service has the values it has now. -/
def Agrees (s : Settings) : Prop :=
  (new s.locale.file s.timezone.file).locale.memory = s.locale.memory ∧
    (new s.locale.file s.timezone.file).timezone.memory = s.timezone.memory

variable {s : Settings} {localeConf timezoneConf : Option String}

theorem inv_of_reachable (h : s.ReachableApart localeConf timezoneConf) :
    Persisted.Inv (accepted localeContent) restoreLocale (written localeContent) s.locale ∧
      Persisted.Inv (accepted timezoneContent) restoreTimezone (written timezoneContent)
        s.timezone := by
  refine Reach.invariant (P := fun s =>
    Persisted.Inv (accepted localeContent) restoreLocale (written localeContent) s.locale ∧
      Persisted.Inv (accepted timezoneContent) restoreTimezone (written timezoneContent)
        s.timezone) ?_ ?_ h
  · intro s hs
    subst hs
    exact ⟨Persisted.inv_start _ _ rfl, Persisted.inv_start _ _ rfl⟩
  · intro s l t hs hok hstep
    cases l with
    | locale l =>
        rcases Option.map_eq_some_iff.mp hstep with ⟨locale, hlocale, heq⟩
        subst heq
        exact ⟨hs.1.step hok (restore_written fun _ _ hcontent =>
          restoreLocale_localeContent hcontent) hlocale, hs.2⟩
    | timezone l =>
        rcases Option.map_eq_some_iff.mp hstep with ⟨timezone, htimezone, heq⟩
        subst heq
        exact ⟨hs.1, hs.2.step hok (restore_written fun _ _ hcontent =>
          restoreTimezone_timezoneContent hcontent) htimezone⟩

def serve {ρ : Type} (i : Nat) (req : ρ) : List (Persisted.Label ρ) :=
  [.validate i req, .write i, .collect i, .assign i]

/-! ## One request and a restart -/

theorem run_locale (s : Settings) (labels : List (Persisted.Label (List LocaleAssignment))) :
    run step s (labels.map .locale) =
      (run (Persisted.step (accepted localeContent) (written localeContent)) s.locale labels).map
        fun locale => { s with locale := locale } := by
  induction labels generalizing s with
  | nil => rfl
  | cons l labels ih =>
      cases hl : Persisted.step (accepted localeContent) (written localeContent) s.locale l with
      | none => simp [run, step, hl]
      | some locale => simp [run, step, hl, ih]

theorem run_timezone (s : Settings) (labels : List (Persisted.Label String)) :
    run step s (labels.map .timezone) =
      (run (Persisted.step (accepted timezoneContent) (written timezoneContent)) s.timezone
        labels).map fun timezone => { s with timezone := timezone } := by
  induction labels generalizing s with
  | nil => rfl
  | cons l labels ih =>
      cases hl : Persisted.step (accepted timezoneContent) (written timezoneContent) s.timezone l
        with
      | none => simp [run, step, hl]
      | some timezone => simp [run, step, hl, ih]

/-- A refused request stays where it is in every run. -/
theorem run_of_refused {s t : Settings} {labels : List Label} {i : Nat}
    (h : s.locale.task i = .refused) (hrun : run step s labels = some t) :
    ∀ l, .locale l ∈ labels → l.request ≠ i := by
  induction labels generalizing s with
  | nil => exact fun _ hl => absurd hl List.not_mem_nil
  | cons label labels ih =>
      rcases run_cons_eq_some.mp hrun with ⟨mid, hstep, hrest⟩
      have hhead : (∀ l, label = .locale l → l.request ≠ i) ∧ mid.locale.task i = .refused := by
        cases label with
        | locale l =>
            rcases Option.map_eq_some_iff.mp hstep with ⟨locale, hlocale, heq⟩
            subst heq
            have hother := Persisted.step_of_refused h hlocale
            exact ⟨fun l' hl' => Label.locale.inj hl' ▸ hother.1, hother.2⟩
        | timezone l =>
            rcases Option.map_eq_some_iff.mp hstep with ⟨timezone, -, heq⟩
            subst heq
            exact ⟨fun l' hl' => Label.noConfusion hl', h⟩
      intro l hl
      cases List.mem_cons.mp hl with
      | inl heq => exact hhead.1 l heq.symm
      | inr hin => exact ih hhead.2 hrest l hin

/-- The assignments of an accepted request are read back from the file it writes, in order,
and are what the service has after a restart. A refused request touches neither the file nor
the memory, whatever happens after it. -/
theorem setLocale_survives_restart (req : List LocaleAssignment) :
    (∀ content, localeContent req = .ok content → restoreLocale (some content) = req ∧
      ∀ (s : Settings) (i : Nat), s.locale.task i = .idle →
        ∃ t, run step s ((serve i req).map .locale) = some t ∧ t.locale.file = some content ∧
          t.locale.memory = req ∧ (new t.locale.file t.timezone.file).locale.memory = req) ∧
    (∀ message, localeContent req = .error message →
      ∀ (s t : Settings) (i : Nat), step s (.locale (.validate i req)) = some t →
        t.locale.file = s.locale.file ∧ t.locale.memory = s.locale.memory ∧
          t.timezone = s.timezone ∧
          ∀ labels u, run step t labels = some u → ∀ l, .locale l ∈ labels → l.request ≠ i) := by
  constructor
  · intro content hcontent
    have hback := restoreLocale_localeContent hcontent
    refine ⟨hback, fun s i hidle => ?_⟩
    have haccepted : accepted localeContent req = some req := by
      rw [accepted, hcontent]
      rfl
    have hwritten : written localeContent req = some content := by
      rw [written, hcontent]
      rfl
    rcases Persisted.run_of_accepted (written localeContent) hidle haccepted with
      ⟨locale, hrun, hfile, hmemory⟩
    refine ⟨{ s with locale := locale }, ?_, hfile.trans hwritten, hmemory, ?_⟩
    · rw [run_locale, serve, hrun]
      rfl
    · change restoreLocale locale.file = req
      rw [hfile, hwritten, hback]
  · intro message hcontent s t i hstep
    have hrefused : Persisted.judge (accepted localeContent) req = .refused := by
      rw [Persisted.judge, accepted, hcontent]
      rfl
    rcases Option.map_eq_some_iff.mp hstep with ⟨locale, hlocale, heq⟩
    subst heq
    rcases Persisted.step_cases hlocale with ⟨j, req', hl, -, hnext⟩ | ⟨j, value, hl, -⟩ |
      ⟨j, value, hl, -⟩ | ⟨j, value, hl, -⟩
    · cases hl
      subst hnext
      refine ⟨rfl, rfl, rfl, fun labels u hrun => run_of_refused ?_ hrun⟩
      exact (Function.update_self ..).trans hrefused
    · cases hl
    · cases hl
    · cases hl

def finnish : List LocaleAssignment := [⟨0, "fi_FI"⟩, ⟨12, "C"⟩]

def english : List LocaleAssignment := [⟨0, "en_US"⟩]

theorem accepted_samples : accepted localeContent finnish = some finnish ∧
    accepted localeContent english = some english ∧
    accepted timezoneContent "Etc/UTC" = some "Etc/UTC" := by
  decide +kernel

def injected : List LocaleAssignment := [⟨0, "en_US"⟩, ⟨1, "; whoami"⟩]

theorem setLocale_survives_restart_finnish :
    restoreLocale (some "LANG=fi_FI\nLC_TIME=C") = finnish ∧
    ∀ t, step (new none none) (.locale (.validate 0 injected)) = some t →
      t.locale.file = none ∧ t.locale.memory = [] := by
  have hcontent : localeContent finnish = .ok "LANG=fi_FI\nLC_TIME=C" ∧
      localeContent injected = .error "Invalid locale value ; whoami" := by
    decide +kernel
  refine ⟨((setLocale_survives_restart finnish).1 _ hcontent.1).1, fun t ht => ?_⟩
  have hkept := (setLocale_survives_restart injected).2 _ hcontent.2 _ t 0 ht
  exact ⟨hkept.1, hkept.2.1⟩

/-! ## Requests that overlap -/

/-- Request `j` is about to write `b` while request `i` has yet to assign `a`; all others are
done. -/
structure Overlap {φ β : Type} (s : Persisted.State φ β) (i j : Nat) (a b : β) : Prop where
  between : (s.task i).between = some a
  validated : s.task j = .validated b
  others : ∀ k, k ≠ i → k ≠ j → (s.task k).Done
  differ : a ≠ b

theorem Overlap.exists_disagreement {ρ : Type} {content : ρ → Except String String}
    {restore : Option String → ρ} {s : Persisted.State (Option String) ρ} {i j : Nat} {a b : ρ}
    (h : Overlap s i j a b)
    (hinv : Persisted.Inv (accepted content) restore (written content) s)
    (hrestore : ∀ req text, content req = .ok text → restore (some text) = req) :
    ∃ ls t, run (Persisted.step (accepted content) (written content)) s (.write j :: ls) = some t ∧
      t.Finished ∧ restore t.file ≠ t.memory := by
  obtain ⟨req, hreq⟩ := hinv.accepted j b (by rw [h.validated]; rfl)
  exact Persisted.exists_disagreement _ h.between h.validated h.others
    (restore_written hrestore req b hreq) h.differ

/-- As long as every write finds no request of its kind between write and assignment, files
and memory agree once all requests are done. The first write of another value that does find
one can leave them apart. -/
theorem agrees_of_undisturbed {localeConf timezoneConf : Option String} {s : Settings}
    (h : s.ReachableApart localeConf timezoneConf) :
    (s.Finished → s.Agrees) ∧
      (∀ i j a b, Overlap s.locale i j a b → ∃ ls t,
        run step s ((.write j :: ls).map .locale) = some t ∧ t.locale.Finished ∧
          t.timezone = s.timezone ∧ ¬ t.Agrees) ∧
      ∀ i j a b, Overlap s.timezone i j a b → ∃ ls t,
        run step s ((.write j :: ls).map .timezone) = some t ∧ t.timezone.Finished ∧
          t.locale = s.locale ∧ ¬ t.Agrees := by
  obtain ⟨hlocale, htimezone⟩ := inv_of_reachable h
  refine ⟨fun hdone => ⟨hlocale.decode_eq hdone.1, htimezone.decode_eq hdone.2⟩, ?_, ?_⟩
  · intro i j a b hoverlap
    obtain ⟨ls, t, hrun, hdone, hapart⟩ := hoverlap.exists_disagreement hlocale
      fun _ _ hcontent => restoreLocale_localeContent hcontent
    exact ⟨ls, { s with locale := t }, by rw [run_locale, hrun]; rfl, hdone, rfl,
      fun hagrees => hapart hagrees.1⟩
  · intro i j a b hoverlap
    obtain ⟨ls, t, hrun, hdone, hapart⟩ := hoverlap.exists_disagreement htimezone
      fun _ _ hcontent => restoreTimezone_timezoneContent hcontent
    exact ⟨ls, { s with timezone := t }, by rw [run_timezone, hrun]; rfl, hdone, rfl,
      fun hagrees => hapart hagrees.2⟩

def fresh : Settings := new none (some "UTC\n")

def served (s : Settings) (i : Nat) (req : List LocaleAssignment) : Settings :=
  { s with
    locale := ⟨written localeContent req, req, Function.update s.locale.task i (.finished req)⟩ }

theorem reachableApart_locale (h : s.ReachableApart localeConf timezoneConf)
    (l : Persisted.Label (List LocaleAssignment)) (hl : s.locale.Undisturbed l)
    {locale : Persisted.State (Option String) (List LocaleAssignment)}
    (hstep : Persisted.step (accepted localeContent) (written localeContent) s.locale l =
      some locale) :
    ({ s with locale := locale } : Settings).ReachableApart localeConf timezoneConf :=
  Reach.step (l := .locale l) h hl (by rw [step, hstep]; rfl)

theorem reachableApart_served (i : Nat) {req : List LocaleAssignment}
    (h : s.ReachableApart localeConf timezoneConf) (hdone : s.locale.Finished)
    (hidle : s.locale.task i = .idle) (haccepted : accepted localeContent req = some req) :
    (s.served i req).ReachableApart localeConf timezoneConf := by
  have hnone : ∀ k, (Function.update s.locale.task i (.validated req) k).between = none := by
    intro k
    by_cases hk : k = i
    · rw [hk, Function.update_self]
      rfl
    · rw [Function.update_of_ne hk]
      exact Persisted.Phase.between_of_done (hdone k)
  have hvalidated := reachableApart_locale h (.validate i req) trivial
    (by simp [Persisted.step, hidle, Persisted.judge, haccepted]; rfl)
  have hwritten := reachableApart_locale hvalidated (.write i) hnone
    (by simp [Persisted.step]; rfl)
  have hcollected := reachableApart_locale hwritten (.collect i) trivial
    (by simp [Persisted.step]; rfl)
  exact reachableApart_locale hcollected (.assign i) trivial (by simp [Persisted.step])

theorem finished_served (h : s.locale.Finished) (i : Nat) (req : List LocaleAssignment) :
    (s.served i req).locale.Finished :=
  Persisted.Phase.done_update h i req

def serialEnd : Settings := (fresh.served 0 finnish).served 1 english

/-- The first request has written the file, and the second one is about to. -/
def overlapping : Settings :=
  { fresh with
    locale := ⟨written localeContent finnish, [], Function.update (Function.update
      (fun _ => .idle) 0 (.written finnish)) 1 (.validated english)⟩ }

theorem reachableApart_overlapping : overlapping.ReachableApart none (some "UTC\n") := by
  obtain ⟨hfinnish, henglish, -⟩ := accepted_samples
  have hfirst := reachableApart_locale (s := fresh) (Reach.init rfl) (.validate 0 finnish) trivial
    (by simp [Persisted.step, Persisted.judge, hfinnish, fresh, new, Persisted.start]; rfl)
  have hwritten := reachableApart_locale hfirst (.write 0)
    (fun k => by by_cases hk : k = 0 <;> simp [hk, Persisted.Phase.between])
    (by simp [Persisted.step]; rfl)
  exact reachableApart_locale hwritten (.validate 1 english) trivial
    (by simp [Persisted.step, Persisted.judge, henglish, restoreLocale])

theorem agrees_of_undisturbed_serialEnd :
    (serialEnd.ReachableApart none (some "UTC\n") ∧ serialEnd.Finished ∧ serialEnd.Agrees) ∧
      overlapping.ReachableApart none (some "UTC\n") ∧
      Overlap overlapping.locale 0 1 finnish english ∧
      ∃ ls t, run step overlapping ((.write 1 :: ls).map .locale) = some t ∧
        t.locale.Finished ∧ t.timezone = fresh.timezone ∧ ¬ t.Agrees := by
  obtain ⟨hfinnish, henglish, -⟩ := accepted_samples
  have hidle : fresh.Finished := ⟨fun _ => trivial, fun _ => trivial⟩
  have hfirst := reachableApart_served 0 (s := fresh) (Reach.init rfl) hidle.1 rfl hfinnish
  have hsecond := reachableApart_served 1 hfirst (finished_served hidle.1 0 finnish) rfl henglish
  have hdone : serialEnd.Finished :=
    ⟨finished_served (finished_served hidle.1 0 finnish) 1 english, hidle.2⟩
  have hoverlap : Overlap overlapping.locale 0 1 finnish english := by
    refine ⟨rfl, rfl, fun k h0 h1 => ?_, by decide⟩
    simp [overlapping, h0, h1, Persisted.Phase.Done]
  exact ⟨⟨hsecond, hdone, (agrees_of_undisturbed hsecond).1 hdone⟩, reachableApart_overlapping,
    hoverlap, (agrees_of_undisturbed reachableApart_overlapping).2.1 0 1 _ _ hoverlap⟩

/-- The second request overtakes the first one between the file and the memory. -/
def overtakingRun : List Label :=
  [.validate 0 finnish, .validate 1 english, .write 0, .write 1, .collect 0, .collect 1,
    .assign 1, .assign 0].map .locale

def overtakingEnd : Settings where
  locale := ⟨written localeContent english, finnish, Function.update (Function.update
    (fun _ => .idle) 0 (.finished finnish)) 1 (.finished english)⟩
  timezone := fresh.timezone

theorem overtakingRun_disagrees :
    overtakingEnd.Reachable none (some "UTC\n") ∧ overtakingEnd.Finished ∧
      ¬ overtakingEnd.Agrees := by
  rcases accepted_samples with ⟨hfinnish, henglish, -⟩
  have hrun : run (fun s l => if True then step s l else none) fresh overtakingRun =
      some overtakingEnd := by
    simp [run, step, overtakingRun, overtakingEnd, fresh, new, Persisted.step, Persisted.start,
      Persisted.judge, hfinnish, henglish]
    funext i
    by_cases h0 : i = 0
    · simp [h0]
    · by_cases h1 : i = 1
      · simp [h1]
      · simp [h0, h1]
  have hidle : ∀ {ρ : Type} (i : Nat), ((fun _ => .idle : Nat → Persisted.Phase ρ) i).Done :=
    fun _ => trivial
  refine ⟨Reach.of_run (Reach.init rfl) hrun, ⟨Persisted.Phase.done_update
    (Persisted.Phase.done_update hidle 0 _) 1 _, hidle⟩, fun hagrees => ?_⟩
  have hlocale : restoreLocale (written localeContent english) = finnish := hagrees.1
  exact absurd hlocale (by decide +kernel)

end Settings

end GhafGivc.Admin
