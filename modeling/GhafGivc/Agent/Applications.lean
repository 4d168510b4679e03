import GhafGivc.Admin.StartApp
import GhafGivc.Core.Fallible
import GhafGivc.Core.Pattern

/-! # Applications of an agent

The admin service names the units of an application `<name>@<counter>.service`. The agent
validates the name of a unit it is asked to start, looks up the command of the application
and checks the unit against its whitelist.
-/

namespace GhafGivc.Agent

open Core Core.Pattern GhafGivc.Admin

structure ApplicationManifest where
  name : String
  command : String
  args : List String
  directories : List String
deriving DecidableEq

def validateArgType (directories : List String) (argType : String) : Except String Unit :=
  if argType = "flag" then pure ()
  else if argType = "url" then pure ()
  else if argType = "file" then
    if directories = [] then throw "file argument given but no directories specified"
    else pure ()
  else throw "application argument type not supported"

def validateManifest (appNames : List String) (app : ApplicationManifest) :
    Except String Unit :=
  if app.name = "" then throw "application name is empty"
  else if app.name ∈ appNames then throw "duplicate application name"
  else if app.command = "" then throw "application command is empty"
  else if app.directories ≠ [] ∧ "file" ∉ app.args then
    throw "directories specified but file argument type missing"
  else app.args.forM (validateArgType app.directories)

def validateFrom (appNames : List String) : List ApplicationManifest → Except String Unit
  | [] => pure ()
  | app :: applications => do
      validateManifest appNames app
      validateFrom (appNames ++ [app.name]) applications

def validateApplicationManifests (applications : List ApplicationManifest) : Except String Unit :=
  validateFrom [] applications

section Manifests

variable {appNames : List String} {app : ApplicationManifest}
  {applications : List ApplicationManifest}

theorem validateManifest_eq_ok (h : validateManifest appNames app = .ok ()) :
    app.name ≠ "" ∧ app.name ∉ appNames ∧ app.command ≠ "" := by
  unfold validateManifest at h
  split at h
  · cases h
  · rename_i hname
    split at h
    · cases h
    · rename_i hnew
      split at h
      · cases h
      · rename_i hcommand
        exact ⟨hname, hnew, hcommand⟩

theorem validateFrom_eq_ok (h : validateFrom appNames applications = .ok ()) :
    (∀ app ∈ applications, app.name ≠ "" ∧ app.name ∉ appNames ∧ app.command ≠ "") ∧
      (applications.map ApplicationManifest.name).Nodup := by
  induction applications generalizing appNames with
  | nil => simp
  | cons app applications ih =>
      rcases Fallible.bind_eq_ok.mp h with ⟨_, happ, hrest⟩
      rcases ih hrest with ⟨hall, hnodup⟩
      have hlater : ∀ b ∈ applications, b.name ∉ appNames ∧ b.name ≠ app.name := by
        intro b hb
        simpa using (hall b hb).2.1
      constructor
      · rw [List.forall_mem_cons]
        refine ⟨validateManifest_eq_ok happ, fun b hb => ?_⟩
        exact ⟨(hall b hb).1, (hlater b hb).1, (hall b hb).2.2⟩
      · rw [List.map_cons, List.nodup_cons]
        refine ⟨fun hin => ?_, hnodup⟩
        rcases List.mem_map.mp hin with ⟨b, hb, hname⟩
        exact (hlater b hb).2 hname

end Manifests

/-! ## Requests -/

/-- `[a-zA-Z0-9_-]` -/
def wordChars : List Char := alnum ++ ['_', '-']

/-- `^[a-zA-Z0-9_-]+@[a-zA-Z0-9_-]+\.service$` -/
def servicePattern : RegularExpression Char :=
  many1 (oneOf wordChars) *
    (literal "@".toList * (many1 (oneOf wordChars) * literal ".service".toList))

def validateServiceName (serviceName : String) : Bool :=
  serviceName ≠ "" && serviceName.toList.all (fun c => ' ' ≤ c && c ≤ '~') &&
    servicePattern.rmatch serviceName.toList

/-- `strings.Split(serviceName, "@")[0]` -/
def appName (serviceName : String) : String :=
  String.ofList ((serviceName.toList.splitOn '@').headD [])

section Requests

variable (validateArgs : List String → ApplicationManifest → Except String Unit)

def validateEntry (serviceName : String) (appArgs : Option (List String))
    (app : ApplicationManifest) : Except String Unit :=
  if app.name = appName serviceName then
    if validateServiceName serviceName = false then throw "failure parsing application name"
    else
      match appArgs with
      | none => pure ()
      | some args => validateArgs args app
  else pure ()

def validateAppUnitRequest (serviceName : String) (appArgs : Option (List String))
    (applications : List ApplicationManifest) : Except String Unit := do
  applications.forM (validateEntry validateArgs serviceName appArgs)
  if (∃ app ∈ applications, app.name = appName serviceName) then pure ()
  else throw "application not found in manifest"

/-- The loop of `StartApplication`, in which a later entry overrides an earlier one. -/
def appCommand (serviceName : String) (applications : List ApplicationManifest) : String :=
  applications.foldl (fun cmd app => if app.name = appName serviceName then app.command else cmd) ""

/-- `StartApplication` up to the command that it runs. -/
def assembleCommand (serviceName : String) (serviceArgs : Option (List String))
    (applications : List ApplicationManifest) : Except String (List String) := do
  validateAppUnitRequest validateArgs serviceName serviceArgs applications
  let appCmd := appCommand serviceName applications
  if appCmd = "" then throw "application unknown"
  else return (appCmd.toList.splitOn ' ').map String.ofList ++ serviceArgs.getD []

end Requests

/-! ## The whitelist -/

def whitelist (units : List String) (applications : List ApplicationManifest) : List String :=
  units ++ applications.map ApplicationManifest.name

/-- The text does not end the quotation it is put in. -/
def Quotable (val : String) : Prop := ¬ "\\E".toList <:+: val.toList

instance : DecidablePred Quotable := fun _ => inferInstanceAs (Decidable (¬ _))

/-- `@[0-9]+\.service` after a quoted text -/
def instancePattern (val : String) : RegularExpression Char :=
  literal val.toList *
    (literal "@".toList * (many1 (oneOf digit) * literal ".service".toList))

section Whitelist

-- what `regexp.MustCompile` makes of a pattern, unless it panics
variable (compile : String → Option (String → Bool))

def unitPattern (val : String) : Option (String → Bool) :=
  if Quotable val then some fun name => (instancePattern val).rmatch name.toList
  else compile ("^\\Q" ++ val ++ "\\E@[0-9]+\\.service$")

def isUnitWhitelisted : List String → String → Outcome Empty Bool
  | [], _ => .ok false
  | val :: whitelist, name =>
      if val = name then .ok true
      else
        match unitPattern compile val with
        | none => .panicked
        | some re => if re name then .ok true else isUnitWhitelisted whitelist name

end Whitelist

section Names

variable {name : String} {counter : Nat} {serviceName : String} {w : List Char}

/-- The name is one or more of `[a-zA-Z0-9_-]`. -/
def IsWord (name : String) : Prop := name ≠ "" ∧ ∀ c ∈ name.toList, c ∈ wordChars

theorem toString_mem_digit {c : Char} (h : c ∈ (toString counter).toList) : c ∈ digit := by
  have hdigit := Char.isDigit_iff_toNat.mp (Text.isDigit_of_mem_toString h)
  exact mem_range hdigit.1 hdigit.2

theorem toString_ne_nil : (toString counter).toList ≠ [] := by
  simp

theorem digit_subset_wordChars : ∀ c ∈ digit, c ∈ wordChars := by
  intro c hc
  simp [wordChars, alnum, hc]

theorem rmatch_servicePattern : servicePattern.rmatch w = true ↔
    ∃ u v, w = u ++ '@' :: (v ++ ".service".toList) ∧ (u ≠ [] ∧ ∀ c ∈ u, c ∈ wordChars) ∧
      v ≠ [] ∧ ∀ c ∈ v, c ∈ wordChars := by
  simp only [servicePattern, RegularExpression.mul_rmatch_iff, rmatch_many1_oneOf, rmatch_literal]
  constructor
  · intro h
    rcases h with ⟨u, rest, hw, hu, sep, rest', hrest, hsep, v, tail, hrest', hv, htail⟩
    subst hw hrest hsep hrest' htail
    exact ⟨u, v, rfl, hu, hv⟩
  · intro h
    rcases h with ⟨u, v, hw, hu, hv⟩
    exact ⟨u, _, hw, hu, ['@'], _, rfl, rfl, v, _, rfl, hv, rfl⟩

theorem at_notMem_of_words (h : ∀ c ∈ w, c ∈ wordChars) : '@' ∉ w :=
  fun hin => absurd (h '@' hin) (by decide +kernel)

theorem validateServiceName_iff : validateServiceName serviceName = true ↔
    ∃ u v, serviceName.toList = u ++ '@' :: (v ++ ".service".toList) ∧
      (u ≠ [] ∧ ∀ c ∈ u, c ∈ wordChars) ∧ v ≠ [] ∧ ∀ c ∈ v, c ∈ wordChars := by
  unfold validateServiceName
  rw [Bool.and_eq_true_iff, rmatch_servicePattern]
  apply and_iff_right_of_imp
  intro h
  rcases h with ⟨u, v, heq, hu, hv⟩
  have hprintable : ∀ w : List Char, (∀ c ∈ w, c ∈ wordChars) →
      w.all (fun c => ' ' ≤ c && c ≤ '~') = true := by
    have hword : ∀ c ∈ wordChars, (' ' ≤ c && c ≤ '~') = true :=
      List.all_eq_true.mp (by decide +kernel)
    intro w hw
    exact List.all_eq_true.mpr fun c hc => hword c (hw c hc)
  have hne : serviceName ≠ "" := by
    intro hempty
    rw [hempty] at heq
    simp at heq
  rw [heq, List.all_append, List.all_cons, List.all_append, hprintable u hu.2,
    hprintable v hv.2, decide_eq_true hne]
  decide

theorem validateServiceName_unitName :
    validateServiceName (unitName name counter) = true ↔ IsWord name := by
  have hcounter : '@' ∉ (toString counter).toList ++ ".service".toList := by
    rw [List.mem_append, not_or]
    exact ⟨Text.notMem_toString (by decide) counter, by decide⟩
  rw [validateServiceName_iff, toList_unitName]
  constructor
  · intro h
    rcases h with ⟨u, v, heq, hu, hv⟩
    have hv' : '@' ∉ v ++ ".service".toList := by
      simp [at_notMem_of_words hv.2]
    -- the separator is the last `@` on both sides
    have hleft := Delimited.rsplitOnce_append_cons name.toList hcounter
    rw [heq, Delimited.rsplitOnce_append_cons u hv'] at hleft
    have hname : u = name.toList := (Prod.mk.inj (Option.some.inj hleft)).1
    subst hname
    exact ⟨fun hempty => hu.1 (by rw [hempty]; rfl), hu.2⟩
  · intro h
    have hne : name.toList ≠ [] := by
      intro hempty
      exact h.1 (String.toList_inj.mp hempty)
    have hwords : ∀ c ∈ (toString counter).toList, c ∈ wordChars :=
      fun c hc => digit_subset_wordChars c (toString_mem_digit hc)
    exact ⟨_, _, rfl, ⟨hne, h.2⟩, toString_ne_nil, hwords⟩

theorem appName_of_toList {u rest : List Char} (h : serviceName.toList = u ++ '@' :: rest)
    (hu : '@' ∉ u) : appName serviceName = String.ofList u := by
  have hsplit : (u ++ '@' :: rest).splitOn '@' = u.splitOn '@' ++ rest.splitOn '@' :=
    List.splitOnP_append_cons _ _ (by simp)
  have hfirst : u.splitOn '@' = [u] := by
    apply List.splitOnP_eq_singleton
    intro c hc
    simpa using fun heq : c = '@' => hu (heq ▸ hc)
  rw [appName, h, hsplit, hfirst]
  simp

/-- The name is `<val>@<digits>.service`. -/
def IsInstance (val name : String) : Prop :=
  ∃ number : List Char, (number ≠ [] ∧ ∀ c ∈ number, c ∈ digit) ∧
    name.toList = val.toList ++ '@' :: (number ++ ".service".toList)

theorem rmatch_instancePattern {val : String} :
    (instancePattern val).rmatch name.toList = true ↔ IsInstance val name := by
  simp only [instancePattern, RegularExpression.mul_rmatch_iff, rmatch_many1_oneOf,
    rmatch_literal]
  constructor
  · intro h
    rcases h with
      ⟨u, rest, hname, hu, sep, rest', hrest, hsep, number, tail, hrest', hnumber, htail⟩
    subst hu hrest hsep hrest' htail
    exact ⟨number, hnumber, hname⟩
  · intro h
    rcases h with ⟨number, hnumber, hname⟩
    exact ⟨_, _, hname, rfl, ['@'], _, rfl, rfl, number, _, rfl, hnumber, rfl⟩

instance (val name : String) : Decidable (IsInstance val name) :=
  decidable_of_iff _ rmatch_instancePattern

theorem isInstance_unitName (name : String) (counter : Nat) :
    IsInstance name (unitName name counter) :=
  ⟨_, ⟨toString_ne_nil, fun _ hc => toString_mem_digit hc⟩, toList_unitName name counter⟩

theorem quotable_of_isWord (h : IsWord name) : Quotable name := by
  intro hquote
  have hin : '\\' ∈ name.toList := hquote.subset (by decide)
  exact absurd (h.2 _ hin) (by decide +kernel)

end Names

section Together

variable {validateArgs : List String → ApplicationManifest → Except String Unit}
  {applications : List ApplicationManifest} {app : ApplicationManifest} {serviceName : String}

theorem validateAppUnitRequest_none :
    validateAppUnitRequest validateArgs serviceName none applications = .ok () ↔
      (∃ app ∈ applications, app.name = appName serviceName) ∧
        validateServiceName serviceName = true := by
  have hentry : ∀ app, validateEntry validateArgs serviceName none app = .ok () ↔
      (app.name = appName serviceName → validateServiceName serviceName = true) := by
    intro app
    unfold validateEntry
    by_cases hname : app.name = appName serviceName
    · cases validateServiceName serviceName <;> simp [hname]
    · simp [hname]
  unfold validateAppUnitRequest
  rw [Fallible.bind_eq_ok]
  constructor
  · intro h
    rcases h with ⟨_, hall, hfound⟩
    split at hfound
    · rename_i hex
      rcases hex with ⟨app, happ, hname⟩
      exact ⟨⟨app, happ, hname⟩, (hentry app).mp (Fallible.forM_eq_ok.mp hall app happ) hname⟩
    · cases hfound
  · intro h
    refine ⟨(), Fallible.forM_eq_ok.mpr fun app _ => (hentry app).mpr fun _ => h.2, ?_⟩
    rw [if_pos h.1]
    rfl

theorem foldl_override {cmd acc : String}
    (h : ∀ b ∈ applications, b.name = appName serviceName → b.command = cmd)
    (hsome : acc = cmd ∨ ∃ b ∈ applications, b.name = appName serviceName) :
    applications.foldl (fun cmd app => if app.name = appName serviceName then app.command else cmd)
      acc = cmd := by
  induction applications generalizing acc with
  | nil =>
      cases hsome with
      | inl heq => exact heq
      | inr hex => simp at hex
  | cons b applications ih =>
      rw [List.forall_mem_cons] at h
      rw [List.foldl_cons]
      by_cases hb : b.name = appName serviceName
      · rw [if_pos hb]
        exact ih h.2 (Or.inl (h.1 hb))
      · rw [if_neg hb]
        refine ih h.2 (hsome.imp_right fun hex => ?_)
        simpa [hb] using hex

def Reached (compile : String → Option (String → Bool)) (whitelist : List String) (val : String) :
    Prop :=
  ∃ before after, whitelist = before ++ val :: after ∧
    ∀ u ∈ before, (unitPattern compile u).isSome = true

section Whitelisted

variable {compile : String → Option (String → Bool)} {whitelist : List String} {name val : String}

theorem Reached.mem (h : Reached compile whitelist val) : val ∈ whitelist := by
  rcases h with ⟨before, after, rfl, -⟩
  simp

theorem reached_of_quotable (hquotable : ∀ val ∈ whitelist, Quotable val) (h : val ∈ whitelist) :
    Reached compile whitelist val := by
  rcases List.append_of_mem h with ⟨before, after, rfl⟩
  refine ⟨before, after, rfl, fun u hu => ?_⟩
  rw [unitPattern, if_pos (hquotable u (List.mem_append_left _ hu))]
  rfl

theorem reached_cons {u : String} : Reached compile (u :: whitelist) val ↔
    val = u ∨ (unitPattern compile u).isSome = true ∧ Reached compile whitelist val := by
  constructor
  · rintro ⟨before, after, heq, hsome⟩
    cases before with
    | nil => exact Or.inl (List.cons.inj heq).1.symm
    | cons x before =>
        rcases List.cons.inj heq with ⟨rfl, rfl⟩
        rw [List.forall_mem_cons] at hsome
        exact Or.inr ⟨hsome.1, before, after, rfl, hsome.2⟩
  · rintro (rfl | ⟨hu, before, after, rfl, hsome⟩)
    · exact ⟨[], whitelist, rfl, by simp⟩
    · exact ⟨u :: before, after, rfl, List.forall_mem_cons.mpr ⟨hu, hsome⟩⟩

theorem isUnitWhitelisted_eq_true_iff : isUnitWhitelisted compile whitelist name = .ok true ↔
    ∃ val, Reached compile whitelist val ∧
      (val = name ∨ ∃ re, unitPattern compile val = some re ∧ re name = true) := by
  induction whitelist with
  | nil => simp [isUnitWhitelisted, Reached]
  | cons u whitelist ih =>
      simp only [reached_cons, or_and_right, exists_or, exists_eq_left, and_assoc,
        exists_and_left]
      unfold isUnitWhitelisted
      by_cases hname : u = name
      · simp [hname]
      · rw [if_neg hname]
        cases hre : unitPattern compile u with
        | none => simp [hname]
        | some re =>
            dsimp only
            by_cases hmatch : re name = true
            · simp [hmatch]
            · simp [hmatch, hname, ih]

theorem unitPattern_matches_iff :
    (∃ re, unitPattern compile val = some re ∧ re name = true) ↔
      Quotable val ∧ IsInstance val name ∨ ¬ Quotable val ∧
        ∃ re, compile ("^\\Q" ++ val ++ "\\E@[0-9]+\\.service$") = some re ∧
          re name = true := by
  unfold unitPattern
  by_cases hquotable : Quotable val
  · simp [hquotable, ← rmatch_instancePattern]
  · simp [hquotable]

theorem isUnitWhitelisted_iff (hquotable : ∀ val ∈ whitelist, Quotable val) :
    isUnitWhitelisted compile whitelist name = .ok true ↔
      name ∈ whitelist ∨ ∃ val ∈ whitelist, IsInstance val name := by
  rw [isUnitWhitelisted_eq_true_iff]
  constructor
  · rintro ⟨val, hreached, rfl | hmatch⟩
    · exact Or.inl hreached.mem
    · rcases unitPattern_matches_iff.mp hmatch with ⟨-, hinstance⟩ | ⟨hquote, -⟩
      · exact Or.inr ⟨val, hreached.mem, hinstance⟩
      · exact absurd (hquotable val hreached.mem) hquote
  · rintro (hname | ⟨val, hval, hinstance⟩)
    · exact ⟨name, reached_of_quotable hquotable hname, Or.inl rfl⟩
    · exact ⟨val, reached_of_quotable hquotable hval,
        Or.inr (unitPattern_matches_iff.mpr (Or.inl ⟨hquotable val hval, hinstance⟩))⟩

end Whitelisted

/-- The unit of this name starts the application, and the agent and the admin service agree
on what it is. -/
structure Startable (validateArgs : List String → ApplicationManifest → Except String Unit)
    (compile : String → Option (String → Bool)) (units : List String)
    (applications : List ApplicationManifest) (app : ApplicationManifest) (counter : Nat) :
    Prop where
  valid : validateAppUnitRequest validateArgs (unitName app.name counter) none applications = .ok ()
  command : assembleCommand validateArgs (unitName app.name counter) none applications =
    .ok ((app.command.toList.splitOn ' ').map String.ofList)
  only : ∀ other ∈ applications, other.name = appName (unitName app.name counter) → other = app
  whitelisted : isUnitWhitelisted compile (whitelist units applications)
    (unitName app.name counter) = .ok true
  parsed : parseApplicationName (unitName app.name counter) = .ok (app.name, counter)

theorem startable_of_words {compile : String → Option (String → Bool)} {units : List String}
    {counter : Nat} (hunits : ∀ unit ∈ units, Quotable unit)
    (hvalid : validateApplicationManifests applications = .ok ())
    (hwords : ∀ app ∈ applications, IsWord app.name) (happ : app ∈ applications)
    (hcounter : counter < 2 ^ 31) :
    Startable validateArgs compile units applications app counter := by
  rcases validateFrom_eq_ok hvalid with ⟨hall, hnodup⟩
  have hname : appName (unitName app.name counter) = app.name :=
    (appName_of_toList (toList_unitName app.name counter)
      (at_notMem_of_words (hwords app happ).2)).trans String.ofList_toList
  have hrequest : validateAppUnitRequest validateArgs (unitName app.name counter) none
      applications = .ok () :=
    validateAppUnitRequest_none.mpr ⟨⟨app, happ, hname.symm⟩,
      validateServiceName_unitName.mpr (hwords app happ)⟩
  have honly : ∀ other ∈ applications, other.name = appName (unitName app.name counter) →
      other = app := by
    intro other hother heq
    exact List.inj_on_of_nodup_map hnodup hother happ (heq.trans hname)
  have hcommand : appCommand (unitName app.name counter) applications = app.command :=
    foldl_override (fun b hb heq => by rw [honly b hb heq]) (Or.inr ⟨app, happ, hname.symm⟩)
  refine ⟨hrequest, ?_, honly, ?_, parseApplicationName_unitName hcounter⟩
  · unfold assembleCommand
    rw [hrequest, Fallible.ok_bind, hcommand]
    dsimp only
    rw [if_neg (hall app happ).2.2]
    simp
  · refine (isUnitWhitelisted_iff ?_).mpr (Or.inr ⟨app.name, ?_, isInstance_unitName _ _⟩)
    · intro val hval
      cases List.mem_append.mp hval with
      | inl hunit => exact hunits val hunit
      | inr hin =>
          rcases List.mem_map.mp hin with ⟨other, hother, heq⟩
          rw [← heq]
          exact quotable_of_isWord (hwords other hother)
    · exact List.mem_append_right _ (List.mem_map_of_mem happ)

/-- Every application of an accepted list can be started under the name that the admin
service generates, for every content of the registry, if and only if every application name
consists of `[a-zA-Z0-9_-]`. -/
theorem startable_iff {compile : String → Option (String → Bool)} {units : List String}
    (hunits : ∀ unit ∈ units, Quotable unit)
    (hvalid : validateApplicationManifests applications = .ok ()) :
    (∀ app ∈ applications, ∀ r : Registry, r.entries.length < 2 ^ 31 →
      ∃ counter, r.createUniqueEntryName app.name = unitName app.name counter ∧
        Startable validateArgs compile units applications app counter) ↔
      ∀ app ∈ applications, ∀ c ∈ app.name.toList, c ∈ wordChars := by
  constructor
  · intro h app happ
    rcases h app happ Registry.empty (by decide) with ⟨counter, -, hstart⟩
    exact (validateServiceName_unitName.mp
      (validateAppUnitRequest_none.mp hstart.valid).2).2
  · intro h app happ r hr
    have hwords : ∀ app ∈ applications, IsWord app.name :=
      fun app happ => ⟨((validateFrom_eq_ok hvalid).1 app happ).1, h app happ⟩
    refine ⟨_, rfl, startable_of_words hunits hvalid hwords happ ?_⟩
    have hle := firstFree_le (fun counter => r.contains (unitName app.name counter))
      r.entries.length 0
    omega

end Together

def chromium : ApplicationManifest := ⟨"chromium", "run-waypipe chromium", ["url", "flag"], []⟩

def zathura : ApplicationManifest := ⟨"zathura", "zathura", ["file"], ["/Shares"]⟩

theorem startable_iff_twoApps :
    ∃ counter, Registry.empty.createUniqueEntryName "zathura" = unitName "zathura" counter ∧
      Startable (fun _ _ => pure ()) (fun _ => none) ["poweroff.target"] [chromium, zathura]
        zathura counter := by
  have hunits : ∀ unit ∈ ["poweroff.target"], Quotable unit := by
    rw [List.forall_mem_singleton]
    decide
  have hwords : ∀ app ∈ [chromium, zathura], ∀ c ∈ app.name.toList, c ∈ wordChars := by
    rw [List.forall_mem_cons, List.forall_mem_singleton]
    exact ⟨List.forall_iff_forall_mem.mp (by decide +kernel),
      List.forall_iff_forall_mem.mp (by decide +kernel)⟩
  exact (startable_iff hunits (by decide)).mpr hwords zathura (by simp) Registry.empty (by decide)

def firefox : ApplicationManifest := ⟨"org.mozilla.firefox", "firefox", ["url"], []⟩

/-- A name with dots is accepted in the manifest, but not in the name of a unit. -/
theorem firefox_not_startable :
    validateApplicationManifests [firefox] = .ok () ∧
      Registry.empty.createUniqueEntryName firefox.name = "org.mozilla.firefox@0.service" ∧
      validateAppUnitRequest (fun _ _ => pure ()) "org.mozilla.firefox@0.service" none [firefox] =
        .error "failure parsing application name" := by
  decide +kernel

end GhafGivc.Agent
