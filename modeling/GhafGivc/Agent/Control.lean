import GhafGivc.Agent.FileArguments

/-! # Control of started units

A unit is started under a name that the service pattern admits, and is found again if the
whitelist pattern admits it. The first pattern allows letters after the `@`, the second one
digits only.
-/

namespace GhafGivc.Agent

open Core Core.Pattern

/-- `FindUnit`; `list` is the answer of systemd. -/
def findUnit {α : Type} (compile : String → Option (String → Bool)) (whitelist : List String)
    (list : String → Except String (List α)) (name : String) : Outcome String (List α) :=
  match isUnitWhitelisted compile whitelist name with
  | .panicked => .panicked
  | .err e => nomatch e
  | .ok false => .err "unit is not whitelisted"
  | .ok true =>
      match list name with
      | .error e => .err ("cannot find unit with name " ++ name ++ ": " ++ e)
      | .ok [] => .err ("no units found with name " ++ name)
      | .ok units => .ok units

section Control

variable {validateArgs : List String → ApplicationManifest → Except String Unit}
  {compile : String → Option (String → Bool)} {applications : List ApplicationManifest}
  {name : String} {args : Option (List String)} {list : List String}

theorem validateAppUnitRequest_eq_ok
    (h : validateAppUnitRequest validateArgs name args applications = .ok ()) :
    (∃ app ∈ applications, app.name = appName name) ∧ validateServiceName name = true := by
  rcases Fallible.bind_eq_ok.mp h with ⟨_, hall, hfound⟩
  split at hfound
  · rename_i hex
    rcases hex with ⟨app, happ, hname⟩
    have hentry := Fallible.forM_eq_ok.mp hall app happ
    unfold validateEntry at hentry
    rw [if_pos hname] at hentry
    refine ⟨⟨app, happ, hname⟩, ?_⟩
    split at hentry
    · cases hentry
    · rename_i hvalid
      simpa using hvalid
  · cases hfound

theorem appName_of_valid (h : validateServiceName name = true) :
    ∃ v, name.toList = (appName name).toList ++ '@' :: v ∧ '@' ∉ v := by
  rcases validateServiceName_iff.mp h with ⟨u, v, heq, hu, hv⟩
  refine ⟨v ++ ".service".toList, ?_, by simp [at_notMem_of_words hv.2]⟩
  rw [appName_of_toList heq (at_notMem_of_words hu.2), String.toList_ofList]
  exact heq

/-- A unit of an application is an instance of that application and of no other name. -/
theorem eq_appName_of_isInstance {val : String} (h : validateServiceName name = true)
    (hinstance : IsInstance val name) : val = appName name := by
  rcases appName_of_valid h with ⟨v, heq, hv⟩
  rcases hinstance with ⟨number, hnumber, hname⟩
  have hat : '@' ∉ number ++ ".service".toList := by
    rw [List.mem_append, not_or]
    exact ⟨fun hin => absurd (hnumber.2 '@' hin) (by decide +kernel), by decide⟩
  have hcut := Delimited.rsplitOnce_append_cons val.toList hat
  rw [← hname, heq, Delimited.rsplitOnce_append_cons _ hv] at hcut
  exact String.toList_inj.mp (Prod.mk.inj (Option.some.inj hcut)).1.symm

theorem quotable_appName (h : validateServiceName name = true) : Quotable (appName name) := by
  rcases validateServiceName_iff.mp h with ⟨u, v, heq, hu, -⟩
  rw [appName_of_toList heq (at_notMem_of_words hu.2)]
  refine quotable_of_isWord ⟨fun hempty => hu.1 (String.ofList_eq_empty_iff.mp hempty), ?_⟩
  rw [String.toList_ofList]
  exact hu.2

theorem quotable_isInstance_iff {val : String} (h : validateServiceName name = true) :
    Quotable val ∧ IsInstance val name ↔ val = appName name ∧ IsInstance val name := by
  constructor
  · rintro ⟨-, hinstance⟩
    exact ⟨eq_appName_of_isInstance h hinstance, hinstance⟩
  · rintro ⟨rfl, hinstance⟩
    exact ⟨quotable_appName h, hinstance⟩

end Control

/-- The check of the arguments in `ValidateAppUnitRequest`; `stat` and `validateUrl` are the
answers of `os.Stat` and of the check of URLs. -/
def checkArgs (stat validateUrl : String → Except String Unit) (args : List String)
    (app : ApplicationManifest) : Except String Unit :=
  validateApplicationArgs stat validateUrl args app.args app.directories

/-- The pattern of an entry that leaves its quotation matches the name. -/
def MatchesUnquoted (compile : String → Option (String → Bool)) (val name : String) : Prop :=
  ¬ Quotable val ∧
    ∃ re, compile ("^\\Q" ++ val ++ "\\E@[0-9]+\\.service$") = some re ∧ re name = true

/-- A unit that may be started is whitelisted exactly when the whitelist, up to the first
pattern that does not compile, has its name literally, or has its application and the name
has a number after the `@`, or has an entry that leaves the quotation and matches. A unit that
is whitelisted is listed or is a numbered instance of a listed name, unless an entry of the
last kind is reached that matches it. -/
theorem whitelisted_iff (stat validateUrl : String → Except String Unit)
    (compile : String → Option (String → Bool)) (units : List String)
    (applications : List ApplicationManifest) (name : String) :
    (∀ args, validateAppUnitRequest (checkArgs stat validateUrl) name args applications = .ok () →
      (isUnitWhitelisted compile (whitelist units applications) name = .ok true ↔
        ∃ val, Reached compile (whitelist units applications) val ∧
          (val = name ∨ val = appName name ∧ IsInstance val name ∨
            MatchesUnquoted compile val name))) ∧
    ((∀ val ∈ whitelist units applications, Quotable val) →
      ∀ args, validateAppUnitRequest (checkArgs stat validateUrl) name args applications = .ok () →
        (isUnitWhitelisted compile (whitelist units applications) name = .ok true ↔
          name ∈ whitelist units applications ∨ IsInstance (appName name) name)) ∧
    ((isUnitWhitelisted compile (whitelist units applications) name = .ok true →
        name ∈ whitelist units applications ∨
          ∃ val ∈ whitelist units applications, IsInstance val name) ↔
      ∀ val, Reached compile (whitelist units applications) val →
        MatchesUnquoted compile val name →
          name ∈ whitelist units applications ∨
            ∃ val ∈ whitelist units applications, IsInstance val name) := by
  refine ⟨?_, ?_, ?_⟩
  · intro args hrequest
    rcases validateAppUnitRequest_eq_ok hrequest with ⟨-, hvalid⟩
    rw [isUnitWhitelisted_eq_true_iff]
    refine exists_congr fun val => and_congr_right fun _ => or_congr_right ?_
    rw [unitPattern_matches_iff, quotable_isInstance_iff hvalid, MatchesUnquoted]
  · intro hquotable args hrequest
    rcases validateAppUnitRequest_eq_ok hrequest with ⟨⟨app, happ, hname⟩, hvalid⟩
    rw [isUnitWhitelisted_iff hquotable]
    refine or_congr_right ⟨?_, ?_⟩
    · rintro ⟨val, -, hinstance⟩
      rw [eq_appName_of_isInstance hvalid hinstance] at hinstance
      exact hinstance
    · intro hinstance
      have hlisted : appName name ∈ whitelist units applications :=
        List.mem_append_right _ (hname ▸ List.mem_map_of_mem happ)
      exact ⟨_, hlisted, hinstance⟩
  · rw [isUnitWhitelisted_eq_true_iff]
    constructor
    · intro h val hreached hmatch
      exact h ⟨val, hreached, Or.inr (unitPattern_matches_iff.mpr (Or.inr hmatch))⟩
    · rintro h ⟨val, hreached, rfl | hmatch⟩
      · exact Or.inl hreached.mem
      · rcases unitPattern_matches_iff.mp hmatch with ⟨-, hinstance⟩ | hunquoted
        · exact Or.inr ⟨val, hreached.mem, hinstance⟩
        · exact h val hreached hunquoted

theorem request_chromium {serviceName : String} {v : List Char}
    (hname : serviceName.toList = "chromium".toList ++ '@' :: (v ++ ".service".toList))
    (hne : v ≠ []) (hv : ∀ c ∈ v, c ∈ wordChars) :
    validateAppUnitRequest (checkArgs (fun _ => pure ()) (fun _ => pure ())) serviceName none
      [chromium] = .ok () := by
  have hwords : ∀ c ∈ "chromium".toList, c ∈ wordChars :=
    List.forall_iff_forall_mem.mp (by decide +kernel)
  have happ : appName serviceName = chromium.name := by
    rw [appName_of_toList hname (at_notMem_of_words hwords), String.ofList_toList]
    rfl
  apply validateAppUnitRequest_none.mpr
  refine ⟨⟨chromium, List.mem_singleton.mpr rfl, happ.symm⟩, ?_⟩
  exact validateServiceName_iff.mpr ⟨_, v, hname, ⟨by decide, hwords⟩, hne, hv⟩

theorem whitelisted_iff_chromium :
    validateAppUnitRequest (checkArgs (fun _ => pure ()) (fun _ => pure ())) "chromium@7.service"
        none [chromium] = .ok () ∧
      isUnitWhitelisted (fun _ => none) (whitelist [] [chromium]) "chromium@7.service" =
        .ok true := by
  have hrequest : validateAppUnitRequest (checkArgs (fun _ => pure ()) (fun _ => pure ()))
      "chromium@7.service" none [chromium] = .ok () :=
    request_chromium (v := "7".toList) (by decide) (by decide)
      (List.forall_iff_forall_mem.mp (by decide +kernel))
  have hsamples : (∀ val ∈ whitelist [] [chromium], Quotable val) ∧
      IsInstance (appName "chromium@7.service") "chromium@7.service" := by
    decide +kernel
  rcases hsamples with ⟨hquotable, hinstance⟩
  exact ⟨hrequest,
    ((whitelisted_iff _ _ _ _ _ _).2.1 hquotable none hrequest).mpr (Or.inr hinstance)⟩

/-- A name that ends the quotation of its pattern and opens another one. -/
def wildcard : ApplicationManifest := ⟨"\\E.*\\Q", "true", [], []⟩

/-- The pattern of that name is `^.*@[0-9]+\.service$`. -/
def compileWildcard (pattern : String) : Option (String → Bool) :=
  if pattern = "^\\Q\\E.*\\Q\\E@[0-9]+\\.service$" then
    some fun name =>
      match Delimited.rsplitOnce '@' name.toList with
      | some (left, right) => !left.contains '\n' &&
          (many1 (oneOf digit) * literal ".service".toList).rmatch right
      | none => false
  else none

/-- Chromium is started under a name that is then unknown, and the other name lets every
numbered unit pass. -/
theorem started_unit_out_of_control :
    validateApplicationManifests [chromium] = .ok () ∧
    validateAppUnitRequest (checkArgs (fun _ => pure ()) (fun _ => pure ()))
      "chromium@main.service" none [chromium] = .ok () ∧
    isUnitWhitelisted (fun _ => none) (whitelist [] [chromium]) "chromium@main.service" =
      .ok false ∧
    findUnit (fun _ => none) (whitelist [] [chromium]) (fun _ => .ok [()])
      "chromium@main.service" = .err "unit is not whitelisted" ∧
    validateApplicationManifests [wildcard] = .ok () ∧
    isUnitWhitelisted compileWildcard (whitelist [] [wildcard]) "sshd@0.service" = .ok true ∧
    "sshd@0.service" ∉ whitelist [] [wildcard] ∧
    ¬ IsInstance wildcard.name "sshd@0.service" := by
  have hrequest : validateAppUnitRequest (checkArgs (fun _ => pure ()) (fun _ => pure ()))
      "chromium@main.service" none [chromium] = .ok () :=
    request_chromium (v := "main".toList) (by decide) (by decide)
      (List.forall_iff_forall_mem.mp (by decide +kernel))
  simp only [hrequest, true_and]
  decide +kernel

end GhafGivc.Agent
