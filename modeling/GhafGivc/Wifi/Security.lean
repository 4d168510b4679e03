import Mathlib.Data.List.Basic

/-! # Security of Wi-Fi networks

`GetAPSecurity` collects labels for the list of networks, `Connect` chooses one key
management for the connection. Both read the privacy flag and the two flag words of an
access point.
-/

namespace GhafGivc.Wifi

namespace APSec

def none : UInt32 := 0x0
def keyMgmtPSK : UInt32 := 0x100
def keyMgmt8021X : UInt32 := 0x200
def keyMgmtSAE : UInt32 := 0x400
def keyMgmtOWE : UInt32 := 0x800
def keyMgmtOWETM : UInt32 := 0x1000

end APSec

structure AP where
  ssid : String
  privacyFlag : Bool
  wpaFlags : UInt32
  rsnFlags : UInt32
  security : String
deriving DecidableEq

/-- `flags&mask > 0` -/
def Has (flags mask : UInt32) : Prop := flags &&& mask > 0

instance (flags mask : UInt32) : Decidable (Has flags mask) :=
  inferInstanceAs (Decidable (flags &&& mask > 0))

theorem not_has_none (mask : UInt32) : ¬ Has APSec.none mask := by
  simp [Has, APSec.none]

/-! ## The choice of a key management -/

inductive KeyMgmt where
  | none
  | dynamicWEP
  | owe
  | wpaPSK
  | sae
  | wpaEAP
deriving DecidableEq

def KeyMgmt.text : KeyMgmt → String
  | .none => "none"
  | .dynamicWEP => "ieee8021x"
  | .owe => "owe"
  | .wpaPSK => "wpa-psk"
  | .sae => "sae"
  | .wpaEAP => "wpa-eap"

/-- The choice for one access point, or else the one made before. -/
def keyMgmt (keymgmt : Option KeyMgmt) (ap : AP) : Option KeyMgmt :=
  if Has ap.wpaFlags APSec.keyMgmt8021X ∨ Has ap.rsnFlags APSec.keyMgmt8021X then
    some .wpaEAP
  else if Has ap.rsnFlags APSec.keyMgmtOWE ∨ Has ap.rsnFlags APSec.keyMgmtOWETM then
    some .owe
  else if Has ap.rsnFlags APSec.keyMgmtSAE then some .sae
  else if Has ap.rsnFlags APSec.keyMgmtPSK ∨ Has ap.rsnFlags APSec.keyMgmt8021X then
    some .wpaPSK
  else if ap.privacyFlag ∧ ap.wpaFlags = APSec.none ∧ ap.rsnFlags = APSec.none then
    some .dynamicWEP
  else if ¬ ap.privacyFlag then some .none
  else keymgmt

/-- The loop of `Connect` over the access points of a device. Without a choice, the key
management is the empty text. -/
def selectKeyMgmt (ssid : String) (accesspoints : List AP) : Option KeyMgmt :=
  accesspoints.foldl (fun keymgmt ap => if ap.ssid ≠ ssid then keymgmt else keyMgmt keymgmt ap)
    none

/-- Only access points of the network count, and each overrides those before it. -/
theorem selectKeyMgmt_eq (ssid : String) (accesspoints : List AP) :
    selectKeyMgmt ssid accesspoints =
      (accesspoints.filter fun ap => ap.ssid = ssid).foldl keyMgmt none := by
  unfold selectKeyMgmt
  rw [List.foldl_filter]
  congr
  funext keymgmt ap
  by_cases h : ap.ssid = ssid
  · simp [h]
  · simp [h]

/-! ## The displayed labels -/

def getAPSecurity (ap : AP) : String :=
  if ap.security ≠ "" then ap.security
  else
    let security := ap.security
    let security :=
      if ap.privacyFlag ∧ ap.wpaFlags = APSec.none ∧ ap.rsnFlags = APSec.none then
        security ++ "WEP " else security
    let security := if ap.wpaFlags ≠ APSec.none then security ++ "WPA " else security
    let security :=
      if Has ap.rsnFlags APSec.keyMgmtPSK ∨ Has ap.rsnFlags APSec.keyMgmt8021X then
        security ++ "WPA2 " else security
    let security := if Has ap.rsnFlags APSec.keyMgmtSAE then security ++ "WPA3 " else security
    let security :=
      if Has ap.rsnFlags APSec.keyMgmtOWE ∨ Has ap.rsnFlags APSec.keyMgmtOWETM then
        security ++ "OWE " else security
    let security :=
      if Has ap.wpaFlags APSec.keyMgmt8021X ∨ Has ap.rsnFlags APSec.keyMgmt8021X then
        security ++ "802.1X " else security
    if ap.privacyFlag ∧ ap.wpaFlags ≠ APSec.none ∧ ap.rsnFlags ≠ APSec.none then "None"
    else security

/-- A word of the displayed text. -/
def Lists (security label : String) : Prop := label.toList ∈ security.toList.splitOn ' '

instance (security label : String) : Decidable (Lists security label) :=
  inferInstanceAs (Decidable (_ ∈ _))

def KeyMgmt.labels : KeyMgmt → List String
  | .none => ["None"]
  | .dynamicWEP => ["WEP"]
  | .owe => ["OWE"]
  | .wpaPSK => ["WPA", "WPA2"]
  | .sae => ["WPA3"]
  | .wpaEAP => ["802.1X"]

/-- The flag word names a way to agree on a key. -/
def Advertises (flags : UInt32) : Prop :=
  Has flags APSec.keyMgmtPSK ∨ Has flags APSec.keyMgmtSAE ∨ Has flags APSec.keyMgmtOWE ∨
    Has flags APSec.keyMgmt8021X

/-- What is displayed is not weaker than what a connection would use. -/
structure Displayed (ap : AP) (keymgmt : Option KeyMgmt) : Prop where
  open_only : getAPSecurity ap = "None" ∨ getAPSecurity ap = "" → keymgmt = some .none
  consistent : Advertises ap.wpaFlags ∨ Advertises ap.rsnFlags → ∃ choice, keymgmt = some choice ∧
    ∃ label ∈ choice.labels, Lists (getAPSecurity ap) label

/-- A key management of the second flag word that both functions look at. -/
def RsnKeyMgmt (flags : UInt32) : Prop :=
  Has flags APSec.keyMgmt8021X ∨ Has flags APSec.keyMgmtOWE ∨ Has flags APSec.keyMgmtOWETM ∨
    Has flags APSec.keyMgmtSAE ∨ Has flags APSec.keyMgmtPSK

/-- No mixed mode on a private network, and no key management that only the first flag word
has, 802.1X apart. -/
structure PlainlyFlagged (ap : AP) : Prop where
  rsn : ap.privacyFlag = true → ap.rsnFlags ≠ APSec.none →
    ap.wpaFlags = APSec.none ∧ RsnKeyMgmt ap.rsnFlags
  wpa : Advertises ap.wpaFlags → Has ap.wpaFlags APSec.keyMgmt8021X ∨ RsnKeyMgmt ap.rsnFlags

section Labels

variable {ap : AP} {ls : List String}

/-- The labels that are collected, in order. -/
def labels (ap : AP) : List String :=
  (if ap.privacyFlag ∧ ap.wpaFlags = APSec.none ∧ ap.rsnFlags = APSec.none then ["WEP"] else []) ++
  (if ap.wpaFlags ≠ APSec.none then ["WPA"] else []) ++
  (if Has ap.rsnFlags APSec.keyMgmtPSK ∨ Has ap.rsnFlags APSec.keyMgmt8021X then ["WPA2"]
    else []) ++
  (if Has ap.rsnFlags APSec.keyMgmtSAE then ["WPA3"] else []) ++
  (if Has ap.rsnFlags APSec.keyMgmtOWE ∨ Has ap.rsnFlags APSec.keyMgmtOWETM then ["OWE"]
    else []) ++
  (if Has ap.wpaFlags APSec.keyMgmt8021X ∨ Has ap.rsnFlags APSec.keyMgmt8021X then ["802.1X"]
    else [])

def spaced : List String → String
  | [] => ""
  | label :: labels => label ++ " " ++ spaced labels

theorem spaced_append (ls ls' : List String) : spaced (ls ++ ls') = spaced ls ++ spaced ls' := by
  induction ls with
  | nil => simp [spaced]
  | cons label ls ih => simp [spaced, ih, String.append_assoc]

theorem append_ite {c : Prop} [Decidable c] (text label : String) :
    (if c then text ++ label else text) = text ++ if c then label else "" := by
  split
  · rfl
  · exact String.append_empty.symm

theorem spaced_ite {c : Prop} [Decidable c] (label : String) :
    spaced (if c then [label] else []) = if c then label ++ " " else "" := by
  split
  · simp [spaced]
  · rfl

/-- The labels, unless both flag words are set on a private network. -/
theorem getAPSecurity_eq (h : ap.security = "") : getAPSecurity ap =
    if ap.privacyFlag ∧ ap.wpaFlags ≠ APSec.none ∧ ap.rsnFlags ≠ APSec.none then "None"
    else spaced (labels ap) := by
  unfold getAPSecurity labels
  simp only [h, ne_eq, not_true_eq_false, if_false, append_ite, spaced_append, spaced_ite,
    String.empty_append]
  rfl

theorem lists_spaced (h : ∀ label ∈ ls, ' ' ∉ label.toList) (label : String) :
    Lists (spaced ls) label ↔ label ∈ ls ∨ label = "" := by
  unfold Lists
  induction ls with
  | nil => simp [spaced, List.splitOn]
  | cons first ls ih =>
      rw [List.forall_mem_cons] at h
      have htext : (spaced (first :: ls)).toList = first.toList ++ ' ' :: (spaced ls).toList := by
        simp [spaced]
      have hfirst : first.toList.splitOn ' ' = [first.toList] := by
        apply List.splitOnP_eq_singleton
        intro c hc
        simpa using fun heq : c = ' ' => h.1 (heq ▸ hc)
      have hsplit : (first.toList ++ ' ' :: (spaced ls).toList).splitOn ' ' =
          first.toList.splitOn ' ' ++ (spaced ls).toList.splitOn ' ' :=
        List.splitOnP_append_cons _ _ (by simp)
      rw [htext, hsplit, hfirst, List.mem_append, ih h.2, List.mem_singleton, String.toList_inj,
        List.mem_cons, or_assoc]

theorem labels_words : ∀ label ∈ labels ap,
    label ∈ ["WEP", "WPA", "WPA2", "WPA3", "OWE", "802.1X"] := by
  intro label hin
  simp only [labels, List.mem_append, List.mem_ite_nil_right, List.mem_singleton] at hin
  simp only [List.mem_cons, List.not_mem_nil, or_false]
  tauto

theorem spaced_eq_empty : spaced ls = "" ↔ ls = [] := by
  cases ls with
  | nil => simp [spaced]
  | cons label ls => simp [spaced]

theorem lists_labels (label : String) :
    Lists (spaced (labels ap)) label ↔ label ∈ labels ap ∨ label = "" := by
  apply lists_spaced
  intro label hin
  have hblank : ∀ label ∈ ["WEP", "WPA", "WPA2", "WPA3", "OWE", "802.1X"],
      ' ' ∉ label.toList := by
    decide
  exact hblank label (labels_words label hin)

end Labels

section Compare

variable {ap : AP} {choice : KeyMgmt}

/-- A key management that both functions look at. -/
def Secured (ap : AP) : Prop :=
  Has ap.wpaFlags APSec.keyMgmt8021X ∨ RsnKeyMgmt ap.rsnFlags

theorem keyMgmt_of_secured (h : Secured ap) :
    ∃ choice, keyMgmt none ap = some choice ∧ ∃ label ∈ choice.labels, label ∈ labels ap := by
  unfold keyMgmt
  split
  · rename_i heap
    exact ⟨.wpaEAP, rfl, "802.1X", List.mem_singleton.mpr rfl, by simp [labels, heap]⟩
  · rename_i heap
    split
    · rename_i howe
      exact ⟨.owe, rfl, "OWE", List.mem_singleton.mpr rfl, by simp [labels, howe]⟩
    · rename_i howe
      split
      · rename_i hsae
        exact ⟨.sae, rfl, "WPA3", List.mem_singleton.mpr rfl, by simp [labels, hsae]⟩
      · rename_i hsae
        have hpsk : Has ap.rsnFlags APSec.keyMgmtPSK := by
          unfold Secured RsnKeyMgmt at h
          tauto
        rw [if_pos (.inl hpsk)]
        exact ⟨.wpaPSK, rfl, "WPA2", by decide, by simp [labels, hpsk]⟩

theorem keyMgmt_of_not_secured (h : ¬ Secured ap) : keyMgmt none ap =
    if ap.privacyFlag ∧ ap.wpaFlags = APSec.none ∧ ap.rsnFlags = APSec.none then
      some .dynamicWEP
    else if ¬ ap.privacyFlag then some .none
    else none := by
  unfold Secured RsnKeyMgmt at h
  unfold keyMgmt
  rw [if_neg (by tauto), if_neg (by tauto), if_neg (by tauto), if_neg (by tauto)]

theorem keyMgmt_ne_none_of_private (h : ap.privacyFlag = true) :
    keyMgmt none ap ≠ some .none := by
  intro hnone
  by_cases hsecured : Secured ap
  · rcases keyMgmt_of_secured hsecured with ⟨choice, hchoice, label, hlabel, hin⟩
    rw [hnone] at hchoice
    cases hchoice
    rw [List.mem_singleton.mp hlabel] at hin
    exact absurd (labels_words _ hin) (by decide)
  · rw [keyMgmt_of_not_secured hsecured, if_neg (c := ¬ ap.privacyFlag = true) (by simp [h])]
      at hnone
    split at hnone <;> cases hnone

theorem labels_eq_nil_iff : labels ap = [] ↔
    ap.wpaFlags = APSec.none ∧ ¬ RsnKeyMgmt ap.rsnFlags ∧
      (ap.privacyFlag = true → ap.rsnFlags ≠ APSec.none) := by
  unfold labels RsnKeyMgmt
  simp only [List.append_eq_nil_iff, ite_eq_right_iff, List.cons_ne_nil, imp_false]
  constructor
  · intro h
    tauto
  · intro h
    have hwpa : ¬ Has ap.wpaFlags APSec.keyMgmt8021X := by
      rw [h.1]
      exact not_has_none _
    tauto

theorem not_lists_none : ¬ Lists (spaced (labels ap)) "None" := by
  rw [lists_labels]
  intro h
  rcases h with hin | hempty
  · exact absurd (labels_words _ hin) (by decide)
  · exact absurd hempty (by decide)

theorem spaced_labels_ne_none : spaced (labels ap) ≠ "None" := by
  intro h
  have hlists : Lists (spaced (labels ap)) "None" := by
    rw [h]
    decide
  exact not_lists_none hlists

theorem secured_of_advertises (h : PlainlyFlagged ap)
    (hadvertises : Advertises ap.wpaFlags ∨ Advertises ap.rsnFlags) : Secured ap := by
  rcases hadvertises with hwpa | hrsn
  · exact h.wpa hwpa
  · right
    unfold Advertises at hrsn
    unfold RsnKeyMgmt
    tauto

theorem PlainlyFlagged.displayed (h : PlainlyFlagged ap)
    (hlabel : getAPSecurity ap = spaced (labels ap)) : Displayed ap (keyMgmt none ap) := by
  constructor
  · intro hopen
    rw [hlabel, spaced_eq_empty] at hopen
    rcases hopen with hnone | hempty
    · exact absurd hnone spaced_labels_ne_none
    · rcases labels_eq_nil_iff.mp hempty with ⟨hwpa, hrsn, hwep⟩
      have hsecured : ¬ Secured ap := by
        intro hsecured
        rcases hsecured with heap | hkey
        · rw [hwpa] at heap
          exact not_has_none _ heap
        · exact hrsn hkey
      have hpublic : ¬ ap.privacyFlag = true := by
        intro hprivate
        exact hrsn (h.rsn hprivate (hwep hprivate)).2
      rw [keyMgmt_of_not_secured hsecured, if_neg (by simp [hpublic]), if_pos hpublic]
  · intro hadvertises
    rcases keyMgmt_of_secured (secured_of_advertises h hadvertises) with
      ⟨choice, hchoice, label, hconsistent, hin⟩
    rw [hlabel]
    exact ⟨choice, hchoice, label, hconsistent, (lists_labels label).mpr (.inl hin)⟩

theorem Displayed.plainlyFlagged (h : Displayed ap (keyMgmt none ap))
    (hmixed : ¬ (ap.privacyFlag = true ∧ ap.wpaFlags ≠ APSec.none ∧ ap.rsnFlags ≠ APSec.none))
    (hlabel : getAPSecurity ap = spaced (labels ap)) : PlainlyFlagged ap := by
  constructor
  · intro hprivate hrsn
    have hwpa : ap.wpaFlags = APSec.none := by
      by_contra hwpa
      exact hmixed ⟨hprivate, hwpa, hrsn⟩
    refine ⟨hwpa, ?_⟩
    by_contra hkey
    have hempty : getAPSecurity ap = "" := by
      rw [hlabel, spaced_eq_empty]
      exact labels_eq_nil_iff.mpr ⟨hwpa, hkey, fun _ => hrsn⟩
    exact keyMgmt_ne_none_of_private hprivate (h.open_only (.inr hempty))
  · intro hadvertises
    by_contra hsecured
    rcases h.consistent (.inl hadvertises) with ⟨choice, hchoice, label, hconsistent, hlists⟩
    have hwpa : ap.wpaFlags ≠ APSec.none := by
      intro hwpa
      rw [hwpa] at hadvertises
      unfold Advertises at hadvertises
      simp [not_has_none] at hadvertises
    rw [keyMgmt_of_not_secured hsecured, if_neg (by simp [hwpa])] at hchoice
    split at hchoice
    · cases hchoice
      rw [List.mem_singleton.mp hconsistent, hlabel] at hlists
      exact not_lists_none hlists
    · cases hchoice

end Compare

/-- An access point is displayed as it is connected to exactly when it is plainly flagged. -/
theorem displayed_iff_plainlyFlagged (ap : AP) (accesspoints : List AP)
    (hsecurity : ap.security = "")
    (honly : (accesspoints.filter fun other => other.ssid = ap.ssid) = [ap]) :
    Displayed ap (selectKeyMgmt ap.ssid accesspoints) ↔ PlainlyFlagged ap := by
  have hselect : selectKeyMgmt ap.ssid accesspoints = keyMgmt none ap := by
    rw [selectKeyMgmt_eq, honly]
    rfl
  rw [hselect]
  have hlabel := getAPSecurity_eq hsecurity
  by_cases hmixed : ap.privacyFlag = true ∧ ap.wpaFlags ≠ APSec.none ∧ ap.rsnFlags ≠ APSec.none
  · rw [if_pos hmixed] at hlabel
    constructor
    · intro hdisplayed
      exact absurd (hdisplayed.open_only (.inl hlabel)) (keyMgmt_ne_none_of_private hmixed.1)
    · intro hplain
      exact absurd (hplain.rsn hmixed.1 hmixed.2.2).1 hmixed.2.1
  · rw [if_neg hmixed] at hlabel
    constructor
    · intro hdisplayed
      exact hdisplayed.plainlyFlagged hmixed hlabel
    · intro hplain
      exact hplain.displayed hlabel

def wpa2Home : AP := ⟨"home", true, 0x0, 0x188, ""⟩

def openCafe : AP := ⟨"cafe", false, 0x0, 0x0, ""⟩

theorem displayed_iff_plainlyFlagged_wpa2 :
    Displayed wpa2Home (selectKeyMgmt "home" [openCafe, wpa2Home]) := by
  refine (displayed_iff_plainlyFlagged wpa2Home [openCafe, wpa2Home] rfl (by decide)).mpr ?_
  constructor
  · intro _ _
    exact ⟨rfl, .inr (.inr (.inr (.inr (by decide))))⟩
  · intro hadvertises
    exact absurd hadvertises (by unfold Advertises; decide)

/-- WPA and WPA2 with a pre-shared key. -/
def mixedHome : AP := ⟨"home", true, 0x144, 0x188, ""⟩

def wpaHome : AP := ⟨"home", true, 0x144, 0x0, ""⟩

/-- The first network is shown as open and connected to with a key; for the second one no key
management is chosen. -/
theorem wpaHome_not_displayed :
    getAPSecurity mixedHome = "None" ∧ selectKeyMgmt "home" [mixedHome] = some .wpaPSK ∧
    getAPSecurity wpaHome = "WPA " ∧ selectKeyMgmt "home" [wpaHome] = none ∧
    ¬ Displayed mixedHome (selectKeyMgmt "home" [mixedHome]) ∧
    ¬ Displayed wpaHome (selectKeyMgmt "home" [wpaHome]) := by
  have hsamples : getAPSecurity mixedHome = "None" ∧
      selectKeyMgmt "home" [mixedHome] = some .wpaPSK ∧ getAPSecurity wpaHome = "WPA " ∧
      selectKeyMgmt "home" [wpaHome] = none := by
    decide
  rcases hsamples with ⟨hmixed, hpsk, hwpa, hnone⟩
  refine ⟨hmixed, hpsk, hwpa, hnone, ?_, ?_⟩
  · intro hdisplayed
    have hopen := hdisplayed.open_only (.inl hmixed)
    rw [hpsk] at hopen
    cases hopen
  · intro hdisplayed
    have hadvertises : Advertises wpaHome.wpaFlags := .inl (by decide)
    rcases hdisplayed.consistent (.inl hadvertises) with ⟨choice, hchoice, -⟩
    rw [hnone] at hchoice
    cases hchoice

end GhafGivc.Wifi
