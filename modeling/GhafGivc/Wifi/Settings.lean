import GhafGivc.Core.NilMap
import GhafGivc.Wifi.Security

/-! # Settings of a Wi-Fi connection

For a network with 802.1X the client extends the settings by a JSON text. Its members are
taken for objects, and a value of another shape ends the agent.
-/

namespace GhafGivc.Wifi

open Core

/-- The values that `json.Unmarshal` puts into an `any`. -/
inductive Any where
  | null
  | bool (value : Bool)
  | number (text : String)
  | string (value : String)
  | array (items : List Any)
  | object (members : List (String × Any))

inductive Variant where
  | string (value : String)
  | bool (value : Bool)
  | bytes (value : List UInt8)
  | any (value : Any)

abbrev Settings := NilMap String (NilMap String Variant)

/-- `settings[setting]`, which is nil for a missing key. -/
def Settings.index (settings : Settings) (setting : String) : NilMap String Variant :=
  (settings.get setting).getD .nil

def Settings.value (settings : Settings) (setting key : String) : Option Variant :=
  (settings.index setting).get key

/-- The JSON package, the `dbus` package and the order of `range` over a map. -/
structure Runtime where
  decode : String → Except String Any
  makeVariant : Any → Option Variant
  order : List (String × Any) → List (String × Any)
  order_perm : ∀ members, (order members).Perm members

/-- `json.Unmarshal` of a value into a `map[string]any`; null is the nil map. -/
def unmarshal : Any → Except String (List (String × Any))
  | .null => .ok []
  | .object members => .ok (lastEntries members)
  | .bool _ => .error "json: cannot unmarshal bool into Go value of type map[string]interface {}"
  | .number _ =>
      .error "json: cannot unmarshal number into Go value of type map[string]interface {}"
  | .string _ =>
      .error "json: cannot unmarshal string into Go value of type map[string]interface {}"
  | .array _ =>
      .error "json: cannot unmarshal array into Go value of type map[string]interface {}"

section Merge

variable (rt : Runtime)

/-- `baseSettings[setting][key] = dbus.MakeVariant(value)` -/
def mergeKey (setting : String) (base : Settings) (member : String × Any) :
    Outcome String Settings := do
  let variant ← .orPanic (rt.makeVariant member.2)
  let keys ← (base.index setting).set member.1 variant
  base.set setting keys

/-- A setting that has no map gets an empty one. -/
def makeSetting (base : Settings) (setting : String) : Outcome String Settings :=
  if (base.index setting).isNil then base.set setting .empty else .ok base

/-- One round of the loop over the settings. -/
def mergeSetting (base : Settings) (member : String × Any) : Outcome String Settings := do
  let base ← makeSetting base member.1
  match member.2 with
  | .object keymap => (rt.order (lastEntries keymap)).foldlM (mergeKey rt member.1) base
  | _ => .panicked

def mergeSettings (base : Settings) (raw : String) : Outcome String Settings :=
  match rt.decode raw >>= unmarshal with
  | .error e => .err e
  | .ok settings => (rt.order settings).foldlM (mergeSetting rt) base

/-! ## What a merge does -/

/-- The extension has this value for the key of a setting. -/
def Sets (json : Any) (setting key : String) (value : Any) : Prop :=
  ∃ members keymap, json = .object members ∧ (setting, .object keymap) ∈ lastEntries members ∧
    (key, value) ∈ lastEntries keymap

/-- The extension overrides the base, and nothing else changes. -/
structure Merged (base settings : Settings) (json : Any) : Prop where
  sets : ∀ setting key value, Sets json setting key value →
    ∃ variant, rt.makeVariant value = some variant ∧ settings.value setting key = some variant
  keeps : ∀ setting key, (∀ value, ¬ Sets json setting key value) →
    settings.value setting key = base.value setting key

/-- An object whose values have variants. -/
def Keymap (keys : Any) : Prop :=
  ∃ keymap, keys = .object keymap ∧
    ∀ member ∈ lastEntries keymap, (rt.makeVariant member.2).isSome = true

/-- Every setting of an extension is a keymap, and there is a map to write to. -/
def Extends (base : Settings) (json : Any) : Prop :=
  ∀ members, json = .object members →
    (lastEntries members ≠ [] → base.isNil = false) ∧
    ∀ member ∈ lastEntries members, Keymap rt member.2

variable {rt}

theorem order_nodup (members : List (String × Any)) :
    ((rt.order (lastEntries members)).map Prod.fst).Nodup :=
  ((rt.order_perm _).map Prod.fst).nodup_iff.mpr (nodup_lastEntries members)

variable {members : List (String × Any)} {base : Settings} {raw : String}

theorem mem_order {member : String × Any} :
    member ∈ rt.order (lastEntries members) ↔ member ∈ lastEntries members :=
  (rt.order_perm _).mem_iff

variable (rt) in
/-- The keys that a setting has after its round of the loop. -/
def mergedKeys (old : Option (NilMap String Variant)) (keys : Any) :
    Option (NilMap String Variant) :=
  match keys with
  | .object keymap =>
      (assignAll (fun _ value => rt.makeVariant value) (rt.order (lastEntries keymap))
        (old.getD .nil).get).map .of
  | _ => none

variable {old : Option (NilMap String Variant)} {setting key : String}

theorem mergedKeys_isSome_iff {keys : Any} :
    (mergedKeys rt old keys).isSome = true ↔ Keymap rt keys := by
  unfold mergedKeys Keymap
  cases keys with
  | object keymap =>
      simp only [Option.isSome_map, assignAll_isSome_iff (order_nodup keymap), mem_order]
      simp
  | null | bool | number | string | array => simp

theorem get_mergedKeys {keymap : List (String × Any)} {new : NilMap String Variant}
    (h : mergedKeys rt old (.object keymap) = some new) :
    (∀ key value, (key, value) ∈ lastEntries keymap → new.get key = rt.makeVariant value) ∧
    ∀ key, (∀ value, (key, value) ∉ lastEntries keymap) →
      new.get key = (old.getD .nil).get key := by
  rcases Option.map_eq_some_iff.mp h with ⟨entries, hentries, hnew⟩
  cases hnew
  constructor
  · intro key value hin
    exact assignAll_of_mem (order_nodup keymap) hentries (mem_order.mpr hin)
  · intro key hnot
    apply assignAll_of_notMem hentries
    intro hin
    rcases List.mem_map.mp hin with ⟨⟨k, value⟩, hmem, hk⟩
    cases hk
    exact hnot value (mem_order.mp hmem)

theorem foldlM_mergeKey (setting : String) (f : String → Option (NilMap String Variant))
    (members : List (String × Any)) (keys : String → Option Variant) :
    members.foldlM (mergeKey rt setting) (.of (Function.update f setting (some (.of keys)))) =
      .orPanic ((assignAll (fun _ value => rt.makeVariant value) members keys).map fun keys =>
        .of (Function.update f setting (some (.of keys)))) := by
  refine foldlM_assign (fun keys => (.of (Function.update f setting (some (.of keys))) : Settings))
    ?_ members keys
  intro keys key value
  unfold mergeKey
  cases rt.makeVariant value with
  | none => rfl
  | some variant => simp [Outcome.orPanic, Settings.index, NilMap.set]

theorem makeSetting_of (f : String → Option (NilMap String Variant)) (setting : String) :
    makeSetting (.of f) setting =
      .ok (.of (Function.update f setting (some (.of ((f setting).getD .nil).get)))) := by
  unfold makeSetting Settings.index
  rw [NilMap.get_of]
  cases hf : f setting with
  | none => rfl
  | some old =>
      cases old with
      | nil => rfl
      | of entries =>
          have hself : Function.update f setting (some (.of entries)) = f := by
            rw [← hf]
            exact Function.update_eq_self setting f
          simp [NilMap.isNil, hself]

/-- A round of the loop writes the entry of its own setting, or panics. -/
theorem mergeSetting_of (f : String → Option (NilMap String Variant)) (setting : String)
    (keys : Any) :
    mergeSetting rt (.of f) (setting, keys) =
      .orPanic ((mergedKeys rt (f setting) keys).map fun new =>
        .of (Function.update f setting (some new))) := by
  unfold mergeSetting
  rw [makeSetting_of, Outcome.ok_bind]
  cases keys with
  | object keymap =>
      dsimp only [mergedKeys]
      rw [foldlM_mergeKey, Option.map_map]
      rfl
  | null | bool | number | string | array => rfl

theorem foldlM_mergeSetting (members : List (String × Any))
    (f : String → Option (NilMap String Variant)) :
    members.foldlM (mergeSetting rt) (.of f) =
      .orPanic ((assignAll (mergedKeys rt) members f).map .of) :=
  foldlM_assign NilMap.of mergeSetting_of members f

/-- There is nothing to write to in a nil map. -/
theorem mergeSetting_nil (member : String × Any) : mergeSetting rt .nil member = .panicked := rfl

theorem assignAll_mergedKeys_isSome_iff {f : String → Option (NilMap String Variant)} :
    (assignAll (mergedKeys rt) (rt.order (lastEntries members)) f).isSome = true ↔
      ∀ member ∈ lastEntries members, Keymap rt member.2 := by
  rw [assignAll_isSome_iff (order_nodup members)]
  simp only [mergedKeys_isSome_iff, mem_order]

theorem foldlM_nil_returns_iff :
    ((rt.order (lastEntries members)).foldlM (mergeSetting rt) .nil).Returns ↔
      lastEntries members = [] := by
  have hperm := rt.order_perm (lastEntries members)
  cases horder : rt.order (lastEntries members) with
  | nil =>
      rw [horder] at hperm
      simp [hperm.nil_eq.symm, Outcome.Returns]
  | cons member rest =>
      rw [horder] at hperm
      have hne : lastEntries members ≠ [] := by
        intro hempty
        rw [hempty] at hperm
        cases hperm.eq_nil
      rw [List.foldlM_cons, mergeSetting_nil]
      simp [Outcome.Returns, hne]

theorem foldlM_returns_iff :
    ((rt.order (lastEntries members)).foldlM (mergeSetting rt) base).Returns ↔
      (lastEntries members ≠ [] → base.isNil = false) ∧
      ∀ member ∈ lastEntries members, Keymap rt member.2 := by
  cases base with
  | nil =>
      rw [foldlM_nil_returns_iff]
      constructor
      · intro hempty
        simp [hempty]
      · intro h
        by_contra hne
        cases h.1 hne
  | of f =>
      rw [foldlM_mergeSetting, ← assignAll_mergedKeys_isSome_iff (f := f)]
      cases assignAll (mergedKeys rt) (rt.order (lastEntries members)) f with
      | none => simp [Outcome.Returns, Outcome.orPanic]
      | some new => simp [Outcome.Returns, Outcome.orPanic, NilMap.isNil]

theorem not_sets_of_empty (h : lastEntries members = []) {value : Any} :
    ¬ Sets (.object members) setting key value := by
  intro hsets
  rcases hsets with ⟨members', keymap, hjson, hmem, hkey⟩
  cases hjson
  rw [h] at hmem
  exact absurd hmem List.not_mem_nil

theorem not_sets_null {value : Any} : ¬ Sets .null setting key value := by
  intro hsets
  rcases hsets with ⟨members, keymap, hjson, hmem, hkey⟩
  cases hjson

section AssignAll

variable {f g : String → Option (NilMap String Variant)} {members : List (String × Any)}
  {setting key : String}

/-- A setting of the extension is a keymap, and has the keys that its own round gave it. -/
theorem exists_keymap_of_mem {setting : String} {keys : Any}
    (h : assignAll (mergedKeys rt) (rt.order (lastEntries members)) f = some g)
    (hmem : (setting, keys) ∈ lastEntries members) :
    ∃ keymap new, keys = .object keymap ∧ mergedKeys rt (f setting) (.object keymap) = some new ∧
      g setting = some new ∧
      ∀ member ∈ lastEntries keymap, (rt.makeVariant member.2).isSome = true := by
  have hsome : (assignAll (mergedKeys rt) (rt.order (lastEntries members)) f).isSome = true := by
    rw [h]
    rfl
  have hkeymap : Keymap rt keys := assignAll_mergedKeys_isSome_iff.mp hsome _ hmem
  have hg := assignAll_of_mem (order_nodup members) h (mem_order.mpr hmem)
  rcases Option.isSome_iff_exists.mp (mergedKeys_isSome_iff.mpr hkeymap) with ⟨new, hnew⟩
  rcases hkeymap with ⟨keymap, heq, hvariants⟩
  subst heq
  exact ⟨keymap, new, rfl, hnew, hg.trans hnew, hvariants⟩

theorem value_of_sets {value : Any}
    (h : assignAll (mergedKeys rt) (rt.order (lastEntries members)) f = some g)
    (hsets : Sets (.object members) setting key value) :
    ∃ variant, rt.makeVariant value = some variant ∧
      Settings.value (.of g) setting key = some variant := by
  rcases hsets with ⟨members', keymap, hjson, hmem, hkey⟩
  cases hjson
  rcases exists_keymap_of_mem h hmem with ⟨keymap', new, heq, hnew, hg, hvariants⟩
  cases heq
  rcases Option.isSome_iff_exists.mp (hvariants _ hkey) with ⟨variant, hvariant⟩
  refine ⟨variant, hvariant, ?_⟩
  simp only [Settings.value, Settings.index, NilMap.get_of, hg, Option.getD_some]
  rw [(get_mergedKeys hnew).1 key value hkey, hvariant]

theorem value_of_not_sets
    (h : assignAll (mergedKeys rt) (rt.order (lastEntries members)) f = some g)
    (hnot : ∀ value, ¬ Sets (.object members) setting key value) :
    Settings.value (.of g) setting key = Settings.value (.of f) setting key := by
  simp only [Settings.value, Settings.index, NilMap.get_of]
  by_cases hin : ∃ keys, (setting, keys) ∈ lastEntries members
  · rcases hin with ⟨keys, hmem⟩
    rcases exists_keymap_of_mem h hmem with ⟨keymap, new, heq, hnew, hg, _⟩
    subst heq
    rw [hg, Option.getD_some]
    apply (get_mergedKeys hnew).2
    intro value hkey
    exact hnot value ⟨members, keymap, rfl, hmem, hkey⟩
  · rw [assignAll_of_notMem h]
    intro hmem
    rcases List.mem_map.mp hmem with ⟨⟨k, keys⟩, hkeys, hk⟩
    cases hk
    exact hin ⟨keys, mem_order.mp hkeys⟩

end AssignAll

theorem merged_of_foldlM {base settings : Settings}
    (h : (rt.order (lastEntries members)).foldlM (mergeSetting rt) base = .ok settings) :
    Merged rt base settings (.object members) := by
  cases base with
  | nil =>
      have hempty : lastEntries members = [] := by
        apply foldlM_nil_returns_iff.mp
        rw [h]
        exact Outcome.returns_ok settings
      have hperm := rt.order_perm (lastEntries members)
      rw [hempty] at h hperm
      rw [hperm.eq_nil] at h
      cases h
      exact ⟨fun _ _ _ hsets => absurd hsets (not_sets_of_empty hempty), fun _ _ _ => rfl⟩
  | of f =>
      rw [foldlM_mergeSetting] at h
      cases hassign : assignAll (mergedKeys rt) (rt.order (lastEntries members)) f with
      | none =>
          rw [hassign] at h
          cases h
      | some g =>
          rw [hassign] at h
          cases h
          exact ⟨fun _ _ _ hsets => value_of_sets hassign hsets,
            fun _ _ hnot => value_of_not_sets hassign hnot⟩

theorem mergeSettings_object (h : rt.decode raw = .ok (.object members)) :
    mergeSettings rt base raw =
      (rt.order (lastEntries members)).foldlM (mergeSetting rt) base := by
  unfold mergeSettings
  rw [h]
  rfl

theorem mergeSettings_null (h : rt.decode raw = .ok .null) :
    mergeSettings rt base raw = .ok base := by
  unfold mergeSettings
  rw [h]
  have hnone : (Except.ok Any.null >>= unmarshal) = Except.ok [] := rfl
  rw [hnone]
  dsimp only
  rw [(rt.order_perm []).eq_nil]
  rfl

theorem mergeSettings_err {raw e : String} (h : (rt.decode raw >>= unmarshal) = .error e) :
    mergeSettings rt base raw = .err e := by
  unfold mergeSettings
  rw [h]

variable (rt) in
theorem decode_cases (raw : String) :
    (∃ members, rt.decode raw = .ok (.object members)) ∨ rt.decode raw = .ok .null ∨
    (∃ e, (rt.decode raw >>= unmarshal) = .error e) ∧
      ∀ members, rt.decode raw ≠ .ok (.object members) := by
  cases rt.decode raw with
  | error e => exact .inr (.inr ⟨⟨e, rfl⟩, fun _ h => by cases h⟩)
  | ok json =>
      cases json with
      | object members => exact .inl ⟨members, rfl⟩
      | null => exact .inr (.inl rfl)
      | bool value => exact .inr (.inr ⟨⟨_, rfl⟩, fun _ h => by cases h⟩)
      | number text => exact .inr (.inr ⟨⟨_, rfl⟩, fun _ h => by cases h⟩)
      | string value => exact .inr (.inr ⟨⟨_, rfl⟩, fun _ h => by cases h⟩)
      | array items => exact .inr (.inr ⟨⟨_, rfl⟩, fun _ h => by cases h⟩)

theorem merged_of_mergeSettings {base settings : Settings}
    (h : mergeSettings rt base raw = .ok settings) :
    ∃ json, rt.decode raw = .ok json ∧ Merged rt base settings json := by
  rcases decode_cases rt raw with ⟨members, hdecode⟩ | hdecode | ⟨⟨e, herror⟩, _⟩
  · rw [mergeSettings_object hdecode] at h
    exact ⟨_, hdecode, merged_of_foldlM h⟩
  · rw [mergeSettings_null hdecode] at h
    cases h
    exact ⟨_, hdecode, fun _ _ _ hsets => absurd hsets not_sets_null, fun _ _ _ => rfl⟩
  · rw [mergeSettings_err herror] at h
    cases h

theorem mergeSettings_returns_iff :
    (mergeSettings rt base raw).Returns ↔
      ∀ json, rt.decode raw = .ok json → Extends rt base json := by
  rcases decode_cases rt raw with ⟨members, hdecode⟩ | hdecode | ⟨⟨e, herror⟩, hnot⟩
  · rw [mergeSettings_object hdecode, foldlM_returns_iff]
    simp [hdecode, Extends]
  · rw [mergeSettings_null hdecode]
    simp [hdecode, Extends, Outcome.Returns]
  · rw [mergeSettings_err herror]
    simp only [Outcome.Returns, ne_eq, reduceCtorEq, not_false_eq_true, true_iff]
    intro json hdecode members hjson
    exact absurd (hjson ▸ hdecode) (hnot members)

variable (rt) in
/-- A merge that returns settings has merged the extension into the base. It returns for
exactly the texts that denote no object, or an object whose settings are all objects of
values with a variant. -/
theorem mergeSettings_merges_or_panics (base : Settings) (raw : String) :
    (∀ settings, mergeSettings rt base raw = .ok settings →
      ∃ json, rt.decode raw = .ok json ∧ Merged rt base settings json) ∧
    ((mergeSettings rt base raw).Returns ↔
      ∀ json, rt.decode raw = .ok json → Extends rt base json) :=
  ⟨fun _ h => merged_of_mergeSettings h, mergeSettings_returns_iff⟩

end Merge

/-! ## The settings of a connection -/

def literal {β : Type} (entries : List (String × β)) : NilMap String β :=
  .of fun key => entries.lookup key

def baseSettings (ssid password : String) (keymgmt : Option KeyMgmt) : Settings :=
  literal
    [("connection", literal
      [("id", .string ssid), ("type", .string "802-11-wireless"), ("autoconnect", .bool true)]),
    ("802-11-wireless", literal
      [("ssid", .bytes ssid.toUTF8.toList), ("mode", .string "infrastructure"),
        ("security", .string "802-11-wireless-security")]),
    ("802-11-wireless-security", literal
      [("key-mgmt", .string ((keymgmt.map KeyMgmt.text).getD "")), ("psk", .string password)])]

/-- The settings that `Connect` adds a connection with. -/
def connectSettings (rt : Runtime) (ssid password extendSettings : String)
    (accesspoints : List AP) : Outcome String Settings :=
  let keymgmt := selectKeyMgmt ssid accesspoints
  let settings := baseSettings ssid password keymgmt
  if keymgmt = some .wpaEAP then
    match mergeSettings rt settings extendSettings with
    | .ok settings => .ok settings
    | .err e => .err s!"failed to merge settings {extendSettings}: {e}"
    | .panicked => .panicked
  else .ok settings

/-- Only a network with 802.1X reads the extension. -/
theorem connectSettings_returns_iff (rt : Runtime) (ssid password extendSettings : String)
    (accesspoints : List AP) :
    (connectSettings rt ssid password extendSettings accesspoints).Returns ↔
      (selectKeyMgmt ssid accesspoints = some .wpaEAP →
        ∀ json, rt.decode extendSettings = .ok json →
          Extends rt (baseSettings ssid password (some .wpaEAP)) json) := by
  unfold connectSettings
  by_cases hkey : selectKeyMgmt ssid accesspoints = some .wpaEAP
  · simp only [hkey, if_true, forall_const]
    rw [← mergeSettings_returns_iff]
    cases mergeSettings rt (baseSettings ssid password (some .wpaEAP)) extendSettings with
    | ok settings => simp [Outcome.Returns]
    | err e => simp [Outcome.Returns]
    | panicked => simp [Outcome.Returns]
  · simp [hkey, Outcome.Returns]

/-- A runtime that reads one text, has a variant for everything but nil, and visits a map in
the order of the text. -/
def textRuntime (raw : String) (json : Any) : Runtime where
  decode text := if text = raw then .ok json else .error "unexpected end of JSON input"
  makeVariant
    | .null => none
    | value => some (.any value)
  order members := members
  order_perm members := .refl members

/-- A number where the keys of a setting are expected ends the agent, also when a client
sends it with a connection to a network with 802.1X. -/
theorem scalar_setting_panics :
    let raw := "\x7b\"802-1x\": 1\x7d"
    let rt := textRuntime raw (.object [("802-1x", .number "1")])
    mergeSettings rt (baseSettings "office" "secret" (some .wpaEAP)) raw = .panicked ∧
    connectSettings rt "office" "secret" raw [⟨"office", true, 0, APSec.keyMgmt8021X, ""⟩] =
      .panicked :=
  ⟨rfl, rfl⟩

end GhafGivc.Wifi
