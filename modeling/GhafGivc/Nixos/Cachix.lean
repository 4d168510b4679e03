import GhafGivc.Nixos.Update

/-! # Updates from a Cachix cache

A device takes the first pin of a cache that is a NixOS system of its own kind. The update
server answers as a cache whose pins are the generations of a profile. Its directory may change
between the requests of one update, so each request has its own state of the server.
-/

namespace GhafGivc.Nixos

open Core

structure BootSpec where
  toplevel : String
  system : String
deriving DecidableEq

/-- What a cache answers: to the requests for its pins and about itself, and to that for a file
of a store path by the number of the pin. -/
structure CachixClient where
  listPins : Except String (List Pin)
  getFileFromStore : Nat → String → Except String (List UInt8)
  cacheInfo : Except String CacheInfo
  parse : List UInt8 → Option BootSpec

/-- The hash in the name of a store path. -/
def storeHash (path : String) : Option String := do
  let rest ← (Path.components path.toList).dropPrefix? (Path.components "/nix/store".toList)
  let name ← rest.getLast?.bind Component.name?
  let (hash, _) ← Delimited.splitOnce '-' name
  return String.ofList hash

def filterFrom (client : CachixClient) (system : String) : Nat → List Pin → List (Pin × BootSpec)
  | _, [] => []
  | i, pin :: later =>
      match storeHash pin.lastRevision.storePath with
      | none => filterFrom client system (i + 1) later
      | some hash =>
          match client.getFileFromStore i hash with
          | .error _ => filterFrom client system (i + 1) later
          | .ok bytes =>
              match client.parse bytes with
              | none => filterFrom client system (i + 1) later
              | some spec =>
                  if Path.components spec.toplevel.toList =
                        Path.components pin.lastRevision.storePath.toList ∧
                      spec.system = system then
                    (pin, spec) :: filterFrom client system (i + 1) later
                  else filterFrom client system (i + 1) later

def filterValidSystems (client : CachixClient) (system : String) :
    Except String (List (Pin × BootSpec)) := do
  let pins ← client.listPins
  return filterFrom client system 0 pins

/-- The store path of the first valid system with the name. -/
def candidate (pinName : String) (valid : List (Pin × BootSpec)) : Option String :=
  valid.findSome? fun system =>
    if system.1.name = pinName then some system.1.lastRevision.storePath else none

def performCachixUpdate (client : CachixClient) (m : Machine) (pinName : String) :
    Traced NixCommand String Unit := do
  let system ← Traced.call m.system
  let valid ← Traced.call (filterValidSystems client system)
  let path ← Traced.call ((candidate pinName valid).elim (throw "no valid systems") pure)
  let info ← Traced.call client.cacheInfo
  setGeneration m path [info.uri] info.publicSigningKeys false

/-! ## The pin that is taken -/

/-- The pin of this number is a system of the kind. -/
def CachixClient.Accepts (client : CachixClient) (system : String) (i : Nat) (path : String) :
    Prop :=
  ∃ hash bytes spec, storeHash path = some hash ∧ client.getFileFromStore i hash = .ok bytes ∧
    client.parse bytes = some spec ∧
    Path.components spec.toplevel.toList = Path.components path.toList ∧ spec.system = system

/-- The first pin with the name, among those from number `start` on, that is accepted. -/
def CachixClient.First (client : CachixClient) (system pinName : String) (start : Nat)
    (pins : List Pin) (path : String) : Prop :=
  ∃ i pin, pins[i]? = some pin ∧ pin.name = pinName ∧ pin.lastRevision.storePath = path ∧
    client.Accepts system (start + i) path ∧
    ∀ j < i, ∀ other, pins[j]? = some other → other.name = pinName →
      ¬ client.Accepts system (start + j) other.lastRevision.storePath

section First

variable {client : CachixClient} {system pinName path : String} {start : Nat} {pin : Pin}
  {later : List Pin}

theorem filterFrom_cons (client : CachixClient) (system : String) (start : Nat) (pin : Pin)
    (later : List Pin) :
    (client.Accepts system start pin.lastRevision.storePath ∧
      ∃ spec, filterFrom client system start (pin :: later) =
        (pin, spec) :: filterFrom client system (start + 1) later) ∨
    (¬ client.Accepts system start pin.lastRevision.storePath ∧
      filterFrom client system start (pin :: later) =
        filterFrom client system (start + 1) later) := by
  rw [filterFrom]
  cases hhash : storeHash pin.lastRevision.storePath with
  | none =>
      refine Or.inr ⟨fun haccepts => ?_, rfl⟩
      rcases haccepts with ⟨hash, _, _, hhash', -⟩
      cases hhash.symm.trans hhash'
  | some hash =>
      dsimp only
      cases hfile : client.getFileFromStore start hash with
      | error e =>
          refine Or.inr ⟨fun haccepts => ?_, rfl⟩
          rcases haccepts with ⟨_, bytes, _, hhash', hbytes, -⟩
          cases hhash.symm.trans hhash'
          cases hfile.symm.trans hbytes
      | ok bytes =>
          dsimp only
          cases hparse : client.parse bytes with
          | none =>
              refine Or.inr ⟨fun haccepts => ?_, rfl⟩
              rcases haccepts with ⟨_, _, spec, hhash', hbytes, hspec, -⟩
              cases hhash.symm.trans hhash'
              cases hfile.symm.trans hbytes
              cases hparse.symm.trans hspec
          | some spec =>
              dsimp only
              by_cases hvalid : Path.components spec.toplevel.toList =
                  Path.components pin.lastRevision.storePath.toList ∧ spec.system = system
              · exact Or.inl ⟨⟨hash, bytes, spec, hhash, hfile, hparse, hvalid⟩, spec,
                  if_pos hvalid⟩
              · refine Or.inr ⟨fun haccepts => ?_, if_neg hvalid⟩
                rcases haccepts with ⟨_, _, _, hhash', hbytes, hspec, hvalid'⟩
                cases hhash.symm.trans hhash'
                cases hfile.symm.trans hbytes
                cases hparse.symm.trans hspec
                exact hvalid hvalid'

theorem first_cons :
    client.First system pinName start (pin :: later) path ↔
      (pin.name = pinName ∧ client.Accepts system start pin.lastRevision.storePath ∧
        pin.lastRevision.storePath = path) ∨
      (¬ (pin.name = pinName ∧ client.Accepts system start pin.lastRevision.storePath) ∧
        client.First system pinName (start + 1) later path) := by
  constructor
  · intro h
    rcases h with ⟨i, found, hfound, hname, hpath, haccepts, hbefore⟩
    cases i with
    | zero =>
        cases hfound
        subst hpath
        exact Or.inl ⟨hname, haccepts, rfl⟩
    | succ i =>
        refine Or.inr ⟨fun hpin => ?_, i, found, hfound, hname, hpath, ?_, ?_⟩
        · exact hbefore 0 (Nat.succ_pos i) pin rfl hpin.1 hpin.2
        · rw [Nat.add_assoc, Nat.add_comm 1 i]
          exact haccepts
        · intro j hj other hother hothername
          rw [Nat.add_assoc, Nat.add_comm 1 j]
          exact hbefore (j + 1) (Nat.succ_lt_succ hj) other hother hothername
  · intro h
    rcases h with ⟨hname, haccepts, rfl⟩ | ⟨hpin, i, found, hfound, hname, hpath, haccepts, hbefore⟩
    · exact ⟨0, pin, rfl, hname, rfl, haccepts, fun j hj => absurd hj (Nat.not_lt_zero j)⟩
    · refine ⟨i + 1, found, hfound, hname, hpath, ?_, ?_⟩
      · rw [Nat.add_assoc, Nat.add_comm 1 i] at haccepts
        exact haccepts
      · intro j hj other hother hothername
        cases j with
        | zero =>
            cases hother
            exact fun haccepted => hpin ⟨hothername, haccepted⟩
        | succ j =>
            have hnot := hbefore j (Nat.lt_of_succ_lt_succ hj) other hother hothername
            rw [Nat.add_assoc, Nat.add_comm 1 j] at hnot
            exact hnot

theorem candidate_cons (spec : BootSpec) (valid : List (Pin × BootSpec)) :
    candidate pinName ((pin, spec) :: valid) =
      if pin.name = pinName then some pin.lastRevision.storePath else candidate pinName valid := by
  unfold candidate
  rw [List.findSome?_cons]
  by_cases hname : pin.name = pinName
  · rw [if_pos hname, if_pos hname]
  · rw [if_neg hname, if_neg hname]

theorem candidate_filterFrom {pins : List Pin} :
    candidate pinName (filterFrom client system start pins) = some path ↔
      client.First system pinName start pins path := by
  induction pins generalizing start with
  | nil =>
      constructor
      · intro h
        cases h
      · intro h
        rcases h with ⟨i, pin, hpin, -⟩
        cases hpin
  | cons pin later ih =>
      rw [first_cons]
      rcases filterFrom_cons client system start pin later with ⟨haccepts, spec, heq⟩ | ⟨hnot, heq⟩
      · rw [heq, candidate_cons]
        by_cases hname : pin.name = pinName
        · simp [hname, haccepts]
        · rw [if_neg hname, ih]
          simp [hname]
      · rw [heq, ih]
        simp [hnot]

end First

/-! ## The update server as a cache -/

/-- The states of the server at the requests of one update. -/
structure Session where
  pins : Serve
  files : Nat → Serve
  info : Serve

def Session.client (session : Session) (parse : List UInt8 → Option BootSpec) (cache : String) :
    CachixClient where
  listPins := session.pins.pinList cache
  getFileFromStore i hash := (session.files i).bootJson cache hash
  cacheInfo := .ok (session.info.cacheInfo cache)
  parse := parse

/-- The state at the request for the file of a pin has a generation with the hash of the path,
and the boot specification of the first one is for the path and the kind. -/
def Session.Accepts (session : Session) (parse : List UInt8 → Option BootSpec)
    (cache system : String) (i : Nat) (path : String) : Prop :=
  ∃ hash generations g bytes spec, storeHash path = some hash ∧
    (session.files i).Lists cache generations ∧
    generations.find? (fun g => hasHash hash g.storePath) = some g ∧
    (session.files i).readFile (Image.joinPath g.storePath "boot.json") = .ok bytes ∧
    parse bytes = some spec ∧
    Path.components spec.toplevel.toList = Path.components path.toList ∧ spec.system = system

def Session.First (session : Session) (parse : List UInt8 → Option BootSpec)
    (cache system path : String) : Prop :=
  ∃ generations, session.pins.Lists cache generations ∧
    ∃ i g, generations[i]? = some g ∧ g.storePath = path ∧
      session.Accepts parse cache system i path ∧
      ∀ j < i, ∀ other, generations[j]? = some other →
        ¬ session.Accepts parse cache system j other.storePath

theorem performCachixUpdate_spec (client : CachixClient) (m : Machine) (pinName : String) :
    (∃ system pins info path, m.system = .ok system ∧ client.listPins = .ok pins ∧
      client.cacheInfo = .ok info ∧ client.First system pinName 0 pins path ∧
      performCachixUpdate client m pinName =
        setGeneration m path [info.uri] info.publicSigningKeys false) ∨
    ((∀ system pins info path, m.system = .ok system → client.listPins = .ok pins →
      client.cacheInfo = .ok info → ¬ client.First system pinName 0 pins path) ∧
      Refused (performCachixUpdate client m pinName)) := by
  unfold performCachixUpdate filterValidSystems
  cases hsystem : m.system with
  | error e =>
      refine Or.inr ⟨fun _ _ _ _ hsystem' => ?_, _, Traced.call_error_bind _ _⟩
      cases hsystem'
  | ok system =>
      rw [Traced.call_ok_bind]
      cases hpins : client.listPins with
      | error e =>
          refine Or.inr ⟨fun _ _ _ _ _ hpins' => ?_, _, Traced.call_error_bind _ _⟩
          cases hpins'
      | ok pins =>
          rw [Fallible.ok_bind, Fallible.pure_eq, Traced.call_ok_bind]
          cases hpath : candidate pinName (filterFrom client system 0 pins) with
          | none =>
              refine Or.inr ⟨fun _ _ _ path hsystem' hpins' _ hfirst => ?_, _,
                Traced.call_error_bind _ _⟩
              cases hsystem'
              cases hpins'
              cases hpath.symm.trans (candidate_filterFrom.mpr hfirst)
          | some path =>
              rw [Option.elim_some, Fallible.pure_eq, Traced.call_ok_bind]
              cases hinfo : client.cacheInfo with
              | error e =>
                  refine Or.inr ⟨fun _ _ _ _ _ _ hinfo' => ?_, _, Traced.call_error_bind _ _⟩
                  cases hinfo'
              | ok info =>
                  exact Or.inl ⟨system, pins, info, path, rfl, rfl, rfl,
                    candidate_filterFrom.mp hpath, Traced.call_ok_bind _ _⟩

section Server

variable {session : Session} {parse : List UInt8 → Option BootSpec}
  {cache system pinName path : String}

theorem client_accepts_iff {i : Nat} : (session.client parse cache).Accepts system i path ↔
    session.Accepts parse cache system i path := by
  unfold CachixClient.Accepts Session.Accepts Session.client
  dsimp only
  simp only [bootJson_eq_ok]
  constructor
  · intro h
    rcases h with ⟨hash, bytes, spec, hhash, ⟨generations, hlists, g, hfind, hbytes⟩, hspec⟩
    exact ⟨hash, generations, g, bytes, spec, hhash, hlists, hfind, hbytes, hspec⟩
  · intro h
    rcases h with ⟨hash, generations, g, bytes, spec, hhash, hlists, hfind, hbytes, hspec⟩
    exact ⟨hash, bytes, spec, hhash, ⟨generations, hlists, g, hfind, hbytes⟩, hspec⟩

theorem client_first_iff :
    (∃ pins, (session.client parse cache).listPins = .ok pins ∧
      (session.client parse cache).First system pinName 0 pins path) ↔
      pinName = cache ∧ session.First parse cache system path := by
  constructor
  · intro h
    rcases h with ⟨pins, hpins, i, pin, hpin, hname, hpath, haccepts, hbefore⟩
    rcases pinList_eq_ok.mp hpins with ⟨generations, hlists, rfl⟩
    rw [List.getElem?_map, Option.map_eq_some_iff] at hpin
    rcases hpin with ⟨g, hg, rfl⟩
    rw [Nat.zero_add, client_accepts_iff] at haccepts
    refine ⟨hname.symm, generations, hlists, i, g, hg, hpath, haccepts, ?_⟩
    intro j hj other hother haccepted
    have hotherpin : (generations.map fun g =>
        (g.toUpdate session.pins.pubKey).toPin cache)[j]? =
          some ((other.toUpdate session.pins.pubKey).toPin cache) := by
      rw [List.getElem?_map, hother]
      rfl
    have hnot := hbefore j hj _ hotherpin hname
    rw [Nat.zero_add, client_accepts_iff] at hnot
    exact hnot haccepted
  · intro h
    rcases h with ⟨rfl, generations, hlists, i, g, hg, hpath, haccepts, hbefore⟩
    refine ⟨_, pinList_eq_ok.mpr ⟨generations, hlists, rfl⟩, i,
      (g.toUpdate session.pins.pubKey).toPin pinName, ?_, rfl, hpath, ?_, ?_⟩
    · rw [List.getElem?_map, hg]
      rfl
    · rw [Nat.zero_add, client_accepts_iff]
      exact haccepts
    · intro j hj other hother _
      rw [List.getElem?_map, Option.map_eq_some_iff] at hother
      rcases hother with ⟨g', hg', rfl⟩
      rw [Nat.zero_add, client_accepts_iff]
      exact hbefore j hj g' hg'

end Server

/-- From the update server as a cache to the boot of the device: an update installs the first
listed generation that is a system of the kind, not the one that the link of the profile names,
and only if the pin is asked for by the name of the cache. -/
theorem cachix_update_installs_first (session : Session) (parse : List UInt8 → Option BootSpec)
    (cache pinName : String) (m : Machine) :
    (∃ system path, m.system = .ok system ∧ pinName = cache ∧
      session.First parse cache system path ∧ matchesSystem path = true ∧
      Installs m path [session.info.cachix] [session.info.pubKey] false
        (performCachixUpdate (session.client parse cache) m pinName)) ∨
    ((∀ system path, m.system = .ok system → pinName = cache →
      session.First parse cache system path → matchesSystem path = false) ∧
      Refused (performCachixUpdate (session.client parse cache) m pinName)) := by
  rcases performCachixUpdate_spec (session.client parse cache) m pinName with
    ⟨system, pins, info, path, hsystem, hpins, hinfo, hfirst, hrun⟩ | ⟨hnone, hrefused⟩
  · cases hinfo
    have hserver := client_first_iff.mp ⟨pins, hpins, hfirst⟩
    rw [hrun]
    cases hmatches : matchesSystem path with
    | true =>
        exact Or.inl ⟨system, path, hsystem, hserver.1, hserver.2, hmatches,
          setGeneration_installs m _ _ _ hmatches⟩
    | false =>
        refine Or.inr ⟨?_, setGeneration_refused m _ _ _ hmatches⟩
        intro system' path' hsystem' hname hfirst'
        cases hsystem.symm.trans hsystem'
        rcases client_first_iff.mpr ⟨hname, hfirst'⟩ with ⟨pins', hpins', hfirst''⟩
        cases hpins.symm.trans hpins'
        have hsame := (candidate_filterFrom.mpr hfirst).symm.trans
          (candidate_filterFrom.mpr hfirst'')
        cases hsame
        exact hmatches
  · refine Or.inr ⟨?_, hrefused⟩
    intro system path hsystem hname hfirst
    rcases client_first_iff.mpr ⟨hname, hfirst⟩ with ⟨pins, hpins, hfirst'⟩
    exact absurd hfirst' (hnone system pins _ path hsystem hpins rfl)

/-! ## The link of the profile -/

/-- The link of the profile names one of its generations. -/
def ProfileDir.HasDefault (dir : ProfileDir) (profile : String) : Prop :=
  ∃ default generation, dir.readLink profile = .ok (some default) ∧
    parseProfileLink profile default = some generation

def Serve.withDefault (serve : Serve) (profile default : String) : Serve :=
  { serve with dir := { serve.dir with
      readLink := Function.update serve.dir.readLink profile (.ok (some default)) } }

def Session.withDefault (session : Session) (profile default : String) : Session where
  pins := session.pins.withDefault profile default
  files i := (session.files i).withDefault profile default
  info := session.info.withDefault profile default

theorem element_storePath (profile default other : String) (entry : DirEntry) :
    (element profile default entry).map ProfileElement.storePath =
      (element profile other entry).map ProfileElement.storePath := by
  unfold element
  simp only [bind, pure, Option.map_bind, Function.comp_def, Option.map_some]

theorem readEntries_storePath (profile default other : String)
    (listing : List (Except String DirEntry)) :
    (readEntries profile default listing).map (List.map ProfileElement.storePath) =
      (readEntries profile other listing).map (List.map ProfileElement.storePath) := by
  induction listing with
  | nil => rfl
  | cons first later ih =>
      cases first with
      | error e => rfl
      | ok entry =>
          rw [readEntries, readEntries]
          by_cases hname : entry.name = none
          · rw [if_pos hname, if_pos hname]
          · rw [if_neg hname, if_neg hname]
            rcases Fallible.map_eq_map ih with ⟨e, he, he'⟩ | ⟨gs, gs', hgs, hgs', hpaths⟩
            · rw [he, he']
              rfl
            · rw [hgs, hgs']
              have hhead := element_storePath profile default other entry
              change Except.ok _ = Except.ok _
              rw [List.map_append, List.map_append, hpaths, ← Option.toList_map,
                ← Option.toList_map, hhead]

section Default

variable {serve : Serve} {profile default : String} {generation : Int}

theorem storePath_getUpdateList (hlink : serve.dir.readLink profile = .ok (some default))
    (hdefault : parseProfileLink profile default = some generation) :
    (serve.getUpdateList profile).map (List.map UpdateInfo.storePath) =
      ((do
        let listing ← serve.dir.readDir
        readEntries profile default listing).mapError fun _ =>
          "While reading profile " ++ serve.dir.path ++ " with " ++ profile).map
        (List.map ProfileElement.storePath) := by
  unfold Serve.getUpdateList readProfileLinks
  rw [hlink]
  cases hdir : serve.dir.readDir with
  | error e => simp [Except.mapError, Except.map, hdefault]
  | ok listing =>
      cases hentries : readEntries profile default listing with
      | error e => simp [Except.mapError, Except.map, hdefault, hentries]
      | ok generations =>
          simp [Except.mapError, Except.map, hdefault, hentries, ProfileElement.toUpdate]

theorem storePath_getUpdateList_withDefault (h : serve.dir.HasDefault profile)
    (hdefault : parseProfileLink profile default = some generation) :
    ((serve.withDefault profile default).getUpdateList profile).map
        (List.map UpdateInfo.storePath) =
      (serve.getUpdateList profile).map (List.map UpdateInfo.storePath) := by
  rcases h with ⟨old, oldGeneration, hlink, hold⟩
  have hnew : (serve.withDefault profile default).dir.readLink profile = .ok (some default) :=
    Function.update_self ..
  have hdir : (serve.withDefault profile default).dir.readDir = serve.dir.readDir := rfl
  have hpath : (serve.withDefault profile default).dir.path = serve.dir.path := rfl
  rw [storePath_getUpdateList hlink hold, storePath_getUpdateList hnew hdefault, hdir, hpath]
  cases serve.dir.readDir with
  | error e => rfl
  | ok listing =>
      rw [Fallible.ok_bind, Fallible.ok_bind]
      rcases Fallible.map_eq_map (readEntries_storePath profile default old listing) with
        ⟨e, he, he'⟩ | ⟨gs, gs', hgs, hgs', hpaths⟩
      · rw [he, he']
      · rw [hgs, hgs']
        exact congrArg Except.ok hpaths

theorem pinList_withDefault (h : serve.dir.HasDefault profile)
    (hdefault : parseProfileLink profile default = some generation) :
    (serve.withDefault profile default).pinList profile = serve.pinList profile := by
  have hallowed : (serve.withDefault profile default).allowedProfiles = serve.allowedProfiles := rfl
  unfold Serve.pinList
  rw [hallowed]
  rcases Fallible.map_eq_map (storePath_getUpdateList_withDefault h hdefault) with
    ⟨e, he, he'⟩ | ⟨updates, updates', hu, hu', hpaths⟩
  · rw [he, he']
  · rw [hu, hu']
    have hpins (us : List UpdateInfo) : us.map (UpdateInfo.toPin profile) =
        (us.map UpdateInfo.storePath).map fun path =>
          ⟨profile, "dummy date", ⟨path, "dummy date", 1, []⟩⟩ := by
      rw [List.map_map]
      rfl
    change (if _ then Except.ok (updates.map _) else _) =
      if _ then Except.ok (updates'.map _) else _
    rw [hpins updates, hpins updates', hpaths]

theorem bootJson_withDefault (h : serve.dir.HasDefault profile)
    (hdefault : parseProfileLink profile default = some generation) (hash : String) :
    (serve.withDefault profile default).bootJson profile hash = serve.bootJson profile hash := by
  have hallowed : (serve.withDefault profile default).allowedProfiles = serve.allowedProfiles := rfl
  have hread : (serve.withDefault profile default).readFile = serve.readFile := rfl
  unfold Serve.bootJson
  rw [hallowed, hread]
  rcases Fallible.map_eq_map (storePath_getUpdateList_withDefault h hdefault) with
    ⟨e, he, he'⟩ | ⟨updates, updates', hu, hu', hpaths⟩
  · rw [he, he']
  · rw [hu, hu']
    dsimp only
    have hfind : (updates.find? fun update => hasHash hash update.storePath).map
          UpdateInfo.storePath =
        (updates'.find? fun update => hasHash hash update.storePath).map
          UpdateInfo.storePath := by
      have hsearch := congrArg (List.find? (hasHash hash)) hpaths
      rw [List.find?_map, List.find?_map] at hsearch
      exact hsearch
    cases hone : updates.find? fun update => hasHash hash update.storePath with
    | none =>
        rw [hone, Option.map_none, eq_comm, Option.map_eq_none_iff] at hfind
        rw [hfind]
    | some base =>
        rw [hone, Option.map_some, eq_comm, Option.map_eq_some_iff] at hfind
        rcases hfind with ⟨base', hbase', hpath⟩
        rw [hbase']
        dsimp only
        rw [hpath]

end Default

/-- A link of the directory leads to the path. -/
def ProfileDir.LinksTo (dir : ProfileDir) (name path : String) : Prop :=
  ∃ entries : List DirEntry, dir.readDir = .ok (entries.map .ok) ∧
    ∃ entry ∈ entries, entry.name = some name ∧ entry.target = some path ∧
      Path.isAbsolute path.toList = true ∧ entry.targetExists = true

/-- The server's own list follows the link of the profile. -/
theorem current_withDefault {serve : Serve} {profile default : String} {generation : Int}
    {updates : List UpdateInfo} (hdefault : parseProfileLink profile default = some generation)
    (h : (serve.withDefault profile default).getUpdateList profile = .ok updates) (path : String) :
    (∃ update ∈ updates, update.current = true ∧ update.storePath = path) ↔
      serve.dir.LinksTo default path := by
  rcases getUpdateList_eq_ok.mp h with ⟨_, generations, hread, rfl⟩
  rcases readProfileLinks_eq_ok.mp hread with ⟨found, entries, hreads, rfl⟩
  have hfound : found = default := by
    have hlink := hreads.link
    simp only [Serve.withDefault, Function.update_self] at hlink
    cases hlink
    rfl
  subst hfound
  constructor
  · rintro ⟨update, hupdate, hcurrent, rfl⟩
    rcases List.mem_map.mp hupdate with ⟨g, hg, rfl⟩
    rcases List.mem_filterMap.mp hg with ⟨entry, hentry, helement⟩
    rcases element_eq_some.mp helement with ⟨name, hname, -, htarget, habsolute, hexists, heq⟩
    have hnamed : found = name := of_decide_eq_true (heq.symm.trans hcurrent)
    exact ⟨entries, hreads.listing, entry, hentry, hnamed ▸ hname, htarget, habsolute, hexists⟩
  · rintro ⟨others, hothers, entry, hentry, hname, htarget, habsolute, hexists⟩
    have hsame : others = entries :=
      List.map_injective_iff.mpr (fun _ _ heq => Except.ok.inj heq)
        (Except.ok.inj (hothers.symm.trans hreads.listing))
    subst hsame
    have helement : element profile found entry = some ⟨generation, path, true⟩ :=
      element_eq_some.mpr ⟨found, hname, hdefault, htarget, habsolute, hexists, by simp⟩
    exact ⟨_, List.mem_map_of_mem (List.mem_filterMap.mpr ⟨entry, hentry, helement⟩), rfl, rfl⟩

/-- Moving the link of the profile, back or forth, changes nothing for a device that updates
from the cache, although what the server's own list has as current is what the link names. -/
theorem cachix_update_ignores_default {session : Session} {cache default : String}
    {generation : Int} (parse : List UInt8 → Option BootSpec) (m : Machine) (pinName : String)
    (hpins : session.pins.dir.HasDefault cache)
    (hfiles : ∀ i, (session.files i).dir.HasDefault cache)
    (hdefault : parseProfileLink cache default = some generation) :
    performCachixUpdate ((session.withDefault cache default).client parse cache) m pinName =
        performCachixUpdate (session.client parse cache) m pinName ∧
      ∀ updates, (session.pins.withDefault cache default).getUpdateList cache = .ok updates →
        ∀ path, (∃ update ∈ updates, update.current = true ∧ update.storePath = path) ↔
          session.pins.dir.LinksTo default path := by
  refine ⟨?_, fun updates hupdates => current_withDefault hdefault hupdates⟩
  have hclient : (session.withDefault cache default).client parse cache =
      session.client parse cache := by
    unfold Session.client
    congr 1
    · exact pinList_withDefault hpins hdefault
    · funext i hash
      exact bootJson_withDefault (hfiles i) hdefault hash
  rw [hclient]

/-- A decoder for the specifications of the two systems. -/
def ghafParse (bytes : List UInt8) : Option BootSpec :=
  (ghafPaths.find? fun path => bytes = (bootJsonText path).toUTF8.toList).map
    (⟨·, "x86_64-linux"⟩)

theorem cachix_update_ignores_default_ghaf :
    performCachixUpdate ((Session.withDefault ⟨ghafServe, fun _ => ghafServe, ghafServe⟩ "ghaf"
        "ghaf-1-link").client ghafParse "ghaf")
      ⟨.ok true, .ok true, .ok true, .ok "x86_64-linux"⟩ "ghaf" =
    performCachixUpdate (Session.client ⟨ghafServe, fun _ => ghafServe, ghafServe⟩ ghafParse "ghaf")
      ⟨.ok true, .ok true, .ok true, .ok "x86_64-linux"⟩ "ghaf" := by
  have hdefault : ghafServe.dir.HasDefault "ghaf" := ⟨"ghaf-2-link", 2, rfl, by decide⟩
  exact (cachix_update_ignores_default _ _ _ hdefault (fun _ => hdefault)
    (show parseProfileLink "ghaf" "ghaf-1-link" = some 1 by decide)).1

end GhafGivc.Nixos
