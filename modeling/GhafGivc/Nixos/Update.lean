import GhafGivc.Nixos.UpdateServer
import GhafGivc.Core.Traced

/-! # Updates of a device

A device takes the generation that the update server offers, builds it, makes it the system
profile and has it installed for the next boot. What the commands answer is data.
-/

namespace GhafGivc.Nixos

open Core

/-- `[a-df-np-sv-z0-9]` -/
def isHashChar (c : Char) : Bool :=
  ('a' ≤ c ∧ c ≤ 'd') ∨ ('f' ≤ c ∧ c ≤ 'n') ∨ ('p' ≤ c ∧ c ≤ 's') ∨ ('v' ≤ c ∧ c ≤ 'z') ∨
    ('0' ≤ c ∧ c ≤ '9')

/-- `^/nix/store/[a-df-np-sv-z0-9]{32}-nixos-system-[^/]+$` -/
def matchesSystem (path : String) : Bool :=
  match Text.stripLead "/nix/store/".toList path.toList with
  | none => false
  | some rest =>
      match Text.stripLead "-nixos-system-".toList (rest.drop 32) with
      | none => false
      | some name => (rest.take 32).length = 32 ∧ (rest.take 32).all isHashChar ∧ name ≠ [] ∧
          '/' ∉ name

def isValidNixPath (path : String) : Except String Unit :=
  if matchesSystem path then .ok ()
  else .error ("Path " ++ path ++ " is not valid NixOS system path!")

inductive NixCommand where
  | run (program : String) (args : List String)
  | removeFile (path : String)
deriving DecidableEq

/-- What the device answers: how the commands end (or that they cannot be run), and the system
in the boot specification of the running system. -/
structure Machine where
  nixBuild : Except String Bool
  nixEnv : Except String Bool
  switchToConfiguration : Except String Bool
  system : Except String String

def gcroot : String := "/nix/var/nix/gcroots/auto/ota-update"

def buildArgs (path : String) (sources pubKeys : List String) (noCheckSigns : Bool) :
    List String :=
  ["--extra-experimental-features", "nix-command", "build", path, "--out-link", gcroot] ++
    (sources.flatMap fun source => ["--extra-substituters", source]) ++
    (pubKeys.flatMap fun key => ["--extra-trusted-public-keys", key]) ++
    if noCheckSigns then ["--no-check-sigs"] else []

def setProfile (nixEnv : Except String Bool) (path profile closure : String) :
    Traced NixCommand String Unit := do
  Traced.emit (.run "nix-env" ["-p", Image.joinPath path profile, "--set", closure])
  let success ← Traced.call (nixEnv.mapError fun _ => "Fail to execute nix-env")
  if success then pure () else Traced.call (.error "nix-env failed")

def bootPath (path : String) : String := Image.joinPath path "bin/switch-to-configuration"

/-- A link that cannot be removed is only logged, and how the last command ends is not looked
at. -/
def setGeneration (m : Machine) (path : String) (sources pubKeys : List String)
    (noCheckSigns : Bool) : Traced NixCommand String Unit := do
  Traced.call (isValidNixPath path)
  Traced.emit (.run "nix" (buildArgs path sources pubKeys noCheckSigns))
  let success ← Traced.call (m.nixBuild.mapError fun _ => "Failed to execute 'nix build'")
  if success then do
    setProfile m.nixEnv "/nix/var/nix/profiles/" "system" path
    Traced.emit (.removeFile gcroot)
    Traced.emit (.run (bootPath path) ["boot"])
    let _ ← Traced.call (m.switchToConfiguration.mapError fun _ =>
      "Fail to execute " ++ bootPath path)
    pure ()
  else Traced.call (.error "nix build failed")

/-! ## Updates from the update server -/

/-- The update that is chosen: the one of the given path, or the current one. -/
def chooses (maybePath : Option String) (update : UpdateInfo) : Bool :=
  match maybePath with
  | some path => Path.components path.toList = Path.components update.storePath.toList
  | none => update.current

section Query

-- what a GET of a URL brings: no response, or the body of one as JSON, if it is that
variable (get : String → Except String (Except String (List UpdateInfo)))

def queryAvailableUpdates (serverUrl pinName : String) : Except String (List UpdateInfo) :=
  let url := serverUrl ++ "/update/" ++ pinName
  match get url with
  | .error _ => .error ("Fail to fetch updates info! Url is " ++ url)
  | .ok body => body.mapError fun _ => "fail to parse update info json"

def performLocalUpdate (m : Machine) (maybePath : Option String) (source pinName : String)
    (noCheckSigns : Bool) : Traced NixCommand String Unit := do
  let updates ← Traced.call (queryAvailableUpdates get source pinName)
  let candidate ← Traced.call
    ((updates.find? (chooses maybePath)).elim (throw "No valid candidate found") pure)
  setGeneration m candidate.storePath [source] [candidate.pubKey] noCheckSigns

def isUnreserved (c : Char) : Bool :=
  c.isAlphanum ∨ c = '-' ∨ c = '.' ∨ c = '_' ∨ c = '~'

/-- A name that stands for itself as the last part of a URL. -/
def isSegment (name : String) : Bool :=
  name ≠ "" ∧ name ≠ "." ∧ name ≠ ".." ∧ name.toList.all isUnreserved

/-- The server answers under this URL. -/
def Serve.HostedAt (serve : Serve) (url : String) : Prop :=
  ∀ name, isSegment name = true → get (url ++ "/update/" ++ name) = .ok (serve.updateHandler name)

end Query

/-! ## What is installed -/

/-- The build and the new profile succeed, and the command for the next boot can be run. -/
def Machine.Succeeds (m : Machine) : Prop :=
  m.nixBuild = .ok true ∧ m.nixEnv = .ok true ∧ ∃ status, m.switchToConfiguration = .ok status

def installCommands (path : String) (sources pubKeys : List String) (noCheckSigns : Bool) :
    List NixCommand :=
  [.run "nix" (buildArgs path sources pubKeys noCheckSigns),
    .run "nix-env" ["-p", "/nix/var/nix/profiles/system", "--set", path],
    .removeFile gcroot,
    .run (bootPath path) ["boot"]]

/-- How many of these commands are run: a build or a profile change that fails is the last. -/
def Machine.reached (m : Machine) : Nat :=
  if m.nixBuild = .ok true then if m.nixEnv = .ok true then 4 else 2 else 1

/-- The commands that install the path are run up to one that fails. -/
structure Installs (m : Machine) (path : String) (sources pubKeys : List String)
    (noCheckSigns : Bool) (run : Traced NixCommand String Unit) : Prop where
  commands : run.trace = (installCommands path sources pubKeys noCheckSigns).take m.reached
  succeeds : run.result = .ok () ↔ m.Succeeds
  fails : ¬ m.Succeeds → ∃ error, run.result = .err error

/-- Nothing is done, and this is reported. -/
def Refused (run : Traced NixCommand String Unit) : Prop := ∃ error, run = ⟨[], .err error⟩

section Set

variable (m : Machine) {path : String} (sources pubKeys : List String) (noCheckSigns : Bool)

theorem Installs.of_failed {m} {noCheckSigns} {run : Traced NixCommand String Unit}
    {error : String}
    (htrace : run.trace = (installCommands path sources pubKeys noCheckSigns).take m.reached)
    (hresult : run.result = .err error) (hm : ¬ m.Succeeds) :
    Installs m path sources pubKeys noCheckSigns run where
  commands := htrace
  succeeds := by
    constructor
    · intro h
      cases hresult.symm.trans h
    · intro h
      exact absurd h hm
  fails _ := ⟨error, hresult⟩

theorem setGeneration_installs (h : matchesSystem path = true) :
    Installs m path sources pubKeys noCheckSigns
      (setGeneration m path sources pubKeys noCheckSigns) := by
  have hlink : Image.joinPath "/nix/var/nix/profiles/" "system" =
      "/nix/var/nix/profiles/system" := by decide
  rcases m with ⟨nixBuild, nixEnv, switch, system⟩
  unfold setGeneration isValidNixPath setProfile
  rw [if_pos h, hlink, Traced.call_ok_bind]
  cases nixBuild with
  | error e => exact .of_failed _ _ rfl rfl fun hm => by cases hm.1
  | ok built =>
      cases built with
      | false => exact .of_failed _ _ rfl rfl fun hm => by cases hm.1
      | true =>
          cases nixEnv with
          | error e => exact .of_failed _ _ rfl rfl fun hm => by cases hm.2.1
          | ok set =>
              cases set with
              | false => exact .of_failed _ _ rfl rfl fun hm => by cases hm.2.1
              | true =>
                  cases switch with
                  | error e =>
                      refine .of_failed _ _ rfl rfl fun hm => ?_
                      rcases hm.2.2 with ⟨status, hstatus⟩
                      cases hstatus
                  | ok status =>
                      have hm : Machine.Succeeds ⟨.ok true, .ok true, .ok status, system⟩ :=
                        ⟨rfl, rfl, status, rfl⟩
                      exact ⟨rfl, ⟨fun _ => hm, fun _ => rfl⟩, fun hnot => absurd hm hnot⟩

theorem setGeneration_refused (h : matchesSystem path = false) :
    Refused (setGeneration m path sources pubKeys noCheckSigns) := by
  unfold setGeneration isValidNixPath
  rw [h, if_neg (by decide)]
  exact ⟨_, rfl⟩

end Set

/-- The path that the server of an allowed profile has for a device: where the link for the
profile leads, or the first listed path that equals the wanted one. -/
def Serve.Offers (serve : Serve) (profile : String) (maybePath : Option String) (path : String) :
    Prop :=
  match maybePath with
  | none => profile ∈ serve.allowedProfiles ∧ serve.dir.Points profile path
  | some wanted => ∃ before g after, serve.Lists profile (before ++ g :: after) ∧
      g.storePath = path ∧ Path.components wanted.toList = Path.components path.toList ∧
      ∀ other ∈ before,
        Path.components wanted.toList ≠ Path.components other.storePath.toList

section Choice

variable {get : String → Except String (Except String (List UpdateInfo))} {m : Machine}
  {maybePath : Option String} {source pinName : String} {noCheckSigns : Bool}
  {updates : List UpdateInfo}

theorem performLocalUpdate_of_error {error : String}
    (h : queryAvailableUpdates get source pinName = .error error) :
    performLocalUpdate get m maybePath source pinName noCheckSigns = ⟨[], .err error⟩ := by
  unfold performLocalUpdate
  rw [h, Traced.call_error_bind]

theorem performLocalUpdate_of_none (h : queryAvailableUpdates get source pinName = .ok updates)
    (hfind : updates.find? (chooses maybePath) = none) :
    performLocalUpdate get m maybePath source pinName noCheckSigns =
      ⟨[], .err "No valid candidate found"⟩ := by
  unfold performLocalUpdate
  rw [h, Traced.call_ok_bind, hfind]
  rfl

theorem performLocalUpdate_of_some {update : UpdateInfo}
    (h : queryAvailableUpdates get source pinName = .ok updates)
    (hfind : updates.find? (chooses maybePath) = some update) :
    performLocalUpdate get m maybePath source pinName noCheckSigns =
      setGeneration m update.storePath [source] [update.pubKey] noCheckSigns := by
  unfold performLocalUpdate
  rw [h, Traced.call_ok_bind, hfind]
  exact Traced.call_ok_bind update _

end Choice

section Local

variable {get : String → Except String (Except String (List UpdateInfo))} {serve : Serve}
  {profile path : String} {maybePath : Option String} {updates : List UpdateInfo}

theorem points_iff : (profile ∈ serve.allowedProfiles ∧ serve.dir.Points profile path) ↔
    ∃ generations g, serve.Lists profile generations ∧
      generations.find? ProfileElement.current = some g ∧ g.storePath = path := by
  constructor
  · intro h
    rcases h with ⟨hallowed, hpoints⟩
    rcases id hpoints with ⟨default, generation, entries, hreads, -⟩
    rcases (find_current_storePath hreads).mpr hpoints with ⟨g, hfind, hpath⟩
    have hlist := readProfileLinks_eq_ok.mpr ⟨default, entries, hreads, rfl⟩
    exact ⟨_, g, ⟨hallowed, generation, hlist⟩, hfind, hpath⟩
  · intro h
    rcases h with ⟨generations, g, ⟨hallowed, generation, hread⟩, hfind, hpath⟩
    rcases readProfileLinks_eq_ok.mp hread with ⟨default, entries, hreads, rfl⟩
    exact ⟨hallowed, (find_current_storePath hreads).mp ⟨g, hfind, hpath⟩⟩

theorem offers_iff : serve.Offers profile maybePath path ↔
    ∃ generations g, serve.Lists profile generations ∧
      generations.find? (fun g => chooses maybePath (g.toUpdate serve.pubKey)) = some g ∧
        g.storePath = path := by
  cases maybePath with
  | none => exact points_iff
  | some wanted =>
      constructor
      · intro h
        rcases h with ⟨before, g, after, hlists, rfl, hequal, hbefore⟩
        refine ⟨_, g, hlists, List.find?_eq_some_iff_append.mpr ⟨?_, before, after, rfl, ?_⟩, rfl⟩
        · exact decide_eq_true hequal
        · intro other hother
          rw [Bool.not_eq_true']
          exact decide_eq_false (hbefore other hother)
      · intro h
        rcases h with ⟨generations, g, hlists, hfind, rfl⟩
        rcases List.find?_eq_some_iff_append.mp hfind with ⟨hequal, before, after, rfl, hbefore⟩
        refine ⟨before, g, after, hlists, rfl, of_decide_eq_true hequal, ?_⟩
        intro other hother
        exact of_decide_eq_false ((Bool.not_eq_true' _).mp (hbefore other hother))

theorem Serve.Lists.unique {one other : List ProfileElement} (h : serve.Lists profile one)
    (h' : serve.Lists profile other) : one = other := by
  rcases h with ⟨-, generation, hread⟩
  rcases h' with ⟨-, generation', hread'⟩
  cases hread.symm.trans hread'
  rfl

theorem offers_iff_find (h : serve.updateHandler profile = .ok updates) :
    serve.Offers profile maybePath path ↔
      ∃ update, updates.find? (chooses maybePath) = some update ∧ update.storePath = path := by
  rw [offers_iff]
  rcases updateHandler_eq_ok.mp h with ⟨generations, hlists, rfl⟩ | ⟨hdenied, rfl⟩
  · rw [List.find?_map]
    constructor
    · intro hoffers
      rcases hoffers with ⟨others, g, hothers, hfind, rfl⟩
      cases hothers.unique hlists
      exact ⟨g.toUpdate serve.pubKey, Option.map_eq_some_iff.mpr ⟨g, hfind, rfl⟩, rfl⟩
    · intro hfind
      rcases hfind with ⟨update, hupdate, rfl⟩
      rcases Option.map_eq_some_iff.mp hupdate with ⟨g, hg, rfl⟩
      exact ⟨generations, g, hlists, hg, rfl⟩
  · constructor
    · intro hoffers
      rcases hoffers with ⟨_, _, hlists, -⟩
      exact absurd hlists.1 hdenied
    · intro hfind
      rcases hfind with ⟨_, hupdate, -⟩
      cases hupdate

theorem pubKey_of_mem {update : UpdateInfo} (h : serve.updateHandler profile = .ok updates)
    (hmem : update ∈ updates) : update.pubKey = serve.pubKey := by
  rcases updateHandler_eq_ok.mp h with ⟨generations, -, rfl⟩ | ⟨-, rfl⟩
  · rcases List.mem_map.mp hmem with ⟨g, -, rfl⟩
    rfl
  · cases hmem

theorem queryAvailableUpdates_of_hosted {source pinName : String}
    (hhosted : serve.HostedAt get source) (hpin : isSegment pinName = true) :
    queryAvailableUpdates get source pinName =
      (serve.updateHandler pinName).mapError fun _ => "fail to parse update info json" := by
  unfold queryAvailableUpdates
  dsimp only
  rw [hhosted pinName hpin]

/-- From the server to the boot of the device: an update installs the path that the server
offers, with the key of the server, if the path is one of a NixOS system, and nothing
otherwise. -/
theorem local_update_installs {source pinName : String} (hhosted : serve.HostedAt get source)
    (hpin : isSegment pinName = true) (m : Machine) (maybePath : Option String)
    (noCheckSigns : Bool) :
    (∃ path, serve.Offers pinName maybePath path ∧ matchesSystem path = true ∧
      Installs m path [source] [serve.pubKey] noCheckSigns
        (performLocalUpdate get m maybePath source pinName noCheckSigns)) ∨
    ((∀ path, serve.Offers pinName maybePath path → matchesSystem path = false) ∧
      Refused (performLocalUpdate get m maybePath source pinName noCheckSigns)) := by
  have hquery := queryAvailableUpdates_of_hosted hhosted hpin
  cases hupdates : serve.updateHandler pinName with
  | error e =>
      rw [hupdates] at hquery
      refine Or.inr ⟨fun path hoffers => ?_, _, performLocalUpdate_of_error hquery⟩
      rcases offers_iff.mp hoffers with ⟨generations, g, hlists, -⟩
      rw [updateHandler_eq_ok.mpr (Or.inl ⟨generations, hlists, rfl⟩)] at hupdates
      cases hupdates
  | ok updates =>
      rw [hupdates] at hquery
      cases hfind : updates.find? (chooses maybePath) with
      | none =>
          refine Or.inr ⟨fun path hoffers => ?_, _, performLocalUpdate_of_none hquery hfind⟩
          rcases (offers_iff_find hupdates).mp hoffers with ⟨update, hupdate, -⟩
          cases hfind.symm.trans hupdate
      | some update =>
          have hkey := pubKey_of_mem hupdates (List.mem_of_find?_eq_some hfind)
          rw [performLocalUpdate_of_some hquery hfind, hkey]
          cases hsystem : matchesSystem update.storePath with
          | true =>
              refine Or.inl ⟨update.storePath, ?_, hsystem, setGeneration_installs m _ _ _ hsystem⟩
              exact (offers_iff_find hupdates).mpr ⟨update, hfind, rfl⟩
          | false =>
              refine Or.inr ⟨fun path hoffers => ?_, setGeneration_refused m _ _ _ hsystem⟩
              rcases (offers_iff_find hupdates).mp hoffers with ⟨other, hother, rfl⟩
              cases hfind.symm.trans hother
              exact hsystem

end Local

/-- The boot specification of a system, without what an update does not look at. -/
def bootJsonText (toplevel : String) : String :=
  "\x7b\"org.nixos.bootspec.v1\":\x7b\"init\":" ++ Text.json (toplevel ++ "/init") ++
    ",\"kernel\":" ++ Text.json (toplevel ++ "/kernel") ++
    ",\"kernelParams\":[],\"label\":\"ghaf\",\"system\":\"x86_64-linux\",\"toplevel\":" ++
    Text.json toplevel ++ "\x7d,\"org.nixos.specialisation.v1\":\x7b\x7d\x7d"

def ghafPaths : List String :=
  ["/nix/store/b4fmrar918b1l8hwfjzxqv7whnq5c33q-nixos-system-a",
    "/nix/store/c4fmrar918b1l8hwfjzxqv7whnq5c33q-nixos-system-b"]

/-- A profile whose link names the second of its two generations. -/
def ghafEntries : List DirEntry :=
  [⟨some "ghaf", some "ghaf-2-link", true⟩, ⟨some "ghaf-1-link", ghafPaths[0]?, true⟩,
    ⟨some "ghaf-2-link", ghafPaths[1]?, true⟩]

def ghafServe : Serve where
  dir := {
    path := "/nix/var/nix/profiles/per-user/update"
    readLink := fun _ => .ok (some "ghaf-2-link")
    readDir := .ok (ghafEntries.map .ok)
    distinct := by
      intro entries h _
      have heq : entries = ghafEntries :=
        List.map_injective_iff.mpr (fun _ _ h => Except.ok.inj h) (Except.ok.inj h).symm
      rw [heq]
      decide }
  readFile file :=
    match ghafPaths.find? fun path => file = path ++ "/boot.json" with
    | some path => .ok (bootJsonText path).toUTF8.toList
    | none => .error "No such file or directory"
  allowedProfiles := ["ghaf"]
  pubKey := "key"
  cachix := "https://cache"

/-- A network in which only the server is found. -/
def Serve.hosted (serve : Serve) (base url : String) :
    Except String (Except String (List UpdateInfo)) :=
  match Text.stripLead (base ++ "/update/").toList url.toList with
  | some name => .ok (serve.updateHandler (String.ofList name))
  | none => .error "connection refused"

theorem hostedAt_hosted (serve : Serve) (base : String) :
    serve.HostedAt (serve.hosted base) base := by
  intro name _
  have hname : Text.stripLead (base ++ "/update/").toList (base ++ "/update/" ++ name).toList =
      some name.toList :=
    Text.stripLead_eq_some.mpr (by simp)
  unfold Serve.hosted
  rw [hname]
  simp

/-- The build succeeds and the profile change fails. -/
theorem local_update_installs_ghaf :
    ∃ path, ghafServe.Offers "ghaf" none path ∧
      (performLocalUpdate (ghafServe.hosted "http://127.0.0.1:3000")
          ⟨.ok true, .ok false, .ok true, .ok "x86_64-linux"⟩ none "http://127.0.0.1:3000" "ghaf"
          false).trace =
        (installCommands path ["http://127.0.0.1:3000"] ["key"] false).take 2 := by
  rcases local_update_installs (hostedAt_hosted ghafServe "http://127.0.0.1:3000")
    (show isSegment "ghaf" = true by decide) ⟨.ok true, .ok false, .ok true, .ok "x86_64-linux"⟩
    none false with ⟨path, hoffers, -, hinstalls⟩ | ⟨hnone, -⟩
  · exact ⟨path, hoffers, hinstalls.commands⟩
  · have hoffers : ghafServe.Offers "ghaf" none
        "/nix/store/c4fmrar918b1l8hwfjzxqv7whnq5c33q-nixos-system-b" :=
      ⟨List.mem_cons_self, "ghaf-2-link", 2, ghafEntries, ⟨rfl, by decide, rfl, by decide⟩, _,
        List.mem_of_getElem? (show ghafEntries[2]? = some _ from rfl), rfl, rfl, by decide, rfl⟩
    exact absurd (hnone _ hoffers) (by decide +kernel)

end GhafGivc.Nixos
