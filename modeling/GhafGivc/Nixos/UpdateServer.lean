import GhafGivc.Nixos.Profile

/-! # The update server

It offers the generations of the allowed profiles in a directory: as a list of its own, and as
the pins of a Cachix cache. A handler that fails answers with a text.
-/

namespace GhafGivc.Nixos

open Core

structure UpdateInfo where
  name : String
  storePath : String
  current : Bool
  pubKey : String
deriving DecidableEq

structure Revision where
  storePath : String
  createdOn : String
  revision : Int
  artifacts : List String
deriving DecidableEq

structure Pin where
  name : String
  createdOn : String
  lastRevision : Revision
deriving DecidableEq

structure CacheInfo where
  name : String
  uri : String
  publicSigningKeys : List String
  permission : String
  preferredCompressionMethod : String
  githubUsername : String
deriving DecidableEq

/-- The options of the server, and what it reads when it handles a request. -/
structure Serve where
  dir : ProfileDir
  readFile : String → Except String (List UInt8)
  allowedProfiles : List String
  pubKey : String
  cachix : String

def ProfileElement.toUpdate (pubKey : String) (g : ProfileElement) : UpdateInfo :=
  ⟨"Update #" ++ toString g.num, g.storePath, g.current, pubKey⟩

/-- Each pin has the name of the profile, whatever its generation. -/
def UpdateInfo.toPin (profile : String) (update : UpdateInfo) : Pin :=
  ⟨profile, "dummy date", ⟨update.storePath, "dummy date", 1, []⟩⟩

/-- Whether the name of a store path is the hash, a dash, and more. -/
def hasHash (hash storePath : String) : Bool :=
  match (Image.fileName storePath).bind (Text.stripLead hash.toList) with
  | some rest => rest.head? = some '-'
  | none => false

namespace Serve

variable (serve : Serve) (profile : String)

def getUpdateList : Except String (List UpdateInfo) := do
  let (_, profiles) ← (readProfileLinks serve.dir profile).mapError fun _ =>
    "While reading profile " ++ serve.dir.path ++ " with " ++ profile
  return profiles.map (ProfileElement.toUpdate serve.pubKey)

def internalError (error : String) : String := "Something went wrong: " ++ error

/-- A profile that is not allowed has no updates. -/
def updateHandler : Except String (List UpdateInfo) :=
  if profile ∈ serve.allowedProfiles then (serve.getUpdateList profile).mapError internalError
  else .ok []

def bootJson (hash : String) : Except String (List UInt8) :=
  if profile ∈ serve.allowedProfiles then
    match serve.getUpdateList profile with
    | .error _ => .error "boot.json not found"
    | .ok profiles =>
        match profiles.find? (fun update => hasHash hash update.storePath) with
        | none => .error ("profile not found for cache=" ++ profile ++ ", hash=" ++ hash)
        | some base =>
            let path := Image.joinPath base.storePath "boot.json"
            (serve.readFile path).mapError fun _ => "boot.json not found at " ++ path
  else .error "boot.json not found"

/-- Any name is answered for. -/
def cacheInfo : CacheInfo :=
  ⟨profile, serve.cachix, [serve.pubKey], "read", "ZSTD", "bogus"⟩

def pinList : Except String (List Pin) :=
  if profile ∈ serve.allowedProfiles then do
    let profiles ← (serve.getUpdateList profile).mapError internalError
    return profiles.map (UpdateInfo.toPin profile)
  else
    .error (internalError
      ("Requested profile " ++ profile ++ " not in list of allowed profiles"))

end Serve

section Answers

variable {serve : Serve} {profile : String} {updates : List UpdateInfo}

/-- The generations of an allowed profile, in the order of the directory. -/
def Serve.Lists (serve : Serve) (profile : String) (generations : List ProfileElement) : Prop :=
  profile ∈ serve.allowedProfiles ∧
    ∃ generation, readProfileLinks serve.dir profile = .ok (generation, generations)

theorem getUpdateList_eq_ok :
    serve.getUpdateList profile = .ok updates ↔
      ∃ generation generations, readProfileLinks serve.dir profile = .ok (generation, generations) ∧
        updates = generations.map (ProfileElement.toUpdate serve.pubKey) := by
  unfold Serve.getUpdateList
  rw [Fallible.bind_eq_ok]
  constructor
  · intro h
    rcases h with ⟨⟨generation, generations⟩, hread, hupdates⟩
    cases hupdates
    exact ⟨generation, generations, Fallible.mapError_eq_ok.mp hread, rfl⟩
  · intro h
    rcases h with ⟨generation, generations, hread, rfl⟩
    exact ⟨(generation, generations), Fallible.mapError_eq_ok.mpr hread, rfl⟩

theorem updateHandler_eq_ok :
    serve.updateHandler profile = .ok updates ↔
      (∃ generations, serve.Lists profile generations ∧
        updates = generations.map (ProfileElement.toUpdate serve.pubKey)) ∨
      (profile ∉ serve.allowedProfiles ∧ updates = []) := by
  unfold Serve.updateHandler Serve.Lists
  by_cases hallowed : profile ∈ serve.allowedProfiles
  · rw [if_pos hallowed, Fallible.mapError_eq_ok, getUpdateList_eq_ok]
    constructor
    · intro h
      rcases h with ⟨generation, generations, hread, hupdates⟩
      exact Or.inl ⟨generations, ⟨hallowed, generation, hread⟩, hupdates⟩
    · intro h
      rcases h with ⟨generations, ⟨-, generation, hread⟩, hupdates⟩ | h
      · exact ⟨generation, generations, hread, hupdates⟩
      · exact absurd hallowed h.1
  · rw [if_neg hallowed, Except.ok.injEq]
    constructor
    · intro h
      exact Or.inr ⟨hallowed, h.symm⟩
    · intro h
      rcases h with ⟨_, ⟨h, -⟩, -⟩ | h
      · exact absurd h hallowed
      · exact h.2.symm

theorem pinList_eq_ok {pins : List Pin} :
    serve.pinList profile = .ok pins ↔ ∃ generations, serve.Lists profile generations ∧
      pins = generations.map fun g => (g.toUpdate serve.pubKey).toPin profile := by
  unfold Serve.pinList Serve.Lists
  by_cases hallowed : profile ∈ serve.allowedProfiles
  · rw [if_pos hallowed, Fallible.bind_eq_ok]
    constructor
    · intro h
      rcases h with ⟨updates, hupdates, hpins⟩
      rcases getUpdateList_eq_ok.mp (Fallible.mapError_eq_ok.mp hupdates) with
        ⟨generation, generations, hread, rfl⟩
      cases hpins
      exact ⟨generations, ⟨hallowed, generation, hread⟩, List.map_map⟩
    · intro h
      rcases h with ⟨generations, ⟨-, generation, hread⟩, rfl⟩
      have hlist := getUpdateList_eq_ok.mpr ⟨generation, generations, hread, rfl⟩
      exact ⟨_, Fallible.mapError_eq_ok.mpr hlist, by rw [List.map_map]; rfl⟩
  · rw [if_neg hallowed]
    constructor
    · intro h
      cases h
    · intro h
      rcases h with ⟨_, ⟨h, -⟩, -⟩
      exact absurd h hallowed

theorem bootJson_eq_ok {hash : String} {bytes : List UInt8} :
    serve.bootJson profile hash = .ok bytes ↔ ∃ generations, serve.Lists profile generations ∧
      ∃ g, generations.find? (fun g => hasHash hash g.storePath) = some g ∧
        serve.readFile (Image.joinPath g.storePath "boot.json") = .ok bytes := by
  unfold Serve.bootJson Serve.Lists
  by_cases hallowed : profile ∈ serve.allowedProfiles
  · rw [if_pos hallowed]
    cases hlist : serve.getUpdateList profile with
    | error e =>
        constructor
        · intro h
          cases h
        · intro h
          rcases h with ⟨generations, ⟨-, generation, hread⟩, -⟩
          rw [getUpdateList_eq_ok.mpr ⟨generation, generations, hread, rfl⟩] at hlist
          cases hlist
    | ok updates =>
        rcases getUpdateList_eq_ok.mp hlist with ⟨generation, generations, hread, rfl⟩
        dsimp only
        rw [List.find?_map]
        constructor
        · intro h
          cases hfind : generations.find? ((fun update => hasHash hash update.storePath) ∘
              ProfileElement.toUpdate serve.pubKey) with
          | none =>
              rw [hfind] at h
              cases h
          | some g =>
              rw [hfind] at h
              exact ⟨generations, ⟨hallowed, generation, hread⟩, g, hfind,
                Fallible.mapError_eq_ok.mp h⟩
        · intro h
          rcases h with ⟨generations', ⟨-, generation', hread'⟩, g, hfind, hbytes⟩
          cases hread.symm.trans hread'
          have hfind' : generations.find? ((fun update => hasHash hash update.storePath) ∘
              ProfileElement.toUpdate serve.pubKey) = some g := hfind
          rw [hfind']
          exact Fallible.mapError_eq_ok.mpr hbytes
  · rw [if_neg hallowed]
    constructor
    · intro h
      cases h
    · intro h
      rcases h with ⟨_, ⟨h, -⟩, -⟩
      exact absurd h hallowed

end Answers

end GhafGivc.Nixos
