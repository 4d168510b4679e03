import GhafGivc.Core.Bytes
import GhafGivc.Core.Outcome
import GhafGivc.Core.Text

/-! # Versions, logical volumes and image manifests

The records the image updater reads from outside: the logical volumes that `lvs`
lists, and the manifest of an image to install. Slicing the verity hash is by
byte offset and panics on a hash that has no 16-byte head.
-/

namespace GhafGivc.Image

open Core

structure Version where
  revision : String
  hash : Option String
deriving DecidableEq

namespace Version

def hasHash (v : Version) : Bool := v.hash.isSome

/-- The plain form `{}`: the revision alone. -/
def display (v : Version) : String := v.revision

/-- The alternate form `{:#}`: the revision, then the hash when there is one. -/
def displayAlternate (v : Version) : String :=
  match v.hash with
  | some hash => v.revision ++ "-" ++ hash
  | none => v.revision

end Version

structure Volume where
  lvName : String
  vgName : String
  lvSizeBytes : Option Nat
deriving DecidableEq

namespace Volume

def deviceFile (v : Volume) : String := "/dev/mapper/" ++ v.vgName ++ "-" ++ v.lvName

/-- Logical volumes are identified by volume group and name. -/
def id (v : Volume) : String × String := (v.vgName, v.lvName)

end Volume

/-- `Path::join`: an absolute operand replaces the base. -/
def joinPath (base name : String) : String :=
  if name.toList.head? = some '/' then name
  else if base.toList = [] ∨ base.toList.getLast? = some '/' then base ++ name
  else base ++ "/" ++ name

/-- `Path::file_name`: the last component, unless it is `..`. -/
def fileName (path : String) : Option (List Char) :=
  match ((path.toList.splitOnP (· = '/')).filter fun c => c ≠ [] ∧ c ≠ ['.']).getLast? with
  | none => none
  | some name => if name = ['.', '.'] then none else some name

/-- `Path::extension`: what follows the last dot of a file name with a stem. -/
def extension (path : String) : Option (List Char) :=
  match fileName path with
  | none => none
  | some name =>
      match Delimited.rsplitOnce '.' name with
      | none => none
      | some ([], _) => none
      | some (_, ext) => some ext

structure File where
  name : String
  sha256sum : Vector UInt8 32
  unpackedSize : Option Nat
deriving DecidableEq

namespace File

def fullName (file : File) (baseDir : String) : String := joinPath baseDir file.name

def isCompressed (file : File) : Bool :=
  match extension file.name with
  | some ext => Text.eqIgnoreAsciiCase ext "zst".toList
  | none => false

end File

structure Manifest where
  version : String
  rootVerityHash : String
  kernel : File
  store : File
  verity : File
deriving DecidableEq

namespace Manifest

/-- The JSON decoder is a parameter: it is third-party code. -/
def fromSlice (deserialize : List UInt8 → Option Manifest) (content : List UInt8) :
    Outcome String Manifest :=
  Outcome.context (deserialize content) "Deserializing manifest"

/-- `&self.root_verity_hash[..16]` -/
def hashFragment (m : Manifest) : Outcome String String :=
  match Text.splitAtBytes 16 m.rootVerityHash.toList with
  | some (head, _) => .ok (String.ofList head)
  | none => .panicked

def toVersion (m : Manifest) : Outcome String Version := do
  let hash ← m.hashFragment
  pure ⟨m.version, some hash⟩

variable {m : Manifest}

theorem toVersion_eq_ok {v : Version} :
    m.toVersion = .ok v ↔ ∃ h, m.hashFragment = .ok h ∧ v = ⟨m.version, some h⟩ := by
  unfold toVersion
  rw [Outcome.bind_eq_ok]
  constructor
  · rintro ⟨hash, hh, hv⟩
    exact ⟨hash, hh, (Outcome.ok.inj hv).symm⟩
  · rintro ⟨hash, hh, rfl⟩
    exact ⟨hash, hh, rfl⟩

theorem toVersion_hash {v : Version} (h : m.toVersion = .ok v) :
    ∃ hash, v = ⟨m.version, some hash⟩ := by
  obtain ⟨hash, _, rfl⟩ := toVersion_eq_ok.mp h
  exact ⟨hash, rfl⟩

theorem toVersion_ne_err {e : String} : m.toVersion ≠ .err e := by
  unfold toVersion hashFragment
  cases Text.splitAtBytes 16 m.rootVerityHash.toList <;> simp

end Manifest

/-! ## The text of a manifest

What `write_to_file` writes for a manifest with no metadata and no system. -/

def File.text (key : String) (file : File) : String :=
  "  \"" ++ key ++ "\": \x7b\n    \"file\": " ++ Text.json file.name ++
    ",\n    \"sha256\": \"" ++ String.ofList (Hex.encode file.sha256sum.toList) ++
    "\",\n    \"unpacked_size\": " ++ (file.unpackedSize.elim "null" Nat.repr) ++ "\n  \x7d"

namespace Manifest

def text (m : Manifest) : String :=
  "\x7b\n  \"meta\": \x7b\x7d,\n  \"manifest_version\": 0,\n  \"system\": null,\n" ++
    "  \"version\": " ++ Text.json m.version ++
    ",\n  \"root_verity_hash\": " ++ Text.json m.rootVerityHash ++ ",\n" ++
    m.kernel.text "kernel" ++ ",\n" ++ m.store.text "root" ++ ",\n" ++
    m.verity.text "verity" ++ "\n\x7d"

def parse (m : Manifest) (content : List UInt8) : Option Manifest :=
  if content = m.text.toUTF8.toList then some m else none

@[simp] theorem parse_text (m : Manifest) : m.parse m.text.toUTF8.toList = some m := if_pos rfl

end Manifest

end GhafGivc.Image
