import GhafGivc.Image.Manifest

/-! # Command lines and plan steps

A plan is a list of shell pipelines. A `Step` keeps the operands a pipeline was
built from, and `Step.pipeline` is the command line the source builds for it.
-/

namespace GhafGivc.Image

structure CommandSpec where
  program : String
  args : List String
deriving DecidableEq

structure Pipeline where
  stages : List CommandSpec
deriving DecidableEq

namespace Pipeline

def single (program : String) (args : List String) : Pipeline := ⟨[⟨program, args⟩]⟩

/-- The shell text of a pipeline. Quoting is third-party code, hence a parameter. -/
def formatShell (escape : String → String) (p : Pipeline) : String :=
  " | ".intercalate
    (p.stages.map fun cmd => cmd.args.foldl (fun s arg => s ++ " " ++ escape arg) cmd.program)

end Pipeline

inductive Step where
  | lvcreate (vg lv : String) (size : Nat)
  | lvresize (volume : Volume) (needed : Nat)
  | installVolume (volume : Volume) (file : File) (source : String)
  | finalizeFlush (volume : Volume)
  | lvrename (vg lv target : String)
  | installUki (file : File) (boot source name : String)
  | unlink (id : String)
  | loaderDefault (boot : String)
  | removeSelection (boot : String)
  | setDefault
deriving DecidableEq

namespace Step

def pipeline : Step → Pipeline
  | lvcreate vg lv size =>
      .single "lvcreate"
        ["--yes", "--wipesignatures", "y", "-L", toString size ++ "b", "-n", lv, vg]
  | lvresize volume needed =>
      .single "lvresize"
        ["-f", "-L", toString needed ++ "b", volume.vgName ++ "/" ++ volume.lvName]
  | installVolume volume file source =>
      let target := volume.deviceFile
      let input := file.fullName source
      if file.isCompressed then
        ⟨[⟨"zstdcat", [input]⟩, ⟨"dd", ["of=" ++ target, "bs=4M", "status=progress"]⟩]⟩
      else
        .single "dd" ["if=" ++ input, "of=" ++ target, "bs=4M", "status=progress"]
  | finalizeFlush volume => .single "blockdev" ["--flushbufs", volume.deviceFile]
  | lvrename vg lv target => .single "lvrename" [vg, lv, target]
  | installUki file boot source name =>
      .single "install" ["-m", "0644", file.fullName source, boot ++ "/EFI/Linux/" ++ name]
  | unlink id => .single "bootctl" ["unlink", id]
  | loaderDefault boot =>
      .single "sed" ["-i", "s/^default .*/default @saved/", boot ++ "/loader/loader.conf"]
  | removeSelection boot => .single "rm" ["-f", boot ++ "/loader/entries.srel"]
  | setDefault => .single "bootctl" ["set-default", "auto"]

end Step

end GhafGivc.Image
