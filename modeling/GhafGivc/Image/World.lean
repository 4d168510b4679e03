import GhafGivc.Core.Transition
import GhafGivc.Image.Plan

/-! # The LVM and ESP state that plans act on

The LVM commands identify logical volumes by volume group and name, `dd` and `blockdev`
by a device path, and boot entries are identified by their id. A step is disabled when the
volume it works on is missing or the name it introduces is taken; the other effects of the
commands are total.
-/

namespace GhafGivc.Image

open Core

/-- A logical volume and the image file last written to it, if that is known. -/
structure Lv where
  volume : Volume
  image : Option String
deriving DecidableEq

/-- The boot entries, a set keyed by the id that `bootctl unlink` takes. -/
structure Esp where
  items : List BootctlItem
  ids_nodup : (items.map BootctlItem.id).Nodup
deriving DecidableEq

structure World where
  lvs : List Lv
  esp : Esp
deriving DecidableEq

namespace Esp

def unlink (esp : Esp) (id : String) : Esp where
  items := esp.items.filter (·.id ≠ id)
  ids_nodup := esp.ids_nodup.sublist ((List.filter_sublist).map _)

/-- Installing a UKI replaces the entry of that file name. -/
def install (esp : Esp) (name : String) : Esp where
  items := (esp.unlink name).items ++ [⟨"type2", name⟩]
  ids_nodup := by
    rw [List.map_append, List.nodup_append]
    refine ⟨(esp.unlink name).ids_nodup, by simp, ?_⟩
    rintro x hx y hy rfl
    obtain ⟨item, hitem, rfl⟩ := List.mem_map.mp hx
    have hne := (List.mem_filter.mp hitem).2
    simp only [List.map_cons, List.map_nil, List.mem_singleton] at hy
    simp [hy] at hne

end Esp

namespace World

def volumes (w : World) : List Volume := w.lvs.map Lv.volume

def runtime (w : World) (cmdline : String) : Outcome String Runtime :=
  Runtime.new w.volumes cmdline w.esp.items

def hasLv (w : World) (id : String × String) : Bool := w.volumes.any (·.id = id)

def hasDevice (w : World) (path : String) : Bool := w.volumes.any (·.deviceFile = path)

/-- At most one volume has the device path. -/
def Unambiguous (w : World) (path : String) : Prop :=
  ∀ v ∈ w.volumes, ∀ u ∈ w.volumes, v.deviceFile = path → u.deviceFile = path → v.id = u.id

instance (w : World) (path : String) : Decidable (w.Unambiguous path) :=
  inferInstanceAs (Decidable (∀ v ∈ w.volumes, ∀ u ∈ w.volumes, _ → _ → _))

/-- Through a path that several volumes have, it is not known which of them is written. -/
def write (w : World) (path image : String) : World :=
  { w with lvs := w.lvs.map fun lv =>
      if lv.volume.deviceFile = path then
        { lv with image := if w.Unambiguous path then some image else none }
      else lv }

def updateLv (w : World) (id : String × String) (f : Lv → Lv) : World :=
  { w with lvs := w.lvs.map fun lv => if lv.volume.id = id then f lv else lv }

/-- Effect of one step, `none` when its precondition fails. -/
def exec (w : World) : Step → Option World
  | .lvcreate vg lv size =>
      if w.hasLv (vg, lv) then none
      else some { w with lvs := w.lvs ++ [⟨⟨lv, vg, some size⟩, none⟩] }
  | .lvresize volume needed =>
      if w.hasLv volume.id then
        some (w.updateLv volume.id fun lv =>
          { lv with volume := { lv.volume with lvSizeBytes := some needed } })
      else none
  | .installVolume volume file source =>
      if w.hasDevice volume.deviceFile then
        some (w.write volume.deviceFile (file.fullName source))
      else none
  | .finalizeFlush volume => if w.hasDevice volume.deviceFile then some w else none
  | .lvrename vg lv target =>
      if w.hasLv (vg, lv) && !w.hasLv (vg, target) then
        some (w.updateLv (vg, lv) fun l =>
          { l with volume := { l.volume with lvName := target } })
      else none
  | .installUki _ _ _ name => some { w with esp := w.esp.install name }
  | .unlink id => some { w with esp := w.esp.unlink id }
  | .loaderDefault _ | .removeSelection _ | .setDefault => some w

def execAll (w : World) (steps : List Step) : Option World := run exec w steps

end World

inductive Command where
  | install (manifest : Manifest) (source : String)
  | remove (version : Version)
deriving DecidableEq

/-- The plan of a command, computed from a fresh reading of the world. -/
def Command.plan (cmdline : String) (w : World) : Command → Outcome String Plan
  | .install manifest source => do
      let rt ← w.runtime cmdline
      Plan.install rt manifest source
  | .remove version => do
      let rt ← w.runtime cmdline
      Plan.remove rt version

namespace World

/-- Commands run to their end one after the other, with the steps executed. A
refused command executes nothing; a panic or a failing step stops the run. -/
def runCommands (cmdline : String) : World → List Command → Option (List Step × World)
  | w, [] => some ([], w)
  | w, c :: cs =>
      match c.plan cmdline w with
      | .ok plan =>
          (w.execAll plan.steps).bind fun w' =>
            (runCommands cmdline w' cs).map fun (steps, w'') => (plan.steps ++ steps, w'')
      | .err _ => runCommands cmdline w cs
      | .panicked => none

theorem runCommands_singleton {cmdline : String} {w w' : World} {c : Command} {steps : List Step}
    (h : w.runCommands cmdline [c] = some (steps, w')) :
    w' = w ∨ ∃ plan, c.plan cmdline w = .ok plan ∧ w.execAll plan.steps = some w' := by
  cases hplan : c.plan cmdline w with
  | err e =>
      simp only [runCommands, hplan, Option.some.injEq, Prod.mk.injEq] at h
      exact Or.inl h.2.symm
  | panicked => simp [runCommands, hplan] at h
  | ok plan =>
      simp only [runCommands, hplan] at h
      obtain ⟨w₁, hw₁, h⟩ := Option.bind_eq_some_iff.mp h
      simp only [Option.map_some, Option.some.injEq, Prod.mk.injEq] at h
      exact Or.inr ⟨plan, rfl, h.2 ▸ hw₁⟩

theorem runCommands_of_plan {cmdline : String} {w w' : World} {c : Command} {plan : Plan}
    (hplan : c.plan cmdline w = .ok plan) (hexec : w.execAll plan.steps = some w') :
    w.runCommands cmdline [c] = some (plan.steps, w') := by
  simp [runCommands, hplan, hexec]

end World

end GhafGivc.Image
