import Mathlib.Tactic.Common

/-! # A pipe that ends with a mark

A source takes items in chunks and sends them as frames; a sink receives the frames in
order and puts the items. The source ends with a mark, after which it sends nothing. Either
end may stop for good at any point and keep what it has.
-/

namespace Core

inductive Frame (α : Type) where
  | chunk (items : List α)
  | mark
deriving DecidableEq

def Frame.items {α : Type} : Frame α → List α
  | chunk items => items
  | mark => []

/-- `taken` and `placed` record what went in and what came out. -/
structure Pipe (α : Type) where
  taken : List α
  pending : List α
  ended : Bool
  frames : List (Frame α)
  held : List α
  placed : List α
  closed : Bool

namespace Pipe

variable {α : Type} {p q : Pipe α}

inductive Step : Pipe α → Pipe α → Prop
  | take {p : Pipe α} (items : List α) (hpending : p.pending = []) (hended : p.ended = false) :
      Step p { p with taken := p.taken ++ items, pending := items }
  | send {p : Pipe α} (hended : p.ended = false) :
      Step p { p with pending := [], frames := p.frames ++ [.chunk p.pending] }
  | mark {p : Pipe α} (hpending : p.pending = []) (hended : p.ended = false) :
      Step p { p with ended := true, frames := p.frames ++ [.mark] }
  | receive {p : Pipe α} {items : List α} {rest : List (Frame α)}
      (hframes : p.frames = .chunk items :: rest) (hheld : p.held = [])
      (hclosed : p.closed = false) : Step p { p with frames := rest, held := items }
  | close {p : Pipe α} {rest : List (Frame α)} (hframes : p.frames = .mark :: rest)
      (hheld : p.held = []) (hclosed : p.closed = false) :
      Step p { p with frames := rest, closed := true }
  | place {p : Pipe α} (n : Nat) (hclosed : p.closed = false) :
      Step p { p with held := p.held.drop n, placed := p.placed ++ p.held.take n }

/-- The mark is in flight, behind everything else. -/
def Marked (p : Pipe α) : Prop := ∃ before, p.frames = before ++ [.mark] ∧ .mark ∉ before

/-- Everything taken is placed, held, in flight or pending, in this order, and the mark is
the last thing that is sent and received. -/
structure Sound (p : Pipe α) : Prop where
  conserved : p.taken = p.placed ++ p.held ++ p.frames.flatMap Frame.items ++ p.pending
  unmarked : p.ended = false → p.closed = false ∧ .mark ∉ p.frames
  marked : p.ended = true → p.pending = [] ∧ (p.closed = false → Marked p)
  closed : p.closed = true → p.frames = [] ∧ p.held = []

theorem Sound.ended_of_closed (h : Sound p) (hclosed : p.closed = true) : p.ended = true := by
  cases hended : p.ended with
  | true => rfl
  | false =>
      rw [(h.unmarked hended).1] at hclosed
      cases hclosed

theorem Sound.step (h : Sound p) (hstep : Step p q) : Sound q := by
  cases hstep with
  | take items hpending hended =>
      refine ⟨?_, h.unmarked, fun hcontra => absurd hcontra (by simp [hended]), h.closed⟩
      have hconserved := h.conserved
      rw [hpending, List.append_nil] at hconserved
      change p.taken ++ items = _
      rw [hconserved]
  | send hended =>
      rcases h.unmarked hended with ⟨hopen, hmark⟩
      refine ⟨?_, fun _ => ⟨hopen, by simp [hmark]⟩,
        fun hcontra => absurd hcontra (by simp [hended]),
        fun hclosed => absurd hclosed (by simp [hopen])⟩
      simp [h.conserved, Frame.items]
  | mark hpending hended =>
      rcases h.unmarked hended with ⟨hopen, hmark⟩
      refine ⟨?_, fun hcontra => absurd hcontra (by simp), fun _ => ⟨hpending, fun _ => ?_⟩,
        fun hclosed => absurd hclosed (by simp [hopen])⟩
      · simp [h.conserved, Frame.items]
      · exact ⟨p.frames, rfl, hmark⟩
  | @receive items rest hframes hheld hclosed =>
      refine ⟨?_, fun hended => ?_, fun hended => ?_,
        fun hcontra => absurd hcontra (by simp [hclosed])⟩
      · simp [h.conserved, hframes, hheld, Frame.items]
      · rcases h.unmarked hended with ⟨hopen, hmark⟩
        rw [hframes] at hmark
        exact ⟨hopen, fun hin => hmark (List.mem_cons_of_mem _ hin)⟩
      · rcases h.marked hended with ⟨hpending, hmarked⟩
        refine ⟨hpending, fun _ => ?_⟩
        rcases hmarked hclosed with ⟨before, heq, hmark⟩
        rw [hframes] at heq
        cases before with
        | nil => cases heq
        | cons first before =>
            cases heq
            exact ⟨before, rfl, fun hin => hmark (List.mem_cons_of_mem _ hin)⟩
  | @close rest hframes hheld hclosed =>
      have hended : p.ended = true := by
        cases hended : p.ended with
        | true => rfl
        | false => exact absurd (by simp [hframes]) (h.unmarked hended).2
      rcases h.marked hended with ⟨hpending, hmarked⟩
      have hrest : rest = [] := by
        rcases hmarked hclosed with ⟨before, heq, hmark⟩
        rw [hframes] at heq
        cases before with
        | nil => exact (List.cons.inj heq).2
        | cons first before =>
            cases heq
            exact absurd List.mem_cons_self hmark
      refine ⟨?_, fun hcontra => absurd hcontra (by simp [hended]),
        fun _ => ⟨hpending, fun hcontra => absurd hcontra (by simp)⟩, fun _ => ⟨hrest, hheld⟩⟩
      simp [h.conserved, hframes, Frame.items]
  | place n hclosed =>
      refine ⟨?_, h.unmarked, h.marked, fun hcontra => absurd hcontra (by simp [hclosed])⟩
      have hsplit : p.held.take n ++ p.held.drop n = p.held := List.take_append_drop n p.held
      change p.taken = p.placed ++ p.held.take n ++ p.held.drop n ++ _ ++ _
      rw [List.append_assoc p.placed, hsplit]
      exact h.conserved

theorem Sound.placed_isPrefix (h : Sound p) : p.placed <+: p.taken := by
  rw [h.conserved, List.append_assoc, List.append_assoc]
  exact List.prefix_append _ _

/-- When the mark is the next frame, everything was placed. -/
theorem Sound.placed_eq_of_mark (h : Sound p) {rest : List (Frame α)}
    (hframes : p.frames = .mark :: rest) (hheld : p.held = []) (hclosed : p.closed = false) :
    p.placed = p.taken ∧ p.ended = true := by
  have hsound := h.step (.close hframes hheld hclosed)
  have hended := hsound.ended_of_closed rfl
  refine ⟨?_, hended⟩
  have hconserved := hsound.conserved
  rw [(hsound.closed rfl).1, (hsound.closed rfl).2, (hsound.marked hended).1] at hconserved
  simpa using hconserved.symm

theorem Sound.placed_eq_of_closed (h : Sound p) (hclosed : p.closed = true) :
    p.placed = p.taken := by
  have hended := h.ended_of_closed hclosed
  have hconserved := h.conserved
  rw [(h.closed hclosed).1, (h.closed hclosed).2, (h.marked hended).1] at hconserved
  simpa using hconserved.symm

theorem Step.placed_eq (hstep : Step p q) (hclosed : p.closed = true) :
    q.placed = p.placed ∧ q.closed = true := by
  cases hstep with
  | take items hpending hended => exact ⟨rfl, hclosed⟩
  | send hended => exact ⟨rfl, hclosed⟩
  | mark hpending hended => exact ⟨rfl, hclosed⟩
  | receive hframes hheld hopen => exact ⟨rfl, hclosed⟩
  | close hframes hheld hopen => exact ⟨rfl, rfl⟩
  | place n hopen =>
      rw [hclosed] at hopen
      cases hopen

end Pipe

end Core
