import GhafGivc.Core.Outcome

/-! # Computations that leave a trace of effects

The effects before an error or a panic stay in the trace.
-/

namespace Core

structure Traced (τ ε α : Type) where
  trace : List τ
  result : Outcome ε α
deriving DecidableEq

namespace Traced

variable {τ ε α β : Type} {x : Traced τ ε α} {a : α} {ε' : Type} {e : ε} {act : α → Traced τ ε Unit}

def bind (x : Traced τ ε α) (f : α → Traced τ ε β) : Traced τ ε β :=
  match x.result with
  | .ok a => ⟨x.trace ++ (f a).trace, (f a).result⟩
  | .err e => ⟨x.trace, .err e⟩
  | .panicked => ⟨x.trace, .panicked⟩

instance : Monad (Traced τ ε) where
  pure a := ⟨[], .ok a⟩
  bind := bind

def emit (t : τ) : Traced τ ε Unit := ⟨[t], .ok ()⟩

/-- A call of the system, which may report a failure. -/
def call (answer : Except ε α) : Traced τ ε α :=
  match answer with
  | .ok a => ⟨[], .ok a⟩
  | .error e => ⟨[], .err e⟩

def panic : Traced τ ε α := ⟨[], .panicked⟩

/-- An error becomes a value that the caller looks at. -/
def attempt {ε' : Type} (x : Traced τ ε α) : Traced τ ε' (Except ε α) where
  trace := x.trace
  result :=
    match x.result with
    | .ok a => .ok (.ok a)
    | .err e => .ok (.error e)
    | .panicked => .panicked

def mapError {ε' : Type} (f : ε → ε') (x : Traced τ ε α) : Traced τ ε' α where
  trace := x.trace
  result :=
    match x.result with
    | .ok a => .ok a
    | .err e => .err (f e)
    | .panicked => .panicked

/-- An effect at the end of a scope, however it is left. -/
def ensuring (x : Traced τ ε α) (last : τ) : Traced τ ε α := ⟨x.trace ++ [last], x.result⟩

@[simp] theorem pure_eq (a : α) : (pure a : Traced τ ε α) = ⟨[], .ok a⟩ := rfl

@[simp] theorem mk_ok_bind (trace : List τ) (a : α) (f : α → Traced τ ε β) :
    ((⟨trace, .ok a⟩ : Traced τ ε α) >>= f) = ⟨trace ++ (f a).trace, (f a).result⟩ := rfl

@[simp] theorem mk_err_bind (trace : List τ) (e : ε) (f : α → Traced τ ε β) :
    ((⟨trace, .err e⟩ : Traced τ ε α) >>= f) = ⟨trace, .err e⟩ := rfl

@[simp] theorem trace_emit_bind (t : τ) (f : Unit → Traced τ ε α) :
    (emit t >>= f).trace = t :: (f ()).trace := rfl

@[simp] theorem result_emit_bind (t : τ) (f : Unit → Traced τ ε α) :
    (emit t >>= f).result = (f ()).result := rfl

@[simp] theorem call_ok_bind (a : α) (f : α → Traced τ ε β) : (call (.ok a) >>= f) = f a := by
  cases h : f a
  simp [Bind.bind, bind, call, h]

@[simp] theorem call_error_bind (e : ε) (f : α → Traced τ ε β) :
    (call (.error e) >>= f) = ⟨[], .err e⟩ := rfl

@[simp] theorem trace_mapError (f : ε → ε') (x : Traced τ ε α) :
    (x.mapError f).trace = x.trace := rfl

theorem result_bind (x : Traced τ ε α) (f : α → Traced τ ε β) :
    (x >>= f).result = x.result >>= fun a => (f a).result := by
  cases h : x.result <;> simp [Bind.bind, bind, h, Outcome.bind]

theorem bind_of_ok (h : x.result = .ok a) (f : α → Traced τ ε β) :
    x >>= f = ⟨x.trace ++ (f a).trace, (f a).result⟩ := by
  simp [Bind.bind, bind, h]

theorem bind_of_err (h : x.result = .err e) (f : α → Traced τ ε β) :
    x >>= f = ⟨x.trace, .err e⟩ := by
  simp [Bind.bind, bind, h]

theorem trace_bind_of_ok (h : x.result = .ok a) (f : α → Traced τ ε β) :
    (x >>= f).trace = x.trace ++ (f a).trace :=
  congrArg trace (bind_of_ok h f)

theorem trace_bind_of_err (h : x.result = .err e) (f : α → Traced τ ε β) :
    (x >>= f).trace = x.trace :=
  congrArg trace (bind_of_err h f)

theorem trace_attempt_bind_of_ok (h : x.result = .ok a) (f : Except ε α → Traced τ ε' β) :
    (attempt x >>= f).trace = x.trace ++ (f (.ok a)).trace := by
  simp [Bind.bind, bind, attempt, h]

theorem trace_attempt_bind_of_err (h : x.result = .err e) (f : Except ε α → Traced τ ε' β) :
    (attempt x >>= f).trace = x.trace ++ (f (.error e)).trace := by
  simp [Bind.bind, bind, attempt, h]

theorem result_call_eq_ok {answer : Except ε α} :
    (call answer : Traced τ ε α).result = .ok a ↔ answer = .ok a := by
  cases answer <;> simp [call]

theorem trace_bind_call (x : Traced τ ε α) (answer : α → Except ε β) :
    (x >>= fun a => call (answer a)).trace = x.trace := by
  cases h : x.result with
  | ok a => cases ha : answer a <;> simp [Bind.bind, bind, h, ha, call]
  | err e => simp [Bind.bind, bind, h]
  | panicked => simp [Bind.bind, bind, h]

theorem result_mapError_eq_ok {f : ε → ε'} : (x.mapError f).result = .ok a ↔ x.result = .ok a := by
  cases h : x.result <;> simp [mapError, h]

theorem result_forM_eq_ok {as : List α} :
    (as.forM act).result = .ok () ↔ ∀ a ∈ as, (act a).result = .ok () := by
  induction as with
  | nil => simp
  | cons a as ih =>
      change (act a >>= fun _ => as.forM act).result = _ ↔ _
      rw [result_bind, Outcome.bind_eq_ok, List.forall_mem_cons, ← ih]
      constructor
      · intro h
        rcases h with ⟨u, ha, has⟩
        exact ⟨ha, has⟩
      · intro h
        exact ⟨(), h.1, h.2⟩

theorem trace_forM_of_ok {as : List α} (h : ∀ a ∈ as, (act a).result = .ok ()) :
    (as.forM act).trace = as.flatMap fun a => (act a).trace := by
  induction as with
  | nil => rfl
  | cons a as ih =>
      rw [List.forall_mem_cons] at h
      change (act a >>= fun _ => as.forM act).trace = _
      rw [trace_bind_of_ok h.1, ih h.2, List.flatMap_cons]

/-- Every effect satisfies `P`. -/
def Emits (P : τ → Prop) (x : Traced τ ε α) : Prop := ∀ t ∈ x.trace, P t

/-- The computation does not panic, and a value it returns satisfies `Q`. -/
def Ensures (Q : α → Prop) (x : Traced τ ε α) : Prop :=
  x.result.Returns ∧ ∀ a, x.result = .ok a → Q a

section Rules

variable {P : τ → Prop} {Q : α → Prop} {x : Traced τ ε α} {f : α → Traced τ ε β}

theorem emits_pure (a : α) : Emits P (pure a : Traced τ ε α) := by
  simp [Emits]

theorem emits_emit {t : τ} (h : P t) : Emits P (emit t : Traced τ ε Unit) := by
  simpa [Emits, emit] using h

theorem emits_call (answer : Except ε α) : Emits P (call answer : Traced τ ε α) := by
  cases answer <;> simp [Emits, call]

theorem Emits.bind_of_ok (hx : Emits P x) (hf : ∀ a, x.result = .ok a → Emits P (f a)) :
    Emits P (x >>= f) := by
  intro t ht
  cases h : x.result with
  | ok a =>
      have ht' : t ∈ x.trace ∨ t ∈ (f a).trace := by
        simpa [Bind.bind, Traced.bind, h] using ht
      exact ht'.elim (hx t) (hf a h t)
  | err e => exact hx t (by simpa [Bind.bind, Traced.bind, h] using ht)
  | panicked => exact hx t (by simpa [Bind.bind, Traced.bind, h] using ht)

theorem Emits.bind (hx : Emits P x) (hf : ∀ a, Emits P (f a)) : Emits P (x >>= f) :=
  hx.bind_of_ok fun a _ => hf a

theorem Emits.ensuring (hx : Emits P x) {last : τ} (hlast : P last) :
    Emits P (x.ensuring last) := by
  intro t ht
  cases List.mem_append.mp ht with
  | inl hin => exact hx t hin
  | inr hin => exact List.mem_singleton.mp hin ▸ hlast

theorem Emits.imp {P' : τ → Prop} (h : Emits P x) (himp : ∀ t, P t → P' t) : Emits P' x :=
  fun t ht => himp t (h t ht)

theorem emits_forM {act : α → Traced τ ε Unit} {as : List α} (h : ∀ a ∈ as, Emits P (act a)) :
    Emits P (as.forM act) := by
  induction as with
  | nil => exact emits_pure ()
  | cons a as ih =>
      change Emits P (act a >>= fun _ => as.forM act)
      exact (h a List.mem_cons_self).bind fun _ =>
        ih fun b hb => h b (List.mem_cons_of_mem a hb)

theorem ensures_pure {a : α} (h : Q a) : Ensures Q (pure a : Traced τ ε α) := by
  simpa [Ensures, Outcome.Returns] using h

theorem ensures_emit (t : τ) : Ensures (fun _ => True) (emit t : Traced τ ε Unit) := by
  simp [Ensures, Outcome.Returns, emit]

theorem ensures_call (answer : Except ε α) :
    Ensures (fun _ => True) (call answer : Traced τ ε α) := by
  cases answer <;> simp [Ensures, Outcome.Returns, call]

theorem ensures_error (e : ε) : Ensures Q (call (.error e) : Traced τ ε α) := by
  simp [Ensures, Outcome.Returns, call]

theorem Ensures.bind {R : β → Prop} (hx : Ensures Q x) (hf : ∀ a, Q a → Ensures R (f a)) :
    Ensures R (x >>= f) := by
  obtain ⟨hret, hval⟩ := hx
  cases h : x.result with
  | ok a => simpa [Ensures, Bind.bind, Traced.bind, h] using hf a (hval a h)
  | err e => simp [Ensures, Outcome.Returns, Bind.bind, Traced.bind, h]
  | panicked => exact absurd h hret

end Rules

end Traced

end Core
