import ModulePurity.Text.Quoted

/-!
# Logged steps

A step of a run writes lines to a log and then either yields a value or fails. Steps are put together
in order: the log of a failed run holds the lines up to the failure. Characters that steer a terminal
are written by their numbers.
-/

namespace ModulePurity

/-- How important a log line is. -/
inductive LogLevel where
  | info
  | warning
deriving DecidableEq, Repr

/-- One line of a log. -/
structure LogLine where
  level : LogLevel
  text : String
deriving DecidableEq, Repr

/-- The word for a level. -/
def LogLevel.name : LogLevel → String
  | info => "INFO"
  | warning => "WARN"

/-- The line as it is written. -/
def LogLine.render (l : LogLine) : String :=
  l.level.name ++ " " ++ Text.disarmed l.text

/-- A step that logs lines and yields a value or fails. -/
structure Logged (ε α : Type) where
  log : List LogLine
  result : Except ε α

namespace Logged

variable {ε δ α β : Type}

/-- The step that yields a value and logs nothing. -/
def pure (a : α) : Logged ε α := ⟨[], .ok a⟩

/-- The step that logs nothing. -/
def ofExcept (r : Except ε α) : Logged ε α := ⟨[], r⟩

/-- A step followed by another that depends on its value. -/
def bind (x : Logged ε α) (f : α → Logged ε β) : Logged ε β :=
  match x.result with
  | .error e => ⟨x.log, .error e⟩
  | .ok a => ⟨x.log ++ (f a).log, (f a).result⟩

instance : Monad (Logged ε) where
  pure := Logged.pure
  bind := Logged.bind

/-- The step that logs one line. -/
def say (level : LogLevel) (text : String) : Logged ε Unit := ⟨[⟨level, text⟩], .ok ()⟩

/-- A step that fails in other words. -/
def mapError (f : ε → δ) (x : Logged ε α) : Logged δ α := ⟨x.log, x.result.mapError f⟩

@[simp] theorem result_bind (x : Logged ε α) (f : α → Logged ε β) :
    (x >>= f).result = x.result.bind fun a => (f a).result := by
  show (Logged.bind x f).result = _
  unfold Logged.bind
  cases x.result <;> rfl

/-- Steps that yield a value in a row yield one each. -/
theorem exists_of_result_bind {x : Logged ε α} {f : α → Logged ε β} {b : β}
    (h : (x >>= f).result = .ok b) : ∃ a, x.result = .ok a ∧ (f a).result = .ok b := by
  rw [result_bind] at h
  cases hx : x.result with
  | error e => rw [hx] at h; cases h
  | ok a => exact ⟨a, rfl, by rwa [hx] at h⟩

/-- After a step that yields a value the next one starts from it. -/
theorem result_bind_of_ok {x : Logged ε α} {a : α} (h : x.result = .ok a) (f : α → Logged ε β) :
    (x >>= f).result = (f a).result := by
  rw [result_bind, h]
  rfl

/-- Failing in other words changes nothing for a value. -/
theorem mapError_eq_ok_iff {x : Except ε α} {f : ε → δ} {a : α} :
    x.mapError f = .ok a ↔ x = .ok a := by
  cases x with
  | error e => constructor <;> intro h <;> cases h
  | ok b => constructor <;> intro h <;> cases h <;> rfl

@[simp] theorem result_pure (a : α) : (Pure.pure a : Logged ε α).result = .ok a := rfl

@[simp] theorem result_say (level : LogLevel) (text : String) :
    (say level text : Logged ε Unit).result = .ok () := rfl

@[simp] theorem result_ofExcept (r : Except ε α) : (ofExcept r).result = r := rfl

end Logged

end ModulePurity
