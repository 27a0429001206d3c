import ModulePurity.Data.Toml.Reader
import ModulePurity.Data.Value

/-!
# Moments in settings files

Reads a date, a time of day, or a date with a time, which may have a distance to universal time. A
quoted text that is known to hold a moment has to hold it in the same form and nothing else.
-/

namespace ModulePurity.Toml

/-! ## Parts -/

/-- Reads a number of `n` digits within bounds. -/
def boundedDigits (n low high : Nat) : Reader Nat := fun cs =>
  (exactly n Char.isDigit cs).bind fun (ds, rest) =>
    let value := digitsValue 10 ds
    if low ≤ value && value ≤ high then some (value, rest) else none

/-- Reads a date. -/
def day : Reader Day := fun cs => do
  let (year, cs) ← boundedDigits 4 0 9999 cs
  let (_, cs) ← char '-' cs
  let (month, cs) ← boundedDigits 2 1 12 cs
  let (_, cs) ← char '-' cs
  let (d, cs) ← boundedDigits 2 1 (Day.inMonth year month) cs
  return (⟨year, month, d⟩, cs)

/-- Reads a fraction of a second with its point. Nine digits of it count. -/
def secondFraction : Reader Nat := fun cs => do
  let (_, cs) ← char '.' cs
  let (ds, cs) ← some1 Char.isDigit cs
  let kept := ds.take 9
  return (digitsValue 10 kept * Nat.pow 10 (9 - kept.length), cs)

/-- Reads a time of day. -/
def clock : Reader Clock := fun cs => do
  let (hour, cs) ← boundedDigits 2 0 23 cs
  let (_, cs) ← char ':' cs
  let (minute, cs) ← boundedDigits 2 0 59 cs
  let (_, cs) ← char ':' cs
  let (second, cs) ← boundedDigits 2 0 60 cs
  let (nanosecond, cs) ← optional secondFraction cs
  return (⟨hour, minute, second, nanosecond.getD 0⟩, cs)

/-- Reads the distance to universal time. -/
def zone : Reader Zone
  | 'Z' :: cs | 'z' :: cs => some (.universal, cs)
  | cs => do
    let (mark, cs) ← charOf (fun c => c == '+' || c == '-') cs
    let (hours, cs) ← boundedDigits 2 0 23 cs
    let (_, cs) ← char ':' cs
    let (minutes, cs) ← boundedDigits 2 0 59 cs
    let total : Int := hours * 60 + minutes
    return (.shifted (if mark == '-' then -total else total), cs)

/-- Reads the time after a date with the mark before it. -/
def clockAfterDay : Reader Clock := fun cs =>
  (charOf (fun c => c == 'T' || c == 't' || c == ' ') cs).bind fun (_, rest) => clock rest

/-! ## Moments -/

/-- Reads a date with or without a time. -/
def dated : Reader Moment := fun cs => do
  let (d, cs) ← day cs
  match clockAfterDay cs with
  | none => some ({ day := d }, cs)
  | some (c, cs) =>
    let (z, cs) ← optional zone cs
    return (⟨d, c, z⟩, cs)

/-- Reads a moment. -/
def moment : Reader Moment :=
  orElse dated (mapped clock fun c => { clock := some c })

/-- The moment that a whole text holds. -/
def momentOfText? (text : String) : Option Moment :=
  match moment text.toList with
  | some (m, []) => some m
  | _ => none

end ModulePurity.Toml
