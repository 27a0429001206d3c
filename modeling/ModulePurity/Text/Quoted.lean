import ModulePurity.Text.Formless

/-!
# Escaped text

Text in log lines. Between double quotes, quotes, backslashes and line ends are escaped by a
backslash, and characters without a visible form by their code point in hexadecimal. Outside of
quotes only the characters that steer a terminal are escaped.
-/

namespace ModulePurity.Text

/-- The digits of a code point in hexadecimal. -/
def hexDigits (n : Nat) : List Char := Nat.toDigits 16 n

/-- The code point of a character in hexadecimal, between braces. -/
def numbered (c : Char) : List Char :=
  ['\\', 'u', '\x7b'] ++ hexDigits c.toNat ++ ['\x7d']

/-- A character inside quotes. -/
def escaped (c : Char) : List Char :=
  if c = '\x00' then ['\\', '0']
  else if c = '\t' then ['\\', 't']
  else if c = '\r' then ['\\', 'r']
  else if c = '\n' then ['\\', 'n']
  else if c = '"' || c = '\\' then ['\\', c]
  else if isFormless c then numbered c
  else [c]

/-- A text between quotes. -/
def quoted (s : String) : String :=
  String.ofList ('"' :: s.toList.flatMap escaped ++ ['"'])

/-- A character outside of quotes: the bell, backspace, form feed, escape and delete are written with
two digits, and the controls above them by their code points. -/
def disarmedChar (c : Char) : List Char :=
  if c = '\x1b' then ['\\', 'x', '1', 'b']
  else if c = '\x07' then ['\\', 'x', '0', '7']
  else if c = '\x08' then ['\\', 'x', '0', '8']
  else if c = '\x0c' then ['\\', 'x', '0', 'c']
  else if c = '\x7f' then ['\\', 'x', '7', 'f']
  else if 0x80 ≤ c.toNat && c.toNat ≤ 0x9F then numbered c
  else [c]

/-- A text that cannot steer a terminal. -/
def disarmed (s : String) : String := String.ofList (s.toList.flatMap disarmedChar)

end ModulePurity.Text
