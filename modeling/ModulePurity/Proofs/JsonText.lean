import Mathlib.Data.Nat.Digits.Defs
import ModulePurity.Data.Json

/-!
# Reading JSON text

The other side of `Json.pretty`: a reader for JSON texts. It goes over the characters once and makes
tokens of them (`scan`), and then over the tokens once with a stack of the sequences and tables that
are still open (`Reading.step?`). What it reads from the written form of a value is the value, as
long as the value holds no moments and no decimals, which are written as they stand
(`Plain.read?_pretty`).
-/

namespace ModulePurity.Json

/-! ## Tokens -/

/-- A token of a JSON text. -/
inductive Token where
  | openTable
  | closeTable
  | openSequence
  | closeSequence
  | comma
  | colon
  /-- A string, a number, or one of the three words, by its value. -/
  | scalar (v : Value)

/-- White space between tokens. -/
def isBlank (c : Char) : Bool := c == ' ' || c == '\n' || c == '\r' || c == '\t'

/-- A character of a number or word. -/
def isWordChar (c : Char) : Bool := c.isAlphanum || c == '+' || c == '-' || c == '.'

/-- A number without sign, fraction and exponent. It has no leading zero. -/
def natural? (cs : List Char) : Option Nat :=
  if cs ≠ [] ∧ cs.all Char.isDigit ∧ (cs.head? = some '0' → cs = ['0']) then
    some (Nat.ofDigitChars 10 cs 0)
  else none

/-- Whether a text is an exponent, or nothing. -/
def isExponent : List Char → Bool
  | [] => true
  | e :: cs =>
    let digits := if cs.head? == some '+' || cs.head? == some '-' then cs.tail else cs
    (e == 'e' || e == 'E') && !digits.isEmpty && digits.all Char.isDigit

/-- Whether a text is a fraction, an exponent, both, or nothing. -/
def isFraction : List Char → Bool
  | '.' :: cs => !(cs.takeWhile Char.isDigit).isEmpty && isExponent (cs.dropWhile Char.isDigit)
  | cs => isExponent cs

/-- The value of a number without a sign, if it is none of the whole numbers a decimal. -/
def number? (negative : Bool) (cs : List Char) : Option Value :=
  match natural? cs with
  | some n =>
    if negative then some (if n = 0 then .decimal "-0" else .integer (-n)) else some (.integer n)
  | none =>
    if (natural? (cs.takeWhile Char.isDigit)).isSome && isFraction (cs.dropWhile Char.isDigit) then
      some (.decimal (String.ofList (if negative then '-' :: cs else cs)))
    else none

/-- The value of a word or number. -/
def wordValue? (cs : List Char) : Option Value :=
  if cs = "null".toList then some .null
  else if cs = "true".toList then some (.boolean true)
  else if cs = "false".toList then some (.boolean false)
  else
    match cs with
    | '-' :: rest => number? true rest
    | _ => number? false cs

/-- The character that a letter stands for behind a backslash. -/
def escaped? (c : Char) : Option Char :=
  if c = '"' || c = '\\' || c = '/' then some c
  else if c = 'b' then some '\x08'
  else if c = 'f' then some '\x0c'
  else if c = 'n' then some '\n'
  else if c = 'r' then some '\r'
  else if c = 't' then some '\t'
  else none

/-- The value of a hexadecimal digit. -/
def hexValue? (c : Char) : Option Nat :=
  if c.isDigit then some (c.toNat - '0'.toNat)
  else if 'a' ≤ c ∧ c ≤ 'f' then some (c.toNat - 'a'.toNat + 10)
  else if 'A' ≤ c ∧ c ≤ 'F' then some (c.toNat - 'A'.toNat + 10)
  else none

/-- Where a scanner stands. What is known of an unfinished token is kept with its last character
first. -/
inductive Scan where
  | between
  | word (taken : List Char)
  | string (taken : List Char)
  /-- Behind a backslash. -/
  | escape (taken : List Char)
  /-- Among the four digits of a code unit, perhaps behind the first half of a pair. -/
  | unit (taken : List Char) (half : Option Nat) (digits : List Nat)
  /-- Behind the first half of a pair of code units. -/
  | half (taken : List Char) (first : Nat)
  /-- Behind the first half of a pair and a backslash. -/
  | halfEscape (taken : List Char) (first : Nat)

/-- Goes on behind a code unit. A unit that is half of a pair makes a character only with the other
half. -/
def Scan.afterUnit? (taken : List Char) (first : Option Nat) (unit : Nat) : Option Scan :=
  match first with
  | none =>
    if 0xd800 ≤ unit ∧ unit < 0xdc00 then some (.half taken unit)
    else if unit.isValidChar then some (.string (Char.ofNat unit :: taken))
    else none
  | some high =>
    if 0xdc00 ≤ unit ∧ unit < 0xe000 then
      some (.string (Char.ofNat (0x10000 + (high - 0xd800) * 0x400 + (unit - 0xdc00)) :: taken))
    else none

/-- The tokens that a character between tokens makes, and where the scanner stands behind it. -/
def Scan.start? (c : Char) : Option (List Token × Scan) :=
  if isBlank c then some ([], .between)
  else if c = '\x7b' then some ([.openTable], .between)
  else if c = '\x7d' then some ([.closeTable], .between)
  else if c = '[' then some ([.openSequence], .between)
  else if c = ']' then some ([.closeSequence], .between)
  else if c = ',' then some ([.comma], .between)
  else if c = ':' then some ([.colon], .between)
  else if c = '"' then some ([], .string [])
  else if isWordChar c then some ([], .word [c])
  else none

/-- The tokens that one more character completes, and where the scanner stands behind it. -/
def Scan.step? : Scan → Char → Option (List Token × Scan)
  | between, c => start? c
  | word taken, c =>
    if isWordChar c then some ([], .word (c :: taken))
    else
      (wordValue? taken.reverse).bind fun v =>
        (start? c).map fun (tokens, next) => (.scalar v :: tokens, next)
  | string taken, c =>
    if c = '"' then some ([.scalar (.text (String.ofList taken.reverse))], .between)
    else if c = '\\' then some ([], .escape taken)
    else if c.toNat < 0x20 then none
    else some ([], .string (c :: taken))
  | escape taken, c =>
    if c = 'u' then some ([], .unit taken none [])
    else (escaped? c).map fun d => ([], .string (d :: taken))
  | unit taken first digits, c =>
    (hexValue? c).bind fun d =>
      if digits.length < 3 then some ([], .unit taken first (d :: digits))
      else (afterUnit? taken first (Nat.ofDigits 16 (d :: digits))).map fun next => ([], next)
  | half taken first, c => if c = '\\' then some ([], .halfEscape taken first) else none
  | halfEscape taken first, c => if c = 'u' then some ([], .unit taken (some first) []) else none

/-- The tokens of a text for a scanner that stands somewhere. -/
def scan : Scan → List Char → Option (List Token)
  | .between, [] => some []
  | .word taken, [] => (wordValue? taken.reverse).map fun v => [.scalar v]
  | _, [] => none
  | s, c :: cs => (s.step? c).bind fun (tokens, next) => (scan next cs).map (tokens ++ ·)

/-! ## Values -/

/-- A sequence or table that is still open, with what it holds so far, latest first. -/
inductive Open where
  | sequence (items : List Value)
  /-- A table in which the value of `key` comes next. -/
  | table (entries : List (String × Value)) (key : String)

/-- What has been read, within the open sequences and tables, the innermost first. -/
inductive Reading where
  /-- A value comes next. -/
  | value (above : List Open)
  /-- The first item of a sequence comes next, or its end. -/
  | firstItem (above : List Open)
  /-- The first key of a table comes next, or its end. -/
  | firstKey (above : List Open)
  | key (entries : List (String × Value)) (above : List Open)
  | colon (entries : List (String × Value)) (key : String) (above : List Open)
  /-- A value has come to its end. -/
  | after (v : Value) (above : List Open)

namespace Reading

/-- Goes on with the first token of a value. -/
def start? (above : List Open) : Token → Option Reading
  | .scalar v => some (after v above)
  | .openSequence => some (firstItem above)
  | .openTable => some (firstKey above)
  | _ => none

/-- Goes on with one more token. -/
def step? : Reading → Token → Option Reading
  | value above, t => start? above t
  | firstItem above, .closeSequence => some (after (.sequence []) above)
  | firstItem above, t => start? (.sequence [] :: above) t
  | firstKey above, .closeTable => some (after (.table []) above)
  | firstKey above, .scalar (.text s) => some (colon [] s above)
  | key entries above, .scalar (.text s) => some (colon entries s above)
  | colon entries s above, .colon => some (value (.table entries s :: above))
  | after v (.sequence items :: above), .comma => some (value (.sequence (v :: items) :: above))
  | after v (.sequence items :: above), .closeSequence =>
    some (after (.sequence (v :: items).reverse) above)
  | after v (.table entries s :: above), .comma => some (key ((s, v) :: entries) above)
  | after v (.table entries s :: above), .closeTable =>
    some (after (.table ((s, v) :: entries).reverse) above)
  | _, _ => none

/-- The value that has been read, if nothing is open. -/
def result? : Reading → Option Value
  | after v [] => some v
  | _ => none

end Reading

/-- What has been read behind the tokens of a text. -/
def Reading.run? (r : Reading) (cs : List Char) : Option Reading :=
  (scan .between cs).bind fun tokens => tokens.foldlM step? r

/-- Reads a JSON text. -/
def read? (text : String) : Option Value :=
  (Reading.run? (.value []) text.toList).bind Reading.result?

/-! ## Scanning what was written -/

/-- Scanning puts the tokens of the first character in front of those of the rest. -/
theorem scan_cons (s : Scan) (c : Char) (cs : List Char) :
    scan s (c :: cs) =
      (s.step? c).bind fun (tokens, next) => (scan next cs).map (tokens ++ ·) := by
  cases s <;> rfl

theorem scan_of_step? {s next : Scan} {c : Char} {tokens : List Token}
    (h : s.step? c = some (tokens, next)) (cs : List Char) :
    scan s (c :: cs) = (scan next cs).map (tokens ++ ·) := by
  rw [scan_cons, h, Option.bind_some]

/-- A character that completes no token only moves the scanner. -/
theorem scan_of_silent {s : Scan} {c : Char} (next : Scan) (h : s.step? c = some ([], next))
    (cs : List Char) : scan s (c :: cs) = scan next cs := by
  rw [scan_of_step? h]
  exact Option.map_id'

/-- A backslash and the letter for a character. -/
theorem scan_letter {c letter : Char} (hletter : letter ≠ 'u') (h : escaped? letter = some c)
    (taken rest : List Char) :
    scan (.string taken) ('\\' :: letter :: rest) = scan (.string (c :: taken)) rest := by
  rw [scan_of_silent (.escape taken) (by rfl), scan_of_silent]
  show (if letter = 'u' then _ else _) = _
  rw [if_neg hletter, h, Option.map_some]

/-- The sixteen digits are read as what they stand for. -/
theorem hexValue?_hexDigit : ∀ n < 16, hexValue? (hexDigit n) = some n := by decide

/-- A control character by its number. -/
theorem scan_control {c : Char} (hc : c.toNat < 0x20) (taken rest : List Char) :
    scan (.string taken)
        ('\\' :: 'u' :: '0' :: '0' :: hexDigit (c.toNat / 16) :: hexDigit (c.toNat % 16) :: rest) =
      scan (.string (c :: taken)) rest := by
  have hnumber : Nat.ofDigits 16 [c.toNat % 16, c.toNat / 16, 0, 0] = c.toNat := by
    simp only [Nat.ofDigits_cons, Nat.ofDigits_nil]
    omega
  have hunit : Scan.afterUnit? taken none c.toNat = some (.string (c :: taken)) := by
    rw [Scan.afterUnit?, if_neg (by omega), if_pos (Or.inl (by omega)), Char.ofNat_toNat]
  have hhigh := hexValue?_hexDigit (c.toNat / 16) (by omega)
  have hlow := hexValue?_hexDigit (c.toNat % 16) (by omega)
  rw [scan_of_silent (.escape taken) (by rfl),
    scan_of_silent (.unit taken none []) (by rfl),
    scan_of_silent (.unit taken none [0]) (by rfl),
    scan_of_silent (.unit taken none [0, 0]) (by rfl),
    scan_of_silent (.unit taken none [c.toNat / 16, 0, 0]), scan_of_silent]
  · show (hexValue? _).bind _ = _
    rw [hlow, Option.bind_some]
    show (Scan.afterUnit? taken none (Nat.ofDigits 16 [c.toNat % 16, c.toNat / 16, 0, 0])).map _ = _
    rw [hnumber, hunit, Option.map_some]
  · show (hexValue? _).bind _ = _
    rw [hhigh, Option.bind_some]
    rfl

/-- An escaped character is read as the character. -/
theorem scan_escape (c : Char) (taken rest : List Char) :
    scan (.string taken) (escape c ++ rest) = scan (.string (c :: taken)) rest := by
  rw [escape]
  split_ifs with hquote hslash hline hreturn htab hback hfeed hcontrol
  · subst hquote
    exact scan_letter (by decide) rfl taken rest
  · subst hslash
    exact scan_letter (by decide) rfl taken rest
  · exact scan_letter (by decide) (hline ▸ rfl) taken rest
  · exact scan_letter (by decide) (hreturn ▸ rfl) taken rest
  · exact scan_letter (by decide) (htab ▸ rfl) taken rest
  · exact scan_letter (by decide) (hback ▸ rfl) taken rest
  · exact scan_letter (by decide) (hfeed ▸ rfl) taken rest
  · exact scan_control hcontrol taken rest
  · apply scan_of_silent
    show (if c = '"' then _ else _) = _
    rw [if_neg hquote, if_neg hslash, if_neg hcontrol]

/-- A string is read as the text between its quotes. -/
theorem scan_string (s : String) (rest : List Char) :
    scan .between ((string s).toList ++ rest) =
      (scan .between rest).map ([.scalar (.text s)] ++ ·) := by
  have hbody : ∀ taken cs, scan (.string taken) (cs.flatMap escape ++ '"' :: rest) =
      (scan .between rest).map ([.scalar (.text (String.ofList (taken.reverse ++ cs)))] ++ ·) := by
    intro taken cs
    induction cs generalizing taken with
    | nil =>
      rw [List.flatMap_nil, List.nil_append, List.append_nil]
      exact scan_of_step? rfl rest
    | cons c cs ih =>
      rw [List.flatMap_cons, List.append_assoc, scan_escape, ih, List.reverse_cons,
        List.append_assoc, List.singleton_append]
  rw [string, String.toList_ofList, List.append_assoc, List.singleton_append, List.cons_append,
    scan_of_silent (.string []) rfl, hbody, List.reverse_nil, List.nil_append, String.ofList_toList]

/-! ## Words and numbers -/

/-- What ends a word or number: no further character of one. -/
def EndsWord (rest : List Char) : Prop := ∀ c, rest.head? = some c → isWordChar c = false

theorem start?_of_isWordChar {c : Char} (h : isWordChar c = true) :
    Scan.start? c = some ([], .word [c]) := by
  have hne : ∀ d, isWordChar d = false → c ≠ d := by
    rintro d hd rfl
    rw [h] at hd
    cases hd
  have hblank : isBlank c = false := by
    simp [isBlank, hne ' ' (by decide), hne '\n' (by decide), hne '\r' (by decide),
      hne '\t' (by decide)]
  simp [Scan.start?, hblank, h, hne '\x7b' (by decide), hne '\x7d' (by decide), hne '[' (by decide),
    hne ']' (by decide), hne ',' (by decide), hne ':' (by decide), hne '"' (by decide)]

/-- A word ends where a character comes that cannot belong to it, and then becomes one token. -/
theorem scan_word_end {taken rest : List Char} {v : Value}
    (hv : wordValue? taken.reverse = some v) (hrest : EndsWord rest) :
    scan (.word taken) rest = (scan .between rest).map ([.scalar v] ++ ·) := by
  cases rest with
  | nil =>
    show (wordValue? taken.reverse).map _ = _
    rw [hv]
    rfl
  | cons c cs =>
    have hc : isWordChar c = false := hrest c rfl
    have hstep : (Scan.word taken).step? c =
        (Scan.start? c).map fun (tokens, next) => (.scalar v :: tokens, next) := by
      show (if isWordChar c then _ else _) = _
      rw [if_neg (by rw [hc]; exact Bool.false_ne_true), hv, Option.bind_some]
    have hbetween : Scan.between.step? c = Scan.start? c := rfl
    rw [scan_cons, scan_cons, hstep, hbetween]
    cases Scan.start? c with
    | none => rfl
    | some pair =>
      obtain ⟨tokens, next⟩ := pair
      show (scan next cs).map _ = ((scan next cs).map _).map _
      rw [Option.map_map]
      rfl

/-- A word or number is read as its value. -/
theorem scan_word {w rest : List Char} {v : Value} (hne : w ≠ [])
    (hw : ∀ c ∈ w, isWordChar c = true) (hv : wordValue? w = some v) (hrest : EndsWord rest) :
    scan .between (w ++ rest) = (scan .between rest).map ([.scalar v] ++ ·) := by
  have hinside : ∀ taken w, (∀ c ∈ w, isWordChar c = true) →
      scan (.word taken) (w ++ rest) = scan (.word (w.reverse ++ taken)) rest := by
    intro taken w
    induction w generalizing taken with
    | nil =>
      intro _
      rfl
    | cons c w ih =>
      intro hw
      rw [List.forall_mem_cons] at hw
      have hstep : (Scan.word taken).step? c = some ([], .word (c :: taken)) := if_pos hw.1
      rw [List.cons_append, scan_of_silent _ hstep, ih _ hw.2, List.reverse_cons, List.append_assoc,
        List.singleton_append]
  obtain ⟨c, w, rfl⟩ := List.exists_cons_of_ne_nil hne
  rw [List.forall_mem_cons] at hw
  have hstart : Scan.between.step? c = some ([], .word [c]) := start?_of_isWordChar hw.1
  rw [List.cons_append, scan_of_silent _ hstart, hinside _ _ hw.2]
  apply scan_word_end _ hrest
  rwa [List.reverse_append, List.reverse_reverse, List.reverse_singleton, List.singleton_append]

/-- The first digit of a number is no zero. -/
theorem head?_toDigits {n : Nat} (hn : 0 < n) : (Nat.toDigits 10 n).head? ≠ some '0' := by
  induction n using Nat.strong_induction_on with
  | _ n ih =>
    rw [Nat.toDigits_eq_if (by decide)]
    split
    · next hlt =>
      have hdigit : ∀ k < 10, 0 < k → k.digitChar ≠ '0' := by decide
      intro hzero
      exact hdigit n hlt hn (Option.some.inj hzero)
    · next hge =>
      have hrest := ih (n / 10) (by omega) (by omega)
      obtain ⟨d, ds, hds⟩ :=
        List.exists_cons_of_ne_nil (Nat.toDigits_ne_nil (b := 10) (n := n / 10))
      rw [hds] at hrest ⊢
      exact hrest

/-- The digits that a natural number is written with are read as the number. -/
theorem natural?_toDigits (n : Nat) : natural? (Nat.toDigits 10 n) = some n := by
  have hdigits : (Nat.toDigits 10 n).all Char.isDigit = true := by
    rw [List.all_eq_true]
    intro c hc
    exact Nat.isDigit_of_mem_toDigits (by decide) (by decide) hc
  have hzero : (Nat.toDigits 10 n).head? = some '0' → Nat.toDigits 10 n = ['0'] := by
    intro h
    rcases Nat.eq_zero_or_pos n with rfl | hn
    · rfl
    · exact absurd h (head?_toDigits hn)
  rw [natural?, if_pos ⟨Nat.toDigits_ne_nil, hdigits, hzero⟩,
    Nat.ofDigitChars_toDigits (by decide) (by decide)]

/-- The characters of a whole number. -/
theorem toList_toString_natCast (n : Nat) : (toString (n : Int)).toList = Nat.toDigits 10 n :=
  Nat.toList_repr

theorem toList_toString_negSucc (n : Nat) :
    (toString (Int.negSucc n)).toList = '-' :: Nat.toDigits 10 (n + 1) := by
  show ("-" ++ Nat.repr (n + 1)).toList = _
  rw [String.toList_append, Nat.toList_repr]
  rfl

theorem isWordChar_of_mem_toDigits {n : Nat} {c : Char} (h : c ∈ Nat.toDigits 10 n) :
    isWordChar c = true := by
  have hdigit : c.isDigit = true := Nat.isDigit_of_mem_toDigits (by decide) (by decide) h
  simp [isWordChar, Char.isAlphanum, hdigit]

/-- A word of digits, with or without a sign, is none of the three words with a name. -/
theorem wordValue?_of_digit {c : Char} {cs : List Char} (hc : c.isDigit = true ∨ c = '-') :
    wordValue? (c :: cs) =
      match c :: cs with
      | '-' :: rest => number? true rest
      | _ => number? false (c :: cs) := by
  have hne : ∀ d, d.isDigit = false → d ≠ '-' → c ≠ d := by
    rintro d hd hminus rfl
    rcases hc with hc | hc
    · rw [hc] at hd
      cases hd
    · exact hminus hc
  have hnull : c :: cs ≠ "null".toList :=
    fun h => hne 'n' (by decide) (by decide) (List.cons.inj h).1
  have htrue : c :: cs ≠ "true".toList :=
    fun h => hne 't' (by decide) (by decide) (List.cons.inj h).1
  have hfalse : c :: cs ≠ "false".toList :=
    fun h => hne 'f' (by decide) (by decide) (List.cons.inj h).1
  unfold wordValue?
  rw [if_neg hnull, if_neg htrue, if_neg hfalse]

/-- The word that an integer is written with, sign included, is read as the integer. -/
theorem wordValue?_toString (n : Int) : wordValue? (toString n).toList = some (.integer n) := by
  cases n with
  | ofNat n =>
    show wordValue? (toString (n : Int)).toList = some (.integer n)
    rw [toList_toString_natCast]
    have hnatural := natural?_toDigits n
    obtain ⟨c, cs, hcs⟩ := List.exists_cons_of_ne_nil (Nat.toDigits_ne_nil (b := 10) (n := n))
    have hdigit : c.isDigit = true :=
      Nat.isDigit_of_mem_toDigits (by decide) (by decide) (hcs ▸ List.mem_cons_self)
    rw [hcs] at hnatural ⊢
    rw [wordValue?_of_digit (Or.inl hdigit)]
    split
    · next rest hminus =>
      obtain ⟨rfl, -⟩ := List.cons.inj hminus
      cases hdigit
    · rw [number?, hnatural]
      rfl
  | negSucc n =>
    rw [toList_toString_negSucc, wordValue?_of_digit (Or.inr rfl)]
    show number? true (Nat.toDigits 10 (n + 1)) = _
    rw [number?, natural?_toDigits]
    show some (if n + 1 = 0 then _ else _) = _
    rw [if_neg (by omega)]
    rfl

/-- An integer is scanned as one token if no further digit or letter comes right behind it. -/
theorem scan_integer (n : Int) {rest : List Char} (hrest : EndsWord rest) :
    scan .between ((toString n).toList ++ rest) =
      (scan .between rest).map ([.scalar (.integer n)] ++ ·) := by
  have hne : (toString n).toList ≠ [] := by
    intro h
    have hvalue := wordValue?_toString n
    rw [h] at hvalue
    cases hvalue
  apply scan_word hne _ (wordValue?_toString n) hrest
  intro c hc
  cases n with
  | ofNat n => exact isWordChar_of_mem_toDigits (toList_toString_natCast n ▸ hc)
  | negSucc n =>
    rw [toList_toString_negSucc, List.mem_cons] at hc
    rcases hc with rfl | hc
    · rfl
    · exact isWordChar_of_mem_toDigits hc

/-! ## The characters of sequences and tables -/

/-- A new line is a newline and two blanks for each level. -/
theorem toList_newLine (depth : Nat) :
    (newLine depth).toList = '\n' :: List.replicate (2 * depth) ' ' := by
  simp [newLine, String.toList_append]

/-- The items of a sequence behind the first one stand on lines of their own, each after a comma. -/
theorem toList_writeItems (depth : Nat) (v : Value) (vs : List Value) (rest : List Char) :
    (writeItems depth (v :: vs)).toList ++ rest =
      ',' :: ((newLine depth).toList ++
        ((write depth v).toList ++ ((writeItems depth vs).toList ++ rest))) := by
  simp [writeItems, String.toList_append]

theorem toList_write_sequence (depth : Nat) (v : Value) (vs : List Value) (rest : List Char) :
    (write depth (.sequence (v :: vs))).toList ++ rest =
      '[' :: ((newLine (depth + 1)).toList ++ ((write (depth + 1) v).toList ++
        ((writeItems (depth + 1) vs).toList ++ ((newLine depth).toList ++ ']' :: rest)))) := by
  simp [write, String.toList_append]

/-- The entries of a table behind the first one stand on lines of their own, each after a comma. -/
theorem toList_writeEntries (depth : Nat) (key : String) (v : Value)
    (entries : List (String × Value)) (rest : List Char) :
    (writeEntries depth ((key, v) :: entries)).toList ++ rest =
      ',' :: ((newLine depth).toList ++ ((string key).toList ++ ':' :: ' ' ::
        ((write depth v).toList ++ ((writeEntries depth entries).toList ++ rest)))) := by
  simp [writeEntries, String.toList_append]

theorem toList_write_table (depth : Nat) (key : String) (v : Value)
    (entries : List (String × Value)) (rest : List Char) :
    (write depth (.table ((key, v) :: entries))).toList ++ rest =
      '\x7b' :: ((newLine (depth + 1)).toList ++ ((string key).toList ++ ':' :: ' ' ::
        ((write (depth + 1) v).toList ++ ((writeEntries (depth + 1) entries).toList ++
          ((newLine depth).toList ++ '\x7d' :: rest))))) := by
  simp [write, String.toList_append]

/-! ## Reading what was written -/

namespace Reading

variable {r r' : Reading} {rest : List Char}

/-- A piece of text that makes one token is read by one step. -/
theorem run?_of_scan (piece : List Char) {t : Token}
    (hscan : scan .between (piece ++ rest) = (scan .between rest).map ([t] ++ ·))
    (hstep : r.step? t = some r') : r.run? (piece ++ rest) = r'.run? rest := by
  rw [run?, run?, hscan]
  cases scan .between rest with
  | none => rfl
  | some tokens =>
    show ([t] ++ tokens).foldlM step? r = _
    rw [List.singleton_append, List.foldlM_cons, hstep]
    rfl

/-- A punctuation mark hands one token to the reader. -/
theorem run?_mark {c : Char} {t : Token} (hmark : Scan.start? c = some ([t], .between))
    (hstep : r.step? t = some r') : r.run? (c :: rest) = r'.run? rest := by
  have hmark : Scan.between.step? c = some ([t], .between) := hmark
  exact run?_of_scan [c] (scan_of_step? hmark rest) hstep

theorem run?_string {s : String} (hstep : r.step? (.scalar (.text s)) = some r') :
    r.run? ((string s).toList ++ rest) = r'.run? rest :=
  run?_of_scan _ (scan_string s rest) hstep

theorem run?_blank {c : Char} (hc : isBlank c = true) : r.run? (c :: rest) = r.run? rest := by
  have hstep : Scan.between.step? c = some ([], .between) := if_pos hc
  rw [run?, run?, scan_of_silent .between hstep]

/-- The reader does not see line breaks and indentation. -/
theorem run?_newLine (depth : Nat) : r.run? ((newLine depth).toList ++ rest) = r.run? rest := by
  have hblanks : ∀ k, r.run? (List.replicate k ' ' ++ rest) = r.run? rest := by
    intro k
    induction k with
    | zero => rfl
    | succ k ih =>
      rw [List.replicate_succ, List.cons_append, run?_blank rfl, ih]
  rw [toList_newLine, List.cons_append, run?_blank rfl, hblanks]

/-- A value may come next, within the sequences and tables `above`. -/
structure Awaits (r : Reading) (above : List Open) : Prop where
  scalar : ∀ v, r.step? (.scalar v) = some (after v above)
  openSequence : r.step? .openSequence = some (firstItem above)
  openTable : r.step? .openTable = some (firstKey above)

theorem awaits_value (above : List Open) : Awaits (value above) above := ⟨fun _ => rfl, rfl, rfl⟩

theorem awaits_firstItem (above : List Open) : Awaits (firstItem above) (.sequence [] :: above) :=
  ⟨fun _ => rfl, rfl, rfl⟩

end Reading

open Reading (Awaits)

/-- The written form of a value is read as the value, wherever a value may come. -/
def ReadsBack (v : Value) : Prop :=
  ∀ (r : Reading) (above : List Open) (depth : Nat) (rest : List Char), Awaits r above →
    EndsWord rest → r.run? ((write depth v).toList ++ rest) = (Reading.after v above).run? rest

theorem endsWord_of_head {c : Char} (hc : isWordChar c = false) (rest : List Char) :
    EndsWord (c :: rest) := by
  intro d hd
  rwa [← Option.some.inj hd]

theorem endsWord_newLine (depth : Nat) (rest : List Char) :
    EndsWord ((newLine depth).toList ++ rest) := by
  rw [toList_newLine]
  exact endsWord_of_head rfl _

/-- A value that is scanned as one scalar is read back. -/
theorem readsBack_of_scan {v : Value}
    (h : ∀ depth rest, EndsWord rest → scan .between ((write depth v).toList ++ rest) =
      (scan .between rest).map ([.scalar v] ++ ·)) : ReadsBack v := by
  intro r above depth rest hr hrest
  exact Reading.run?_of_scan _ (h depth rest hrest) (hr.scalar v)

/-! ### Sequences -/

theorem endsWord_items (depth : Nat) (vs : List Value) {rest : List Char} (hrest : EndsWord rest) :
    EndsWord ((writeItems depth vs).toList ++ rest) := by
  cases vs with
  | nil => exact hrest
  | cons v vs =>
    rw [toList_writeItems]
    exact endsWord_of_head rfl _

/-- Behind an item, the further items and the end of the sequence complete the sequence. -/
theorem run?_items {vs : List Value} (hvs : ∀ v ∈ vs, ReadsBack v) (v : Value) (items : List Value)
    (above : List Open) (depth outer : Nat) (rest : List Char) :
    (Reading.after v (.sequence items :: above)).run?
        ((writeItems depth vs).toList ++ ((newLine outer).toList ++ ']' :: rest)) =
      (Reading.after (.sequence (items.reverse ++ v :: vs)) above).run? rest := by
  induction vs generalizing v items with
  | nil =>
    show Reading.run? _ ((newLine outer).toList ++ ']' :: rest) = _
    rw [Reading.run?_newLine]
    apply Reading.run?_mark (t := .closeSequence) rfl
    show some _ = some _
    rw [List.reverse_cons]
  | cons w vs ih =>
    rw [List.forall_mem_cons] at hvs
    have hends := endsWord_items depth vs (endsWord_newLine outer (']' :: rest))
    have hfirst := hvs.1 _ _ depth _ (Reading.awaits_value (.sequence (v :: items) :: above)) hends
    rw [toList_writeItems, Reading.run?_mark (t := .comma) rfl rfl, Reading.run?_newLine, hfirst,
      ih hvs.2, List.reverse_cons, List.append_assoc, List.singleton_append]

/-- A sequence is read back if all its items are. -/
theorem readsBack_sequence {vs : List Value} (hvs : ∀ v ∈ vs, ReadsBack v) :
    ReadsBack (.sequence vs) := by
  intro r above depth rest hr hrest
  cases vs with
  | nil =>
    have hwritten : (write depth (.sequence [])).toList = ['[', ']'] := by simp [write]
    rw [hwritten, List.cons_append, Reading.run?_mark (t := .openSequence) rfl hr.openSequence]
    exact Reading.run?_mark (t := .closeSequence) rfl rfl
  | cons v vs =>
    rw [List.forall_mem_cons] at hvs
    have hends := endsWord_items (depth + 1) vs (endsWord_newLine depth (']' :: rest))
    have hfirst := hvs.1 _ _ (depth + 1) _ (Reading.awaits_firstItem above) hends
    rw [toList_write_sequence, Reading.run?_mark (t := .openSequence) rfl hr.openSequence,
      Reading.run?_newLine]
    exact hfirst.trans (run?_items hvs.2 v [] above (depth + 1) depth rest)

/-! ### Tables -/

theorem endsWord_entries (depth : Nat) (entries : List (String × Value)) {rest : List Char}
    (hrest : EndsWord rest) : EndsWord ((writeEntries depth entries).toList ++ rest) := by
  cases entries with
  | nil => exact hrest
  | cons entry entries =>
    obtain ⟨key, v⟩ := entry
    rw [toList_writeEntries]
    exact endsWord_of_head rfl _

/-- Behind the value of an entry, the further entries and the end of the table complete the
table. -/
theorem run?_entries {entries : List (String × Value)} (hentries : ∀ e ∈ entries, ReadsBack e.2)
    (key : String) (v : Value) (earlier : List (String × Value)) (above : List Open)
    (depth outer : Nat) (rest : List Char) :
    (Reading.after v (.table earlier key :: above)).run?
        ((writeEntries depth entries).toList ++ ((newLine outer).toList ++ '\x7d' :: rest)) =
      (Reading.after (.table (earlier.reverse ++ (key, v) :: entries)) above).run? rest := by
  induction entries generalizing key v earlier with
  | nil =>
    show Reading.run? _ ((newLine outer).toList ++ '\x7d' :: rest) = _
    rw [Reading.run?_newLine]
    apply Reading.run?_mark (t := .closeTable) rfl
    show some _ = some _
    rw [List.reverse_cons]
  | cons entry entries ih =>
    obtain ⟨next, w⟩ := entry
    rw [List.forall_mem_cons] at hentries
    have hends := endsWord_entries depth entries (endsWord_newLine outer ('\x7d' :: rest))
    have hfirst := hentries.1 _ _ depth _
      (Reading.awaits_value (.table ((key, v) :: earlier) next :: above)) hends
    rw [toList_writeEntries, Reading.run?_mark (t := .comma) rfl rfl, Reading.run?_newLine,
      Reading.run?_string rfl, Reading.run?_mark (t := .colon) rfl rfl, Reading.run?_blank rfl]
    refine hfirst.trans ?_
    rw [ih hentries.2, List.reverse_cons, List.append_assoc, List.singleton_append]

/-- A table is read back if all its values are. -/
theorem readsBack_table {entries : List (String × Value)}
    (hentries : ∀ e ∈ entries, ReadsBack e.2) : ReadsBack (.table entries) := by
  intro r above depth rest hr hrest
  cases entries with
  | nil =>
    have hwritten : (write depth (.table [])).toList = ['\x7b', '\x7d'] := by simp [write]
    rw [hwritten, List.cons_append, Reading.run?_mark (t := .openTable) rfl hr.openTable]
    exact Reading.run?_mark (t := .closeTable) rfl rfl
  | cons entry entries =>
    obtain ⟨key, v⟩ := entry
    rw [List.forall_mem_cons] at hentries
    have hends := endsWord_entries (depth + 1) entries (endsWord_newLine depth ('\x7d' :: rest))
    have hfirst :=
      hentries.1 _ _ (depth + 1) _ (Reading.awaits_value (.table [] key :: above)) hends
    rw [toList_write_table, Reading.run?_mark (t := .openTable) rfl hr.openTable,
      Reading.run?_newLine, Reading.run?_string rfl, Reading.run?_mark (t := .colon) rfl rfl,
      Reading.run?_blank rfl]
    exact hfirst.trans (run?_entries hentries.2 key v [] above (depth + 1) depth rest)

/-! ### Values of all kinds -/

/-- Values with a written form of their own: all but moments, which are written like strings, and
decimals, whose text may be anything. -/
inductive Plain : Value → Prop where
  | null : Plain .null
  | boolean (b : Bool) : Plain (.boolean b)
  | integer (n : Int) : Plain (.integer n)
  | text (s : String) : Plain (.text s)
  | sequence {items : List Value} (h : ∀ v ∈ items, Plain v) : Plain (.sequence items)
  | table {entries : List (String × Value)} (h : ∀ e ∈ entries, Plain e.2) : Plain (.table entries)

/-- Every plain value is read back from its text, by induction over its structure. -/
theorem Plain.readsBack {v : Value} (h : Plain v) : ReadsBack v := by
  induction h with
  | null =>
    apply readsBack_of_scan
    intro depth rest hrest
    rw [write]
    exact scan_word (by decide) (List.all_eq_true.mp rfl) rfl hrest
  | boolean b =>
    apply readsBack_of_scan
    intro depth rest hrest
    rw [write]
    cases b with
    | false => exact scan_word (by decide) (List.all_eq_true.mp rfl) rfl hrest
    | true => exact scan_word (by decide) (List.all_eq_true.mp rfl) rfl hrest
  | integer n =>
    apply readsBack_of_scan
    intro depth rest hrest
    exact scan_integer n hrest
  | text s =>
    apply readsBack_of_scan
    intro depth rest _
    exact scan_string s rest
  | sequence _ ih => exact readsBack_sequence ih
  | table _ ih => exact readsBack_table ih

/-- Reading the written form of a value gives the value back, also with a line end behind it. -/
theorem Plain.read?_pretty {v : Value} (h : Plain v) : read? (pretty v ++ "\n") = some v := by
  have hvalue := h.readsBack _ _ 0 ['\n'] (Reading.awaits_value []) (endsWord_of_head rfl [])
  rw [read?, pretty, String.toList_append]
  show (Reading.run? (.value []) ((write 0 v).toList ++ ['\n'])).bind Reading.result? = _
  rw [hvalue, Reading.run?_blank rfl]
  rfl

end ModulePurity.Json
