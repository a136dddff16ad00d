import ConceptSpace.Text.Json
import ConceptSpace.Text.Numeral

/-!
# TOML words and strings

The smallest parts of a TOML document: blanks, line ends, comments, strings, numbers, truth values,
dates and times. A reader takes the characters of a text, and gives what it has read with the
characters behind it, or nothing.
-/

namespace ConceptSpace.Toml

/-! ## Blanks and line ends -/

/-- A blank within a line. -/
def isBlank (c : Char) : Bool :=
  c == ' ' || c == '\t'

/-- A character that comments and strings may hold as it is. -/
def isPlain (c : Char) : Bool :=
  c == '\t' || (0x20 ≤ c.toNat && c.toNat != 0x7F)

/-- Drops blanks. -/
def skipBlanks (cs : List Char) : List Char :=
  cs.dropWhile isBlank

/-- Drops a comment, if there is one. -/
def skipComment (cs : List Char) : List Char :=
  match cs with
  | '#' :: _ => cs.dropWhile isPlain
  | _ => cs

/-- The text behind the end of a line, which the end of the text is too. -/
def lineEnd? : List Char → Option (List Char)
  | [] => some []
  | '\n' :: cs => some cs
  | '\r' :: '\n' :: cs => some cs
  | _ => none

/-- The text behind the rest of a line that holds nothing more. -/
def restOfLine? (cs : List Char) : Option (List Char) :=
  lineEnd? (skipComment (skipBlanks cs))

/-- Drops blanks, comments and line ends, at most `limit` lines of them. -/
def skipLines : Nat → List Char → List Char
  | 0, cs => skipBlanks cs
  | limit + 1, cs =>
    match skipComment (skipBlanks cs) with
    | '\n' :: rest => skipLines limit rest
    | '\r' :: '\n' :: rest => skipLines limit rest
    | rest => rest

/-! ## Strings -/

/-- The number that hexadecimal digits write. -/
def hexNumber? (cs : List Char) : Option Nat :=
  cs.foldlM (fun n c => (Text.Percent.hexValue? c).map (16 * n + ·)) 0

/-- The character with a code point; surrogates and numbers out of range have none. -/
def character? (code : Nat) : Option Char :=
  if h : code.isValidChar then some (Char.ofNatAux code h) else none

/-- The character that an escape writes, behind its backslash. -/
def escape? : List Char → Option (Char × List Char)
  | 'b' :: cs => some ('\x08', cs)
  | 't' :: cs => some ('\t', cs)
  | 'n' :: cs => some ('\n', cs)
  | 'f' :: cs => some ('\x0c', cs)
  | 'r' :: cs => some ('\r', cs)
  | '"' :: cs => some ('"', cs)
  | '\\' :: cs => some ('\\', cs)
  | 'u' :: a :: b :: c :: d :: cs => do
    return (← character? (← hexNumber? [a, b, c, d]), cs)
  | 'U' :: a :: b :: c :: d :: e :: f :: g :: h :: cs => do
    return (← character? (← hexNumber? [a, b, c, d, e, f, g, h]), cs)
  | _ => none

/-- The form of a string. -/
structure Quoting where
  /-- The character around the string. -/
  quote : Char
  /-- Whether a backslash starts an escape. -/
  escapes : Bool
  /-- Whether the string may go on over several lines, and ends with three quotes. -/
  multiline : Bool

/-- Drops blanks and line ends. -/
def skipGap : List Char → List Char
  | ' ' :: cs => skipGap cs
  | '\t' :: cs => skipGap cs
  | '\n' :: cs => skipGap cs
  | '\r' :: '\n' :: cs => skipGap cs
  | cs => cs

/-- Drops the blanks and line ends behind a backslash at the end of a line; `none` if it does not
stand at the end of a line. -/
def continued? (cs : List Char) : Option (List Char) :=
  match skipBlanks cs with
  | '\n' :: rest => some (skipGap rest)
  | '\r' :: '\n' :: rest => some (skipGap rest)
  | _ => none

/-- The rest of a string, with at most `limit` characters. -/
def string? (form : Quoting) : Nat → List Char → Option (List Char × List Char)
  | 0, _ => none
  | _ + 1, [] => none
  | limit + 1, c :: cs =>
    let q := form.quote
    if c = q then
      if form.multiline then
        match cs with
        | d :: e :: rest =>
          if d = q ∧ e = q then
            match rest with
            | f :: g :: more =>
              if f = q then if g = q then some ([q, q], more) else some ([q], g :: more)
              else some ([], rest)
            | [f] => if f = q then some ([q], []) else some ([], rest)
            | [] => some ([], [])
          else do
            let (more, rest) ← string? form limit cs
            return (c :: more, rest)
        | _ => none
      else some ([], cs)
    else if c = '\\' ∧ form.escapes then
      match if form.multiline then continued? cs else none with
      | some rest => string? form limit rest
      | none => do
        let (found, rest) ← escape? cs
        let (more, rest) ← string? form limit rest
        return (found :: more, rest)
    else if isPlain c then do
      let (more, rest) ← string? form limit cs
      return (c :: more, rest)
    else if form.multiline then do
      let (more, rest) ← string? form limit (← lineEnd? (c :: cs))
      return ('\n' :: more, rest)
    else none

/-- Drops a line end. -/
def skipLineEnd (cs : List Char) : List Char :=
  (lineEnd? cs).getD cs

/-- A string, from behind its opening quote on. -/
def unquoted? (form : Quoting) (cs : List Char) : Option (String × List Char) :=
  (string? form (cs.length + 1) cs).map fun (text, rest) => (String.ofList text, rest)

/-- A string, from its opening quote on. -/
def quoted? : List Char → Option (String × List Char)
  | '"' :: '"' :: '"' :: cs => unquoted? ⟨'"', true, true⟩ (skipLineEnd cs)
  | '\'' :: '\'' :: '\'' :: cs => unquoted? ⟨'\'', false, true⟩ (skipLineEnd cs)
  | '"' :: cs => unquoted? ⟨'"', true, false⟩ cs
  | '\'' :: cs => unquoted? ⟨'\'', false, false⟩ cs
  | _ => none

/-! ## Numbers -/

/-- Whether a text is a run of digits with single underscores between digits. -/
def isDigitRun (isDigit : Char → Bool) (cs : List Char) : Bool :=
  (cs.splitOn '_').all fun run => !run.isEmpty && run.all isDigit

/-- Splits off a sign. -/
def unsigned : List Char → Bool × List Char
  | '-' :: cs => (true, cs)
  | '+' :: cs => (false, cs)
  | cs => (false, cs)

/-- The number that digits of a base write, with underscores between them. -/
def digitsIn? (base : Nat) (cs : List Char) : Option Nat :=
  let isDigit := fun c => (Text.Percent.hexValue? c).any (· < base)
  if isDigitRun isDigit cs then
    some (cs.foldl (fun n c => match Text.Percent.hexValue? c with
      | some d => base * n + d
      | none => n) 0)
  else none

/-- Whether decimal digits have a zero in front of others. -/
def hasLeadingZero : List Char → Bool
  | '0' :: _ :: _ => true
  | _ => false

/-- The integer that a word writes, if it fits into 64 bits. -/
def integer? (cs : List Char) : Option Int :=
  let number : Option Int :=
    match cs with
    | '0' :: 'x' :: digits => (digitsIn? 16 digits).map Int.ofNat
    | '0' :: 'o' :: digits => (digitsIn? 8 digits).map Int.ofNat
    | '0' :: 'b' :: digits => (digitsIn? 2 digits).map Int.ofNat
    | _ =>
      let (negative, digits) := unsigned cs
      if hasLeadingZero digits then none
      else (digitsIn? 10 digits).map fun n => if negative then -Int.ofNat n else Int.ofNat n
  number.filter fun n => Int64.minValue.toInt ≤ n && n ≤ Int64.maxValue.toInt

/-- The power of ten that an exponent writes; without an exponent it is zero. -/
def power? : List Char → Option Int
  | [] => some 0
  | letter :: cs =>
    if letter = 'e' ∨ letter = 'E' then
      let (negative, digits) := unsigned cs
      (digitsIn? 10 digits).map fun n => if negative then -Int.ofNat n else Int.ofNat n
    else none

/-- The number that a decimal fraction or an exponential form writes, as an integer and the power of
ten to multiply it by. -/
def decimal? (cs : List Char) : Option (Nat × Int) :=
  let isDigit := fun c : Char => c.isDigit || c == '_'
  let (whole, behind) := cs.span isDigit
  if hasLeadingZero whole then none
  else
    match behind with
    | [] => none
    | '.' :: rest => do
      let (fraction, behind) := rest.span isDigit
      let places := fraction.countP Char.isDigit
      let n ← digitsIn? 10 whole
      let part ← digitsIn? 10 fraction
      return (n * Nat.pow 10 places + part, (← power? behind) - places)
    | _ => do return (← digitsIn? 10 whole, ← power? behind)

/-- Whether `n` times a power of ten is nearer to `2 ^ 1024` than to any real number of 64 bits. The
number of its digits decides unless it is close. -/
def isBeyondReals (n : Nat) (power : Int) : Bool :=
  let places := (Nat.toDigits 10 n).length + power
  let bound := Nat.pow 2 1024 - Nat.pow 2 970
  if n = 0 ∨ places < 300 then false
  else if 320 < places then true
  else if 0 ≤ power then bound ≤ n * Nat.pow 10 power.toNat
  else bound * Nat.pow 10 (-power).toNat ≤ n

/-- Whether a word writes a real number. One that is too great is refused if it is positive; if it is
negative, it is read as infinite. -/
def isReal (cs : List Char) : Bool :=
  let (negative, digits) := unsigned cs
  if digits == ['i', 'n', 'f'] || digits == ['n', 'a', 'n'] then true
  else
    match decimal? digits with
    | some (n, power) => negative || !isBeyondReals n power
    | none => false

/-! ## Dates and times -/

/-- The number of a field that has exactly so many digits. -/
def field? (width : Nat) (cs : List Char) : Option Nat :=
  if cs.length = width then Text.digits? cs else none

/-- The number of days of a month. -/
def daysIn (year month : Nat) : Nat :=
  if month = 2 then if year % 4 = 0 ∧ (year % 100 ≠ 0 ∨ year % 400 = 0) then 29 else 28
  else if [4, 6, 9, 11].contains month then 30 else 31

/-- Whether a text is a date. -/
def isDate (cs : List Char) : Bool :=
  match cs.splitOn '-' with
  | [year, month, day] =>
    match field? 4 year, field? 2 month, field? 2 day with
    | some y, some m, some d => 1 ≤ m && m ≤ 12 && 1 ≤ d && d ≤ daysIn y m
    | _, _, _ => false
  | _ => false

/-- Whether a text is a time of day. -/
def isTime (cs : List Char) : Bool :=
  let (clock, fraction) := cs.span (· != '.')
  let inRange := match clock.splitOn ':' with
    | [hour, minute, second] =>
      match field? 2 hour, field? 2 minute, field? 2 second with
      | some h, some m, some s => h ≤ 23 && m ≤ 59 && s ≤ 60
      | _, _, _ => false
    | _ => false
  inRange && match fraction with
    | [] => true
    | _ :: digits => (Text.digits? digits).isSome

/-- Whether a text is a distance from universal time. -/
def isOffset (cs : List Char) : Bool :=
  match cs with
  | [c] => c == 'Z' || c == 'z'
  | sign :: rest =>
    (sign == '+' || sign == '-') && match rest.splitOn ':' with
      | [hour, minute] =>
        match field? 2 hour, field? 2 minute with
        | some h, some m => h ≤ 23 && m ≤ 59
        | _, _ => false
      | _ => false
  | [] => false

/-- Whether a text is a time of day, with a distance from universal time or without. -/
def isZonedTime (cs : List Char) : Bool :=
  let (time, offset) := cs.span fun c => c.isDigit || c == ':' || c == '.'
  isTime time && (offset.isEmpty || isOffset offset)

/-- Whether a text is a date, a time of day, or both with a separator between. -/
def isMoment (cs : List Char) : Bool :=
  isTime cs || isDate cs ||
    match cs.drop 10 with
    | separator :: time =>
      (separator == 'T' || separator == 't' || separator == ' ') && isDate (cs.take 10) &&
        isZonedTime time
    | [] => false

/-! ## Words -/

/-- A character of a number, a truth value, a date or a time. -/
def isWordChar (c : Char) : Bool :=
  c.isAlphanum || c == '_' || c == '-' || c == '+' || c == '.' || c == ':'

/-- A word; a time of day behind a date and a blank belongs to it. -/
def word (cs : List Char) : List Char × List Char :=
  let (first, rest) := cs.span isWordChar
  match isDate first, rest with
  | true, ' ' :: c :: more =>
    if c.isDigit then
      let (time, rest) := (c :: more).span isWordChar
      (first ++ ' ' :: time, rest)
    else (first, rest)
  | _, _ => (first, rest)

example : quoted? "\"a\\u00e9\\\"\" b".toList = some ("aé\"", [' ', 'b']) := by decide +kernel
example : quoted? "'''a''b'''".toList = some ("a''b", []) := by decide +kernel
example : integer? "-1_000".toList = some (-1000) ∧ integer? "0xFF".toList = some 255 := by
  decide +kernel
example : integer? "01".toList = none ∧ integer? "1__0".toList = none := by decide +kernel
example : isReal "6.5e+2".toList ∧ !isReal "1.".toList ∧ !isReal "12".toList := by decide +kernel
example : isReal "-1e999".toList ∧ !isReal "1e999".toList ∧ isReal "1e-999".toList := by
  decide +kernel
example : quoted? "\"\"\"a\\\r\n \n b\"\"\"".toList = some ("ab", []) := by decide +kernel
example : quoted? "\"\"\"a\\\n\rb\"\"\"".toList = none := by decide +kernel
example : isMoment "1979-05-27T07:32:00.5-07:00".toList ∧ !isMoment "1979-02-29".toList := by
  decide +kernel

end ConceptSpace.Toml
