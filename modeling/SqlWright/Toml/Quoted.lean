import SqlWright.Json.Token

/-!
# Strings of TOML

A string stands between double quotes, where a backslash starts an escape, or
between single quotes, where every character stands for itself. Three quotes
enclose a string of several lines. The writer takes single quotes where they save
escapes.
-/

namespace SqlWright.Toml

/-- Whether a character may stand in a line as it is. -/
def isPlain (c : Char) : Bool := c == '\t' || (0x20 ≤ c.toNat && c.toNat ≠ 0x7F)

/-- Line break at the front removed, if one is there. -/
def afterBreak? : List Char → Option (List Char)
  | '\n' :: cs => some cs
  | '\r' :: '\n' :: cs => some cs
  | _ => none

/-- Number of hexadecimal digits. -/
def hexadecimal? (cs : List Char) : Option Nat :=
  cs.foldlM (fun n c ↦ (Json.hexDigit? c).map (n * 16 + ·)) 0

/-- Character of a code point, which is no surrogate. -/
def scalar? (n : Nat) : Option Char :=
  if n.isValidChar then some (Char.ofNat n) else none

/-- Character that an escape after its backslash stands for, and the number of characters of
the escape. -/
def escape? : List Char → Option (Char × Nat)
  | 'b' :: _ => some ('\x08', 1)
  | 't' :: _ => some ('\t', 1)
  | 'n' :: _ => some ('\n', 1)
  | 'f' :: _ => some ('\x0c', 1)
  | 'r' :: _ => some ('\r', 1)
  | '\x22' :: _ => some ('\x22', 1)
  | '\\' :: _ => some ('\\', 1)
  | 'u' :: cs => do
    if cs.length < 4 then none
    else return (← scalar? (← hexadecimal? (cs.take 4)), 5)
  | 'U' :: cs => do
    if cs.length < 8 then none
    else return (← scalar? (← hexadecimal? (cs.take 8)), 9)
  | _ => none

/-- Kind of a string: with or without escapes, in one line or in several. -/
structure Style where
  literal : Bool
  multiline : Bool
  deriving DecidableEq

/-- Quote of a style. -/
def Style.quote (s : Style) : Char := if s.literal then '\x27' else '\x22'

/-- Quotes at the end of a string, among which one or two may belong to its text: how many do,
and how many there are. -/
def closing? (s : Style) (cs : List Char) : Option (Nat × Nat) :=
  let count := (cs.takeWhile (· == s.quote)).length
  if s.multiline then
    if count < 3 then none else some (min count 5 - 3, min count 5)
  else if count = 0 then none else some (0, 1)

/-- Blanks and line breaks at the front removed. -/
def skipBreaks : List Char → List Char
  | ' ' :: cs | '\t' :: cs | '\n' :: cs | '\r' :: '\n' :: cs => skipBreaks cs
  | cs => cs

/-- Rest after a backslash at the end of a line: the line break and the blanks around it are
gone. -/
def continued? (cs : List Char) : Option (List Char) :=
  (afterBreak? (cs.dropWhile fun c ↦ c == ' ' || c == '\t')).map skipBreaks

/-- Text of a string up to its closing quotes, and what follows them; `fuel` bounds the number
of characters. -/
def stringBody? (s : Style) : Nat → List Char → Option (List Char × List Char)
  | 0, _ => none
  | fuel + 1, cs =>
    match closing? s cs with
    | some (own, length) => some (List.replicate own s.quote, cs.drop length)
    | none =>
      match cs with
      | [] => none
      | c :: rest =>
        if c = '\\' ∧ !s.literal then
          match (if s.multiline then continued? rest else none) with
          | some rest => stringBody? s fuel rest
          | none => do
            let (e, length) ← escape? rest
            let (text, rest) ← stringBody? s fuel (rest.drop length)
            return (e :: text, rest)
        else
          match (if s.multiline then afterBreak? cs else none) with
          | some rest => do
            let (text, rest) ← stringBody? s fuel rest
            return ('\n' :: text, rest)
          | none =>
            if isPlain c then do
              let (text, rest) ← stringBody? s fuel rest
              return (c :: text, rest)
            else none

/-- String that starts at the front, and what follows it. -/
def string? (cs : List Char) : Option (String × List Char) := do
  let start ← cs.head?
  let literal ← if start = '\x27' then some true else if start = '\x22' then some false else none
  let multiline := (cs.takeWhile (· == start)).length ≥ 3
  let body := cs.drop (if multiline then 3 else 1)
  let body := if multiline then (afterBreak? body).getD body else body
  let (text, rest) ← stringBody? ⟨literal, multiline⟩ (body.length + 1) body
  return (String.ofList text, rest)

/-! ## Writing -/

/-- Length of the longest run of single quotes; `run` is the length of the run just left. -/
def longestRun (run : Nat) : List Char → Nat
  | [] => run
  | c :: cs => if c = '\x27' then longestRun (run + 1) cs else max run (longestRun 0 cs)

/-- Whether a text gains by single quotes and can be put between them. -/
def isLiteral (cs : List Char) : Bool :=
  cs.any (fun c ↦ c == '\x22' || c == '\\') &&
    cs.all (fun c ↦ c == '\n' || isPlain c) &&
    longestRun 0 cs < 3 && cs.getLast? != some '\x27'

/-- Style in which a text is written, and whether it starts on a line of its own. -/
def styleOf (cs : List Char) : Style × Bool :=
  let hasBreak := cs.contains '\n'
  let literal := isLiteral cs
  (⟨literal, hasBreak || (literal && cs.contains '\x27')⟩, hasBreak)

/-- Form of one character between double quotes. -/
def escapedChar (multiline : Bool) (c : Char) : List Char :=
  match c with
  | '\x08' => ['\\', 'b']
  | '\t' => ['\\', 't']
  | '\n' => if multiline then ['\n'] else ['\\', 'n']
  | '\x0c' => ['\\', 'f']
  | '\r' => ['\\', 'r']
  | '\x22' => ['\\', '\x22']
  | '\\' => ['\\', '\\']
  | _ =>
    if c.toNat < 0x20 ∨ c.toNat = 0x7F then
      let digits := (Nat.toDigits 16 c.toNat).map Char.toUpper
      ['\\', 'u'] ++ List.replicate (4 - digits.length) '0' ++ digits
    else [c]

/-- String with its quotes. -/
def stringText (s : String) : String :=
  let cs := s.toList
  let (style, hasBreak) := styleOf cs
  let quotes := List.replicate (if style.multiline then 3 else 1) style.quote
  let body := if style.literal then cs else cs.flatMap (escapedChar style.multiline)
  String.ofList (quotes ++ (if hasBreak then ['\n'] else []) ++ body ++ quotes)

end SqlWright.Toml
