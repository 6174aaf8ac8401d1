import Mathlib.Data.List.Forall2
import SqlWright.Server.Dialect
import SqlWright.Spelling.Quoting
import SqlWright.Text.Blank

/-!
# Tokens of a text

How a server takes the text of a statement apart: words, symbols, and quoted tokens, in which the
closing delimiter stands for itself where it is written twice. Whether brackets quote, whether `E`
marks a string, and whether a backslash is an escape in a string without a mark, depends on the
dialect and its version. A text is read character by character; a token is complete only when the
character after it is read.
-/

namespace SqlWright

/-- Form of a quoted token: the two of identifiers, then those of strings. -/
inductive Quotes where
  | doubleQuoted
  | bracketed
  | plain
  | national
  | escaped
  deriving DecidableEq

/-- Delimiter that ends a quoted token. -/
def Quotes.closing : Quotes → Char
  | doubleQuoted => '\x22'
  | bracketed => ']'
  | plain | national | escaped => '\x27'

/-- Piece of a text. What a quoted token holds is its payload. -/
inductive Token where
  | word (text : List Char)
  | symbol (c : Char)
  | quoted (form : Quotes) (payload : List Char)
  /-- The text ends inside a quoted token. -/
  | unclosed
  deriving DecidableEq

/-- The tokens are one, or quoted tokens of one form. -/
inductive Token.Alike : Token → Token → Prop where
  | word (text : List Char) : Alike (.word text) (.word text)
  | symbol (c : Char) : Alike (.symbol c) (.symbol c)
  | quoted (form : Quotes) (payload payload' : List Char) :
    Alike (.quoted form payload) (.quoted form payload')

/-- Lexical rules that differ between servers. -/
structure Lexicon where
  /-- Brackets quote identifiers. -/
  brackets : Bool
  /-- The word `E` in front of a string marks one with escapes. -/
  escapeStrings : Bool
  /-- A backslash is an escape in every string. -/
  backslashes : Bool

/-- Lexical rules of a version. PostgreSQL marks strings with escapes from 8.1 on. -/
def Dialect.lexicon : Dialect → Version → Lexicon
  | postgreSql, v => ⟨false, v.isSince ⟨8, 1⟩, !v.isSince ⟨8, 1⟩⟩
  | sqlServer, _ => ⟨true, false, false⟩
  | oracle, _ => ⟨false, false, false⟩

/-- What was read of the token that is not complete. -/
inductive Mode where
  | ground
  | word (text : List Char)
  | inside (form : Quotes) (payload : List Char)
  /-- After a backslash that is an escape. -/
  | escape (form : Quotes) (payload : List Char)
  /-- After a delimiter that ends the token, unless it is written twice. -/
  | closing (form : Quotes) (payload : List Char)
  deriving DecidableEq

namespace Lexicon

/-- Whether a backslash is an escape in quoted tokens of the form. -/
def hasEscapes (l : Lexicon) : Quotes → Bool
  | .escaped => true
  | .plain | .national => l.backslashes
  | .doubleQuoted | .bracketed => false

/-- Whether the character goes on with a word; any outside ASCII does. -/
def isWordChar (c : Char) : Bool := c.isAlphanum || c == '_' || 0x80 ≤ c.toNat

/-- Form of the quoted token that a character opens by itself. -/
def opened? (l : Lexicon) (c : Char) : Option Quotes :=
  if c == '\x22' then some .doubleQuoted
  else if c == '\x27' then some .plain
  else if c == '[' && l.brackets then some .bracketed
  else none

/-- Form of the string that a word marks which stands right in front of it. -/
def marked? (l : Lexicon) : List Char → Option Quotes
  | ['N'] | ['n'] => some .national
  | ['E'] | ['e'] => if l.escapeStrings then some .escaped else none
  | _ => none

/-- Token that the first character of a token completes, and what follows. -/
def start (l : Lexicon) (c : Char) : List Token × Mode :=
  match l.opened? c with
  | some form => ([], .inside form [])
  | none =>
    if isWordChar c then ([], .word [c])
    else if Text.isBlank c then ([], .ground)
    else ([.symbol c], .ground)

/-- Tokens that one more character completes, and what follows. -/
def step (l : Lexicon) : Mode → Char → List Token × Mode
  | .ground, c => l.start c
  | .word text, c =>
    if isWordChar c then ([], .word (text ++ [c]))
    else if c == '\x27' then
      match l.marked? text with
      | some form => ([], .inside form [])
      | none => ([.word text], .inside .plain [])
    else (.word text :: (l.start c).1, (l.start c).2)
  | .inside form payload, c =>
    if c == form.closing then ([], .closing form payload)
    else if c == '\\' && l.hasEscapes form then ([], .escape form payload)
    else ([], .inside form (payload ++ [c]))
  | .escape form payload, c => ([], .inside form (payload ++ [c]))
  | .closing form payload, c =>
    if c == form.closing then ([], .inside form (payload ++ [c]))
    else (.quoted form payload :: (l.start c).1, (l.start c).2)

/-- Tokens that a text completes, and what follows. -/
def run (l : Lexicon) (m : Mode) : List Char → List Token × Mode
  | [] => ([], m)
  | c :: cs => ((l.step m c).1 ++ (l.run (l.step m c).2 cs).1, (l.run (l.step m c).2 cs).2)

end Lexicon

/-- Token that the end of the text completes. -/
def Mode.finish : Mode → List Token
  | .ground => []
  | .word text => [.word text]
  | .inside _ _ | .escape _ _ => [.unclosed]
  | .closing form payload => [.quoted form payload]

namespace Lexicon

variable {l : Lexicon}

/-- Tokens of a text. -/
def tokens (l : Lexicon) (s : String) : List Token :=
  (l.run .ground s.toList).1 ++ (l.run .ground s.toList).2.finish

/-- Brackets quote where the server says so. -/
example : tokens ⟨true, false, false⟩ "SELECT [a]]b] = N'it''s'" =
    [.word "SELECT".toList, .quoted .bracketed "a]b".toList, .symbol '=',
      .quoted .national "it's".toList] := rfl

theorem run_append (m : Mode) (s t : List Char) : l.run m (s ++ t) =
    ((l.run m s).1 ++ (l.run (l.run m s).2 t).1, (l.run (l.run m s).2 t).2) := by
  induction s generalizing m with
  | nil => rfl
  | cons c s ih => simp [run, ih]

/-! ### Quoted texts -/

/-- Inside a quoted token, a text in which the closing delimiter and the escape are written twice
reads as the text itself. -/
theorem run_doubled {form : Quotes} {isDoubled : Char → Bool}
    (h : ∀ c, isDoubled c = (c == form.closing || c == '\\' && l.hasEscapes form))
    (payload cs : List Char) :
    l.run (.inside form payload) (Quoting.doubled isDoubled cs) =
      ([], .inside form (payload ++ cs)) := by
  induction cs generalizing payload with
  | nil => simp [Quoting.doubled, run]
  | cons c cs ih =>
    have once : l.run (.inside form payload) (if isDoubled c then [c, c] else [c]) =
        ([], .inside form (payload ++ [c])) := by
      by_cases closes : c = form.closing
      · simp [h, closes, run, step]
      · by_cases escapes : (c == '\\' && l.hasEscapes form) = true
        · simp [h, closes, escapes, run, step]
        · simp only [Bool.not_eq_true] at escapes
          simp [h, closes, escapes, run, step]
    calc
      l.run (.inside form payload) (Quoting.doubled isDoubled (c :: cs)) =
          l.run (.inside form payload)
            ((if isDoubled c then [c, c] else [c]) ++ Quoting.doubled isDoubled cs) := rfl
      _ = ([], .inside form (payload ++ [c] ++ cs)) := by rw [run_append, once, ih, List.nil_append]
      _ = ([], .inside form (payload ++ c :: cs)) := by simp

/-- What opens a quoted token, and a text for it to hold, are read up to the delimiter at its end. -/
theorem run_enclosed {form : Quotes} {opening : String} {isDoubled : Char → Bool}
    (ho : l.run .ground opening.toList = ([], .inside form []))
    (h : ∀ c, isDoubled c = (c == form.closing || c == '\\' && l.hasEscapes form))
    (cs : List Char) :
    l.run .ground (Quoting.enclosed opening form.closing isDoubled cs).toList =
      ([], .closing form cs) := by
  have last : l.run (.inside form cs) [form.closing] = ([], .closing form cs) := by
    simp [run, step]
  simp only [Quoting.enclosed, String.toList_append, String.toList_ofList, run_append, ho,
    run_doubled h, List.nil_append, last]

end Lexicon

end SqlWright
