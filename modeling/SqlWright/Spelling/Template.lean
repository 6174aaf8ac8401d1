import SqlWright.Text.Numeral

/-!
# Templates

A template says how a function or an operator is put around its arguments. It is
taken apart into texts and arguments once the number of arguments is known.
-/

namespace SqlWright

/-- Shape of a function or an operator. -/
inductive Template where
  /-- Name with the arguments in parentheses. -/
  | call (name : String)
  /-- Arguments in parentheses with an operator between any two. -/
  | separated (operator : String)
  /-- Text with slots, which are numbers of arguments in braces. -/
  | pattern (text : String)
  deriving DecidableEq

/-- Text or argument of a template that was taken apart. -/
inductive TemplatePart where
  | text (text : String)
  | arg (index : Nat)
  deriving DecidableEq

namespace Template

/-- Arguments with a text between any two. -/
def separatedArgs (separator : String) (arity : Nat) : List TemplatePart :=
  List.intersperse (.text separator) ((List.range arity).map .arg)

/-- Number of the argument that a slot names, and the length of the slot, of the characters
after an opening brace. A slot is closed by the next closing brace, and names an argument
there is. -/
def slot? (arity : Nat) (cs : List Char) : Option (Nat × Nat) :=
  let inner := cs.takeWhile (· ≠ '\x7d')
  if inner.length < cs.length then
    (Text.unsigned? arity inner).map fun i ↦ (i, inner.length + 1)
  else none

/-- Character or slot of a pattern. -/
inductive Symbol where
  | char (c : Char)
  | slot (index : Nat)
  deriving DecidableEq

/-- Symbols of a pattern, of which the first `skip` characters belong to a slot already read.
A brace that opens no slot stands for itself. -/
def symbols (arity : Nat) : Nat → List Char → List Symbol
  | _, [] => []
  | skip + 1, _ :: cs => symbols arity skip cs
  | 0, c :: cs =>
    if c = '\x7b' then
      match slot? arity cs with
      | some (i, length) => .slot i :: symbols arity length cs
      | none => .char c :: symbols arity 0 cs
    else .char c :: symbols arity 0 cs

/-- Parts of a sequence of symbols, in which neighbouring characters make one text. -/
def joined : List Symbol → List TemplatePart
  | [] => []
  | .slot i :: rest => .arg i :: joined rest
  | .char c :: rest =>
    match joined rest with
    | .text s :: parts => .text (String.singleton c ++ s) :: parts
    | parts => .text (String.singleton c) :: parts

/-- Parts of a template for a number of arguments. -/
def parts (arity : Nat) : Template → List TemplatePart
  | call name => .text (name ++ "(") :: separatedArgs ", " arity ++ [.text ")"]
  | separated operator =>
    .text "(" :: separatedArgs (" " ++ operator ++ " ") arity ++ [.text ")"]
  | pattern text => joined (symbols arity 0 text.toList)

/-- Text of a template with arguments. -/
def apply (args : List String) (t : Template) : String :=
  String.join ((t.parts args.length).map fun
    | .text s => s
    | .arg i => args[i]?.getD "")

end Template

end SqlWright
