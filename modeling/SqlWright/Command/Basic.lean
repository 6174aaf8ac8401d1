import SqlWright.Command.Bindings
import SqlWright.Command.Chain
import SqlWright.Error
import SqlWright.Text.Numeral

/-!
# Commands

A command is a compiled statement: its chain, its parameters with the names they
have in the text, and the texts of placeholders that no execution binds. Its text
is rendered with the bindings of an execution. A command without a piece to settle
is frozen: it has one text.
-/

namespace SqlWright

/-- Compiled statement. -/
structure Command where
  chain : Chain
  parameters : List (Parameter × String)
  defaults : List (Placeholder × String) := []
  /-- Length in bytes of the text rendered last. -/
  lastLength : Nat := 0

/-- What decides the text of a chain: the bindings of an execution, and the texts of
placeholders that it leaves out. -/
structure Settled where
  bindings : Bindings
  defaults : List (Placeholder × String)

namespace Settled

/-- Text of a placeholder: the number of its type, else what is bound to it, else its
default. -/
def placeholder (s : Settled) (id : Placeholder) : Except Error String :=
  let number? := match id with
    | .typeId type => s.bindings.typeId? type
    | .key _ => none
  match number? with
  | some number => .ok (Text.ofInt number.toInt)
  | none =>
    match s.bindings.placeholder? id <|> s.defaults.lookup id with
    | some text => .ok text
    | none => .error (.placeholderNotSet id.text)

/-- Text of the test of some expressions against rows. A single expression needs no
parentheses. -/
def membership (expressions : List String) (rows : List (List String)) : String :=
  match expressions with
  | [e] => e ++ " IN (" ++ ", ".intercalate (rows.map String.join) ++ ")"
  | es =>
    "(" ++ ", ".intercalate es ++ ") IN (" ++
      ", ".intercalate (rows.map fun row ↦ "(" ++ ", ".intercalate row ++ ")") ++ ")"

mutual

/-- Text of a piece. A dynamic filter without rows is false. -/
def renderPiece (s : Settled) : Piece → Except Error String
  | .text text => .ok text
  | .placeholder id => s.placeholder id
  | .variant key main alternative =>
    if s.bindings.isAlternative key then renderChain s alternative else renderChain s main
  | .dynamicFilter id expressions =>
    match s.bindings.rows? id with
    | none => .error (.dynamicFilterNotSet id)
    | some rows =>
      if rows.isEmpty then .ok "(1 = 0)"
      else match rows.find? (·.length ≠ expressions.length) with
        | some row => .error (.filterRowWidth id expressions.length row.length)
        | none => do return membership (← renderAll s expressions) rows

/-- Text of a chain. -/
def renderChain (s : Settled) : List Piece → Except Error String
  | [] => .ok ""
  | p :: rest => do
    let text ← renderPiece s p
    return text ++ (← renderChain s rest)

/-- Texts of some chains. -/
def renderAll (s : Settled) : List (List Piece) → Except Error (List String)
  | [] => .ok []
  | c :: rest => do
    let text ← renderChain s c
    return text :: (← renderAll s rest)

end

end Settled

namespace Command

/-- Command of a chain and the names of its parameters. -/
def ofChain (chain : Chain) (parameters : List (Parameter × String)) : Command :=
  { chain := chain.normalized, parameters }

/-- Command with a text for a placeholder that an execution leaves out. -/
def withDefault (c : Command) (id : Placeholder) (text : String) : Command :=
  { c with defaults := (id, text) :: c.defaults }

/-- Text of a command that has the same text in every execution. -/
def frozen? (c : Command) : Option String :=
  match c.chain with
  | [] => some ""
  | [.text s] => some s
  | _ => none

/-- Whether the command has the same text in every execution. -/
def isFrozen (c : Command) : Bool := c.frozen?.isSome

/-- Text of the command in an execution. -/
def text (c : Command) (b : Bindings) : Except Error String :=
  match c.frozen? with
  | some s => .ok s
  | none => Settled.renderChain ⟨b, c.defaults⟩ c.chain

/-- Text of the command in an execution, and the command that knows the length of the text.
Nothing is noted of a frozen command, nor of a failure. -/
def render (c : Command) (b : Bindings) : Except Error String × Command :=
  match c.text b with
  | .ok s => (.ok s, if c.isFrozen then c else { c with lastLength := s.utf8ByteSize })
  | .error e => (.error e, c)

/-- Name of a parameter in the text. -/
def parameterName (c : Command) (p : Parameter) : Except Error String :=
  match c.parameters.reverse.find? (·.1.id == p.id) with
  | some (_, name) => .ok name
  | none => .error (.parameterNameNotFound p.hint)

end Command

end SqlWright
