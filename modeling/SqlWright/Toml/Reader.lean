import SqlWright.Toml.Quoted
import SqlWright.Toml.Table
import SqlWright.Toml.Word

/-!
# Reading TOML

A document is a sequence of lines: assignments, headers of tables, headers that
add a table to a list, comments. Its content is given as a JSON object.
-/

namespace SqlWright.Toml

/-- Reading of something at the front of a text, which may fail. -/
abbrev Reading := StateT (List Char) Option

/-- Dotted key: the keys on the way, and the last one. -/
structure Path where
  way : List String
  last : String

namespace Path

/-- All keys. -/
def keys (p : Path) : List String := p.way ++ [p.last]

/-- Path with a key in front. -/
def under (key : String) (p : Path) : Path := ⟨key :: p.way, p.last⟩

end Path

/-- Statement of a document. -/
inductive Statement where
  | assignment (path : Path) (value : Json)
  | header (path : Path)
  | listHeader (path : Path)

namespace Reading

/-- Blanks are passed over. -/
def blanks : Reading Unit := modify (·.dropWhile fun c ↦ c == ' ' || c == '\t')

/-- Whether the character is next, which is then read. -/
def accept (c : Char) : Reading Bool := fun cs ↦
  match cs with
  | d :: rest => if c = d then some (true, rest) else some (false, cs)
  | [] => some (false, [])

/-- Character that has to be next. -/
def expect (c : Char) : Reading Unit := do
  if ← accept c then pure () else failure

/-- Comment, if one is next, up to the end of the line. -/
def comment : Reading Unit := do
  if ← accept '#' then modify (·.dropWhile isPlain)

/-- Line breaks, blanks and comments are passed over, as many as `fuel`. -/
def lines : Nat → Reading Unit
  | 0 => pure ()
  | fuel + 1 => do
    blanks
    comment
    match afterBreak? (← get) with
    | some rest => do
      set rest
      lines fuel
    | none => pure ()

/-- All line breaks, blanks and comments are passed over. -/
def gap : Reading Unit := do lines ((← get).length + 1)

/-- Whether a character may stand in a key without quotes. -/
def isKeyChar (c : Char) : Bool := c.isAlphanum || c == '_' || c == '-'

/-- One key. -/
def key : Reading String := fun cs ↦
  match cs with
  | '\x22' :: _ | '\x27' :: _ =>
    if (cs.take 3).all (· == cs.headD 'x') ∧ 3 ≤ cs.length then none else string? cs
  | _ =>
    let word := cs.takeWhile isKeyChar
    if word.isEmpty then none else some (String.ofList word, cs.dropWhile isKeyChar)

/-- Keys with points between, at most as many as `fuel`. -/
def path : Nat → Reading Path
  | 0 => failure
  | fuel + 1 => do
    blanks
    let first ← key
    blanks
    if ← accept '.' then return (← path fuel).under first
    else return ⟨[], first⟩

/-- One more than the number of keys that a dotted key may have, and than the depth to which
arrays and inline tables may be nested. -/
def maxDepth : Nat := 80

/-- Dotted key. -/
def dottedKey : Reading Path := path (maxDepth - 1)

/-- Items up to the end of an array, which has begun; a comma may follow the last. -/
def items (item : Reading Json) : Nat → Reading (List Json)
  | 0 => failure
  | fuel + 1 => do
    gap
    if ← accept ']' then return []
    let first ← item
    gap
    if ← accept ',' then return first :: (← items item fuel)
    else do
      expect ']'
      return [first]

/-- Assignments up to the end of an inline table, of which at least one is left. -/
def assignments (item : Reading Json) : Nat → Reading (List (Path × Json))
  | 0 => failure
  | fuel + 1 => do
    let p ← dottedKey
    expect '='
    blanks
    let v ← item
    blanks
    if ← accept ',' then return (p, v) :: (← assignments item fuel)
    else do
      expect '\x7d'
      return [(p, v)]

/-- Table of some assignments. -/
def inlineTable? (entries : List (Path × Json)) : Option Table :=
  entries.foldlM (fun (t : Table) e ↦ t.assign e.2 e.1.last e.1.way true) []

/-- Value in which arrays and inline tables are nested less than `depth` deep. -/
def value : Nat → Reading Json
  | 0 => failure
  | depth + 1 => do
    let cs ← get
    let isNested := cs.head?.any fun c ↦ c == '[' || c == '\x7b'
    if isNested ∧ depth = 0 then failure
    match cs with
    | '\x22' :: _ | '\x27' :: _ => do
      let (s, rest) ← string? cs
      set rest
      return .ofString s
    | '[' :: rest => do
      set rest
      return .array (← items (value depth) (rest.length + 1))
    | '\x7b' :: rest => do
      set rest
      blanks
      if ← accept '\x7d' then return .object []
      let table ← inlineTable? (← assignments (value depth) (rest.length + 1))
      return table.toJson
    | _ => do
      let (word, rest) := takeWord cs
      set rest
      word? word

/-- Statement at the front of a line. -/
def statement : Reading Statement := do
  if ← accept '[' then
    if ← accept '[' then
      let p ← dottedKey
      expect ']'
      expect ']'
      return .listHeader p
    else
      let p ← dottedKey
      expect ']'
      return .header p
  else
    let p ← dottedKey
    expect '='
    blanks
    return .assignment p (← value maxDepth)

/-- Statements up to the end of the document; `fuel` bounds their number. -/
def statements : Nat → Reading (List Statement)
  | 0 => failure
  | fuel + 1 => do
    gap
    if (← get).isEmpty then return []
    let first ← statement
    blanks
    comment
    match ← get with
    | [] => return [first]
    | cs => do
      set (← afterBreak? cs)
      return first :: (← statements fuel)

end Reading

/-- What is known of a document so far: its root, and the table that assignments go to. -/
structure Progress where
  root : Table := []
  current : List String := []

/-- Progress by a statement. -/
def Progress.step (s : Progress) : Statement → Option Progress
  | .assignment p v => do
    return { s with root := ← s.root.update (Table.assign v p.last p.way true) s.current }
  | .header p => do return ⟨← s.root.update (Table.open? p.last) p.way, p.keys⟩
  | .listHeader p => do return ⟨← s.root.update (Table.extend? p.last) p.way, p.keys⟩

/-- Characters of a document without the mark of the byte order. -/
def content (s : String) : List Char :=
  match s.toList with
  | '\ufeff' :: cs => cs
  | cs => cs

/-- Object that has the content of a document. -/
def ofText? (s : String) : Option Json := do
  let cs := content s
  let (statements, _) ← (Reading.statements (cs.length + 1)).run cs
  let progress ← statements.foldlM Progress.step {}
  return progress.root.toJson

end SqlWright.Toml
