import SqlWright.Dom.Parameter

/-!
# Chains

The text of a command before it is rendered: pieces of text between pieces that
each execution settles anew. A normal chain has no empty text and no two texts
side by side.
-/

namespace SqlWright

/-- Piece of a command's text. -/
inductive Piece where
  | text (text : String)
  | placeholder (id : Placeholder)
  /-- The main chain, or the alternative where the key is selected. -/
  | variant (key : VariantKey) (main alternative : List Piece)
  /-- Test of the expressions against the rows that are bound to the filter. -/
  | dynamicFilter (id : String) (expressions : List (List Piece))

/-- Sequence of pieces. -/
abbrev Chain := List Piece

namespace Chain

/-- Chain of a text; none of the empty text. -/
def ofText (s : String) : Chain := if s = "" then [] else [.text s]

/-- Normal chain of the text `pending` and the pieces after it. -/
def normalizedAfter (pending : String) : Chain → Chain
  | [] => ofText pending
  | .text s :: rest => normalizedAfter (pending ++ s) rest
  | p :: rest => ofText pending ++ p :: normalizedAfter "" rest

/-- Normal chain of the same pieces: neighbouring texts are one text, and empty texts are
gone. -/
def normalized (c : Chain) : Chain := normalizedAfter "" c

/-- Chain with one more piece: a text goes on with a text at the end, and an empty text is left
out. -/
def push (c : Chain) : Piece → Chain
  | .text s =>
    if s = "" then c
    else match c.getLast? with
      | some (.text last) => c.dropLast ++ [.text (last ++ s)]
      | _ => c ++ [.text s]
  | p => c ++ [p]

/-- Chain with the pieces of another pushed to it one after the other. -/
def append (c other : Chain) : Chain := other.foldl push c

/-- Chain with a text pushed to it. -/
def pushText (c : Chain) (s : String) : Chain := c.push (.text s)

end Chain

end SqlWright
