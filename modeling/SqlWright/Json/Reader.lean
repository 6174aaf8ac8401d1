import SqlWright.Json.Token

/-!
# Reading JSON

The grammar of JSON over its tokens. A text holds one value and nothing after it.
-/

namespace SqlWright.Json

mutual

/-- Value at the front, and the tokens after it; `fuel` bounds the number of steps. -/
def valueFrom : Nat → List Token → Option (Json × List Token)
  | _ + 1, .scalar value :: rest => some (value, rest)
  | _ + 1, .openArray :: .closeArray :: rest => some (.array [], rest)
  | fuel + 1, .openArray :: rest => do
    let (items, rest) ← itemsFrom fuel rest
    return (.array items, rest)
  | _ + 1, .openObject :: .closeObject :: rest => some (.object [], rest)
  | fuel + 1, .openObject :: rest => do
    let (members, rest) ← membersFrom fuel rest
    return (.object members, rest)
  | _, _ => none

/-- One or more items up to the end of the array. -/
def itemsFrom : Nat → List Token → Option (List Json × List Token)
  | 0, _ => none
  | fuel + 1, tokens => do
    let (item, rest) ← valueFrom fuel tokens
    match rest with
    | .comma :: rest =>
      let (items, rest) ← itemsFrom fuel rest
      return (item :: items, rest)
    | .closeArray :: rest => return ([item], rest)
    | _ => none

/-- One or more members up to the end of the object. -/
def membersFrom : Nat → List Token → Option (List (Option String × Json) × List Token)
  | fuel + 1, .scalar (.string key) :: .colon :: tokens => do
    let (value, rest) ← valueFrom fuel tokens
    match rest with
    | .comma :: rest =>
      let (members, rest) ← membersFrom fuel rest
      return ((key, value) :: members, rest)
    | .closeObject :: rest => return ([(key, value)], rest)
    | _ => none
  | _, _ => none

end

/-- Value of a list of tokens. Each token takes at most two steps. -/
def ofTokens? (tokens : List Token) : Option Json :=
  match valueFrom (2 * tokens.length) tokens with
  | some (value, []) => some value
  | _ => none

/-- Value that a text holds. -/
def ofText? (s : String) : Option Json := (tokens? 0 s.toList).bind ofTokens?

end SqlWright.Json
