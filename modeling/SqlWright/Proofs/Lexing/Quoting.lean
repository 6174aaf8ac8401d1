import SqlWright.Proofs.Lexing.Lexer
import SqlWright.Spelling.OfDialect

/-!
# Quoted texts are read back

What each dialect quotes, its lexical rules read back as one token: the identifier itself, and the
string without its NUL characters. Whatever is written behind it is left as it stands
(`Dialect.next?_quoted`), unless it goes on with the delimiter.
-/

namespace SqlWright

namespace Lexicon

variable {l : Lexicon}

/-! ### Tokens one by one -/

/-- First token of a text that is read on from a mode, and what is left of the text behind it. A
symbol is read with the token, and any other character that completes a token is left. -/
def next? (l : Lexicon) : Mode → List Char → Option (Token × List Char)
  | m, [] => m.finish.head?.map (·, [])
  | m, c :: cs =>
    match (l.step m c).1 with
    | [] => l.next? (l.step m c).2 cs
    | token :: _ => some (token, if m = .ground then cs else c :: cs)

/-- At the start of a token a character completes nothing, or is a symbol. -/
theorem start_cases (c : Char) : (l.start c).1 = [] ∨ l.start c = ([.symbol c], .ground) := by
  unfold start
  split
  · exact .inl rfl
  · split_ifs
    · exact .inl rfl
    · exact .inl rfl
    · exact .inr rfl

/-- A character goes on with the token, or completes it and is read as at the start of one. -/
theorem step_cases (m : Mode) (c : Char) :
    (l.step m c).1 = [] ∨ l.step m c = (m.finish ++ (l.start c).1, (l.start c).2) := by
  cases m with
  | ground => exact .inr rfl
  | word text =>
    simp only [step]
    split
    · exact .inl rfl
    · split
      next quote =>
        obtain rfl : c = '\x27' := by simpa using quote
        split
        · exact .inl rfl
        · exact .inr rfl
      next => exact .inr rfl
  | inside form payload =>
    simp only [step]
    split_ifs
    · exact .inl rfl
    · exact .inl rfl
    · exact .inl rfl
  | escape form payload => exact .inl rfl
  | closing form payload =>
    simp only [step]
    split
    · exact .inl rfl
    · exact .inr rfl

/-- The tokens of a text are its first token and those of what that leaves. -/
theorem tokens_eq_next? (m : Mode) (cs : List Char) :
    (l.run m cs).1 ++ (l.run m cs).2.finish =
      match l.next? m cs with
      | some (token, rest) => token :: ((l.run .ground rest).1 ++ (l.run .ground rest).2.finish)
      | none => [] := by
  induction cs generalizing m with
  | nil => cases m <;> rfl
  | cons c cs ih =>
    obtain silent | complete := l.step_cases m c
    · simp only [next?, run, silent, List.nil_append, ih]
    · cases m with
      | ground =>
        obtain silent | symbol := l.start_cases c
        · simp only [next?, run, step, silent, List.nil_append, ih]
        · simp only [next?, run, step, symbol]
          rfl
      | _ =>
        simp only [next?, run, complete, Mode.finish]
        rfl

/-! ### Quoted texts -/

variable {form : Quotes} {payload cs rest : List Char}

/-- A quoted token is read up to its end, unless the text behind it goes on with the delimiter. -/
theorem next?_closing (h : rest.head? ≠ some form.closing) :
    l.next? (.closing form payload) rest = some (.quoted form payload, rest) := by
  cases rest with
  | nil => rfl
  | cons c rest =>
    have other : c ≠ form.closing := fun same ↦ h (congrArg some same)
    simp [next?, step, other]

theorem next?_append {m m' : Mode} (h : l.run m cs = ([], m')) (rest : List Char) :
    l.next? m (cs ++ rest) = l.next? m' rest := by
  induction cs generalizing m with
  | nil =>
    cases h
    rfl
  | cons c cs ih =>
    simp only [run, Prod.mk.injEq, List.append_eq_nil_iff] at h
    obtain ⟨⟨silent, others⟩, ends⟩ := h
    rw [List.cons_append, next?, silent]
    exact ih (Prod.ext others ends)

theorem run_doubleQuotes (name : String) :
    l.run .ground (Quoting.doubleQuotes name).toList =
      ([], .closing .doubleQuoted name.toList) := by
  have escapes (c : Char) : (c == '\x22') =
      (c == Quotes.doubleQuoted.closing || c == '\\' && l.hasEscapes .doubleQuoted) := by
    simp [Quotes.closing, hasEscapes]
  exact run_enclosed rfl escapes _

theorem run_brackets (h : l.brackets = true) (name : String) :
    l.run .ground (Quoting.brackets name).toList = ([], .closing .bracketed name.toList) := by
  have opens : l.run .ground "[".toList = ([], .inside .bracketed []) := by
    simp [run, step, start, opened?, h]
  have escapes (c : Char) : (c == ']') =
      (c == Quotes.bracketed.closing || c == '\\' && l.hasEscapes .bracketed) := by
    simp [Quotes.closing, hasEscapes]
  exact run_enclosed opens escapes _

theorem run_plainString (h : l.backslashes = false) (value : String) :
    l.run .ground (Quoting.plainString value).toList =
      ([], .closing .plain (Quoting.withoutNul value)) := by
  have escapes (c : Char) : (c == '\x27') =
      (c == Quotes.plain.closing || c == '\\' && l.hasEscapes .plain) := by
    simp [Quotes.closing, hasEscapes, h]
  exact run_enclosed rfl escapes _

theorem run_nationalString (h : l.backslashes = false) (value : String) :
    l.run .ground (Quoting.nationalString value).toList =
      ([], .closing .national (Quoting.withoutNul value)) := by
  have opens : l.run .ground ("N" ++ "'").toList = ([], .inside .national []) := by
    rw [String.toList_append]
    rfl
  have escapes (c : Char) : (c == '\x27') =
      (c == Quotes.national.closing || c == '\\' && l.hasEscapes .national) := by
    simp [Quotes.closing, hasEscapes, h]
  simp only [Quoting.nationalString, Quoting.plainString, Quoting.enclosed, ← String.append_assoc]
  exact run_enclosed opens escapes _

theorem run_backslashString (h : l.backslashes = true) (value : String) :
    l.run .ground (Quoting.backslashString value).toList =
      ([], .closing .plain (Quoting.withoutNul value)) := by
  have escapes (c : Char) : (c == '\x27' || c == '\\') =
      (c == Quotes.plain.closing || c == '\\' && l.hasEscapes .plain) := by
    simp [Quotes.closing, hasEscapes, h]
  exact run_enclosed rfl escapes _

theorem run_escapeString (h : l.escapeStrings = true) (value : String) :
    l.run .ground (Quoting.escapeString value).toList =
      ([], .closing .escaped (Quoting.withoutNul value)) := by
  have opens : l.run .ground ("E" ++ "'").toList = ([], .inside .escaped []) := by
    rw [String.toList_append]
    change l.run (.word ['E']) ['\x27'] = _
    have quote : isWordChar '\x27' = false := rfl
    simp [run, step, marked?, h, quote]
  have escapes (c : Char) : (c == '\x27' || c == '\\') =
      (c == Quotes.escaped.closing || c == '\\' && l.hasEscapes .escaped) := by
    simp [Quotes.closing, hasEscapes]
  simp only [Quoting.escapeString, Quoting.backslashString, Quoting.enclosed,
    ← String.append_assoc]
  exact run_enclosed opens escapes _

end Lexicon

/-! ### Identifiers and strings of the dialects -/

namespace Dialect

/-- Quotes of identifiers. -/
def identifierQuotes : Dialect → Quotes
  | sqlServer => .bracketed
  | postgreSql | oracle => .doubleQuoted

/-- Text of an identifier. -/
def quoted : Dialect → String → String
  | sqlServer => Quoting.brackets
  | postgreSql | oracle => Quoting.doubleQuotes

/-- Quotes of strings. PostgreSQL marks them from 8.1 on. -/
def stringQuotes : Dialect → Version → Quotes
  | postgreSql, v => if v.isSince ⟨8, 1⟩ then .escaped else .plain
  | sqlServer, _ => .national
  | oracle, _ => .plain

/-- Text of a string. -/
def quotedString : Dialect → Version → String → String
  | postgreSql, v => if v.isSince ⟨8, 1⟩ then Quoting.escapeString else Quoting.backslashString
  | sqlServer, _ => Quoting.nationalString
  | oracle, _ => Quoting.plainString

variable (d : Dialect) (v : Version)

theorem quoteIdentifier_eq (name : String) :
    (d.spelling v).quoteIdentifier name = .ok (d.quoted name) := by
  have rule : (d.spelling v).resolve .identifierQuoting (·.quoteIdentifier) = .ok d.quoted := by
    cases d with
    | postgreSql =>
      change (Spelling.PostgreSql.spelling v).resolve _ _ = _
      unfold Spelling.resolve Spelling.PostgreSql.spelling
      split_ifs <;> rfl
    | sqlServer =>
      change (Spelling.SqlServer.spelling v).resolve _ _ = _
      unfold Spelling.resolve Spelling.SqlServer.spelling
      split_ifs <;> rfl
    | oracle =>
      change (Spelling.Oracle.spelling v).resolve _ _ = _
      unfold Spelling.resolve Spelling.Oracle.spelling
      split_ifs <;> rfl
  rw [Spelling.quoteIdentifier, rule]
  rfl

theorem resolve_stringLiteral :
    (d.spelling v).resolve .stringLiteral (·.stringLiteral) = .ok (d.quotedString v) := by
  cases d with
  | postgreSql =>
    change (Spelling.PostgreSql.spelling v).resolve _ _ =
      .ok (if v.isSince ⟨8, 1⟩ then Quoting.escapeString else Quoting.backslashString)
    unfold Spelling.resolve Spelling.PostgreSql.spelling
    split_ifs <;> rfl
  | sqlServer =>
    change (Spelling.SqlServer.spelling v).resolve _ _ = _
    unfold Spelling.resolve Spelling.SqlServer.spelling
    split_ifs <;> rfl
  | oracle =>
    change (Spelling.Oracle.spelling v).resolve _ _ = _
    unfold Spelling.resolve Spelling.Oracle.spelling
    split_ifs <;> rfl

theorem stringLiteral_eq (value : String) :
    (d.spelling v).stringLiteral value = .ok (d.quotedString v value) := by
  rw [Spelling.stringLiteral, resolve_stringLiteral]
  rfl

/-- An identifier is one token. -/
theorem run_quoted (name : String) :
    (d.lexicon v).run .ground (d.quoted name).toList =
      ([], .closing d.identifierQuotes name.toList) := by
  cases d with
  | postgreSql | oracle => exact Lexicon.run_doubleQuotes name
  | sqlServer => exact Lexicon.run_brackets rfl name

/-- A string is one token. -/
theorem run_quotedString (value : String) :
    (d.lexicon v).run .ground (d.quotedString v value).toList =
      ([], .closing (d.stringQuotes v) (Quoting.withoutNul value)) := by
  cases d with
  | postgreSql =>
    by_cases marked : v.isSince ⟨8, 1⟩
    · simp only [quotedString, stringQuotes, marked, if_true]
      exact Lexicon.run_escapeString marked value
    · simp only [quotedString, stringQuotes, marked, Bool.false_eq_true, if_false]
      exact Lexicon.run_backslashString (by simp [lexicon, marked]) value
  | sqlServer => exact Lexicon.run_nationalString rfl value
  | oracle => exact Lexicon.run_plainString rfl value

/-- A backslash is an escape in the strings of PostgreSQL, of every version, and in no others. -/
theorem hasEscapes_stringQuotes :
    (d.lexicon v).hasEscapes (d.stringQuotes v) = decide (d = postgreSql) := by
  cases d with
  | postgreSql =>
    by_cases marked : v.isSince ⟨8, 1⟩
    · simp [stringQuotes, marked, Lexicon.hasEscapes]
    · simp [stringQuotes, marked, Lexicon.hasEscapes, lexicon]
  | sqlServer | oracle => rfl

/-- A quoted identifier is read back as one token that holds the name, and a string as one that
holds its text without NUL, whatever they hold; what stands behind them is left, unless it goes on
with the delimiter. -/
theorem next?_quoted (s : String) :
    (∃ text, (d.spelling v).quoteIdentifier s = .ok text ∧
      ∀ rest, rest.head? ≠ some d.identifierQuotes.closing →
        (d.lexicon v).next? .ground (text.toList ++ rest) =
          some (.quoted d.identifierQuotes s.toList, rest)) ∧
    (∃ text, (d.spelling v).stringLiteral s = .ok text ∧
      ∀ rest, rest.head? ≠ some (d.stringQuotes v).closing →
        (d.lexicon v).next? .ground (text.toList ++ rest) =
          some (.quoted (d.stringQuotes v) (Quoting.withoutNul s), rest)) ∧
    (d.lexicon v).hasEscapes (d.stringQuotes v) = decide (d = postgreSql) := by
  refine ⟨⟨_, d.quoteIdentifier_eq v s, fun rest other ↦ ?_⟩,
    ⟨_, d.stringLiteral_eq v s, fun rest other ↦ ?_⟩, d.hasEscapes_stringQuotes v⟩
  · rw [Lexicon.next?_append (d.run_quoted v s), Lexicon.next?_closing other]
  · rw [Lexicon.next?_append (d.run_quotedString v s), Lexicon.next?_closing other]

/-- A delimiter in a name neither ends it nor takes in what follows. -/
theorem next?_bracketed :
    ∃ text, (sqlServer.spelling ⟨10, 0⟩).quoteIdentifier "a]" = .ok text ∧
      (sqlServer.lexicon ⟨10, 0⟩).next? .ground (text.toList ++ ['[', ']']) =
        some (.quoted .bracketed ['a', ']'], ['[', ']']) := by
  obtain ⟨⟨text, written, reads⟩, -⟩ := next?_quoted sqlServer ⟨10, 0⟩ "a]"
  exact ⟨text, written, reads _ (by decide)⟩

end Dialect

end SqlWright
