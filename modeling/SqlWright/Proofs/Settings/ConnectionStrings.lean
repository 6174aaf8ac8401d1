import Mathlib.Data.List.Forall2
import SqlWright.Settings.Connection

/-!
# Connection strings read back

How the client library takes a connection string apart: blanks separate pairs of a keyword and a
value, blanks may stand around the equals sign, and a value with blanks is quoted. A backslash
makes the character after it literal. What a connection writes reads as its keywords with their
values (`Connection.read?_connectionString`), so that no value ends early or adds a keyword.
-/

namespace SqlWright

namespace ConnectionString

/-- White space: the space, and the controls from tab to carriage return. -/
def isSpace (c : Char) : Bool := c == ' ' || (9 ≤ c.toNat && c.toNat ≤ 13)

/-- What was read of the pair that is not complete. -/
inductive Mode where
  | between
  | keyword (key : List Char)
  /-- Blanks behind a keyword, where the equals sign has to follow. -/
  | unassigned (key : List Char)
  /-- Blanks behind an equals sign. -/
  | assigned (key : List Char)
  | plain (key value : List Char)
  /-- Behind a backslash outside quotes. -/
  | plainEscape (key value : List Char)
  | quoted (key value : List Char)
  /-- Behind a backslash inside quotes. -/
  | quotedEscape (key value : List Char)

/-- Keyword and value as texts. -/
def pair (key value : List Char) : String × String := (String.ofList key, String.ofList value)

/-- Pair that one more character completes, and what is read of the next one; none where no pair
can go on like this. -/
def step : Mode → Char → Option (List (String × String) × Mode)
  | .between, c =>
    if isSpace c then some ([], .between)
    else if c = '=' then none
    else some ([], .keyword [c])
  | .keyword key, c =>
    if c = '=' then some ([], .assigned key)
    else if isSpace c then some ([], .unassigned key)
    else some ([], .keyword (key ++ [c]))
  | .unassigned key, c =>
    if isSpace c then some ([], .unassigned key)
    else if c = '=' then some ([], .assigned key)
    else none
  | .assigned key, c =>
    if isSpace c then some ([], .assigned key)
    else if c = '\x27' then some ([], .quoted key [])
    else if c = '\\' then some ([], .plainEscape key [])
    else some ([], .plain key [c])
  | .plain key value, c =>
    if isSpace c then some ([pair key value], .between)
    else if c = '\\' then some ([], .plainEscape key value)
    else some ([], .plain key (value ++ [c]))
  | .plainEscape key value, c => some ([], .plain key (value ++ [c]))
  | .quoted key value, c =>
    if c = '\\' then some ([], .quotedEscape key value)
    else if c = '\x27' then some ([pair key value], .between)
    else some ([], .quoted key (value ++ [c]))
  | .quotedEscape key value, c => some ([], .quoted key (value ++ [c]))

/-- Pairs that a text completes, and what is read of the next one. -/
def run : Mode → List Char → Option (List (String × String) × Mode)
  | m, [] => some ([], m)
  | m, c :: cs => do
    let (done, next) ← step m c
    let (pairs, last) ← run next cs
    return (done ++ pairs, last)

/-- Pair that the end of the text completes. A keyword without an equals sign and a value whose
quotes are not closed are errors. -/
def finish : Mode → Option (List (String × String))
  | .between => some []
  | .assigned key => some [pair key []]
  | .plain key value | .plainEscape key value => some [pair key value]
  | .keyword _ | .unassigned _ | .quoted _ _ | .quotedEscape _ _ => none

/-- Pairs of a connection string. -/
def read? (s : String) : Option (List (String × String)) := do
  let (done, last) ← run .between s.toList
  return done ++ (← finish last)

/-! ### Texts one after the other -/

/-- A text is read from one mode to another and completes some pairs. -/
def Reads (m : Mode) (cs : List Char) (pairs : List (String × String)) (m' : Mode) : Prop :=
  run m cs = some (pairs, m')

variable {m m' m'' : Mode} {c : Char} {s t : List Char} {ps qs : List (String × String)}

theorem Reads.nil (m : Mode) : Reads m [] [] m := rfl

theorem Reads.cons (h : step m c = some (ps, m')) (ht : Reads m' t qs m'') :
    Reads m (c :: t) (ps ++ qs) m'' := by
  unfold Reads at ht
  simp only [Reads, run, h, ht, Option.bind_eq_bind, Option.bind_some]
  rfl

theorem Reads.append (hs : Reads m s ps m') (ht : Reads m' t qs m'') :
    Reads m (s ++ t) (ps ++ qs) m'' := by
  induction s generalizing m ps with
  | nil =>
    cases hs
    exact ht
  | cons c s ih =>
    simp only [Reads, run, Option.bind_eq_bind, Option.bind_eq_some_iff] at hs
    obtain ⟨⟨first, next⟩, hfirst, ⟨rest, last⟩, hrest, same⟩ := hs
    cases same
    rw [List.append_assoc]
    exact .cons hfirst (ih hrest)

/-! ### Parts of a pair -/

/-- A character that a keyword may have. -/
def isKeywordChar (c : Char) : Bool := !isSpace c && c != '='

theorem isKeywordChar_iff : isKeywordChar c ↔ isSpace c = false ∧ c ≠ '=' := by
  simp [isKeywordChar]

theorem reads_keyword (key cs : List Char) (h : ∀ c ∈ cs, isKeywordChar c) :
    Reads (.keyword key) cs [] (.keyword (key ++ cs)) := by
  induction cs generalizing key with
  | nil => simpa using Reads.nil _
  | cons c cs ih =>
    obtain ⟨hc, hcs⟩ := List.forall_mem_cons.1 h
    have next : step (.keyword key) c = some ([], .keyword (key ++ [c])) := by
      simp [step, isKeywordChar_iff.1 hc]
    simpa using Reads.cons next (ih (key ++ [c]) hcs)

/-- Whether a text is a keyword. -/
def isKeyword (key : List Char) : Bool := !key.isEmpty && key.all isKeywordChar

/-- A keyword and an equals sign. -/
theorem reads_assigned {key : List Char} (h : isKeyword key) :
    Reads .between (key ++ ['=']) [] (.assigned key) := by
  obtain ⟨hne, hall⟩ := (Bool.and_eq_true ..).mp h
  obtain ⟨c, cs, rfl⟩ := List.exists_cons_of_ne_nil (by simpa using hne)
  obtain ⟨hc, hcs⟩ := List.forall_mem_cons.1 (List.all_eq_true.1 hall)
  have first : step .between c = some ([], .keyword [c]) := by
    simp [step, isKeywordChar_iff.1 hc]
  have sign : step (.keyword (c :: cs)) '=' = some ([], .assigned (c :: cs)) := rfl
  exact (Reads.cons first (reads_keyword [c] cs hcs)).append (.cons sign (.nil _))

/-- A character that stands for itself in a value without quotes. -/
def isPlainChar (c : Char) : Bool := !isSpace c && c != '\\' && c != '\x27'

theorem isPlainChar_iff : isPlainChar c ↔ isSpace c = false ∧ c ≠ '\\' ∧ c ≠ '\x27' := by
  simp [isPlainChar, and_assoc]

theorem reads_plain (key value cs : List Char) (h : ∀ c ∈ cs, isPlainChar c) :
    Reads (.plain key value) cs [] (.plain key (value ++ cs)) := by
  induction cs generalizing value with
  | nil => simpa using Reads.nil _
  | cons c cs ih =>
    obtain ⟨hc, hcs⟩ := List.forall_mem_cons.1 h
    have next : step (.plain key value) c = some ([], .plain key (value ++ [c])) := by
      simp [step, isPlainChar_iff.1 hc]
    simpa using Reads.cons next (ih (value ++ [c]) hcs)

/-- Whether a value needs no quotes. -/
def isPlain (value : List Char) : Bool := !value.isEmpty && value.all isPlainChar

/-- An escaped text inside quotes is read as the text itself. -/
theorem reads_escaped (key value cs : List Char) :
    Reads (.quoted key value) (Connection.escaped cs) [] (.quoted key (value ++ cs)) := by
  induction cs generalizing value with
  | nil => simpa [Connection.escaped] using Reads.nil _
  | cons c cs ih =>
    have once : Reads (.quoted key value) (if c = '\\' ∨ c = '\x27' then ['\\', c] else [c]) []
        (.quoted key (value ++ [c])) := by
      split
      · have escape : step (.quoted key value) '\\' = some ([], .quotedEscape key value) := rfl
        have literal : step (.quotedEscape key value) c = some ([], .quoted key (value ++ [c])) :=
          rfl
        exact .cons escape (.cons literal (.nil _))
      · next plain =>
        rw [not_or] at plain
        have next : step (.quoted key value) c = some ([], .quoted key (value ++ [c])) := by
          simp [step, plain]
        exact .cons next (.nil _)
    simpa [Connection.escaped] using once.append (ih (value ++ [c]))

/-! ### Pairs one after the other -/

/-- A text reads as some pairs, whether it ends there or a blank follows. -/
def Yields (s : List Char) (pairs : List (String × String)) : Prop :=
  ∃ done last m, Reads .between s done m ∧ finish m = some last ∧
    step m ' ' = some (last, .between) ∧ done ++ last = pairs

theorem Yields.read? {s : String} (h : Yields s.toList ps) : read? s = some ps := by
  obtain ⟨done, last, m, reads, finished, -, rfl⟩ := h
  unfold Reads at reads
  simp only [ConnectionString.read?, reads, finished, Option.bind_eq_bind, Option.bind_some]
  rfl

/-- A blank separates two texts. -/
theorem Yields.append (hs : Yields s ps) (ht : Yields t qs) :
    Yields (s ++ ' ' :: t) (ps ++ qs) := by
  obtain ⟨done, last, m, reads, -, blank, rfl⟩ := hs
  obtain ⟨done', last', m', reads', finished', blank', rfl⟩ := ht
  refine ⟨done ++ (last ++ done'), last', m', reads.append (.cons blank reads'), finished', blank',
    ?_⟩
  simp only [List.append_assoc]

/-- Texts of a pair each, with blanks between them. -/
theorem yields_intercalate {texts : List String}
    (h : List.Forall₂ (fun text pair ↦ Yields text.toList [pair]) texts ps) :
    Yields (" ".intercalate texts).toList ps := by
  induction h with
  | nil => exact ⟨[], [], .between, .nil _, rfl, rfl, rfl⟩
  | @cons text pair texts pairs first others ih =>
    cases texts with
    | nil =>
      cases others
      simpa using first
    | cons next texts =>
      rw [String.intercalate_cons_cons]
      simpa using first.append ih

/-- A keyword with a quoted value. -/
theorem yields_quoted {key : String} (h : isKeyword key.toList) (value : String) :
    Yields (key ++ "=" ++ Connection.quotedValue value).toList [(key, value)] := by
  have opening : step (.assigned key.toList) '\x27' = some ([], .quoted key.toList []) := rfl
  have closing : step (.quoted key.toList value.toList) '\x27' =
      some ([(key, value)], .between) := by simp [step, pair]
  have reads := (reads_assigned h).append
    (.cons opening ((reads_escaped key.toList [] value.toList).append (.cons closing (.nil _))))
  refine ⟨[(key, value)], [], .between, ?_, rfl, rfl, rfl⟩
  simpa [Connection.quotedValue] using reads

/-- A keyword with a value that needs no quotes. -/
theorem yields_plain {key value : String} (h : isKeyword key.toList)
    (plain : isPlain value.toList) : Yields (key ++ "=" ++ value).toList [(key, value)] := by
  obtain ⟨hne, hall⟩ := (Bool.and_eq_true ..).mp plain
  obtain ⟨c, cs, hcs⟩ := List.exists_cons_of_ne_nil (l := value.toList) (by simpa using hne)
  obtain ⟨hc, rest⟩ := List.forall_mem_cons.1 (hcs ▸ List.all_eq_true.1 hall)
  have first : step (.assigned key.toList) c = some ([], .plain key.toList [c]) := by
    simp [step, isPlainChar_iff.1 hc]
  have reads := (reads_assigned h).append (.cons first (reads_plain key.toList [c] cs rest))
  have whole : pair key.toList value.toList = (key, value) := by simp [pair]
  refine ⟨[], [(key, value)], .plain key.toList value.toList, ?_, ?_, ?_, rfl⟩
  · simpa [hcs] using reads
  · rw [finish, whole]
  · rw [← whole]
    rfl

end ConnectionString

namespace Connection

open ConnectionString

/-- Escaping is to double every backslash and then to put one in front of every quote. -/
theorem escaped_eq_replaced (cs : List Char) :
    escaped cs = (cs.flatMap fun c ↦ if c = '\\' then ['\\', '\\'] else [c]).flatMap fun c ↦
      if c = '\x27' then ['\\', c] else [c] := by
  rw [List.flatMap_assoc, escaped]
  refine List.flatMap_congr fun c _ ↦ ?_
  by_cases backslash : c = '\\'
  · subst backslash
    rfl
  · simp [backslash]

theorem isPlainChar_of_isDigit {c : Char} (h : c.isDigit = true) : isPlainChar c = true := by
  simp only [Char.isDigit, Bool.and_eq_true, decide_eq_true_eq] at h
  have low : 48 ≤ c.toNat := h.1
  have high : c.toNat ≤ 57 := h.2
  have other {d : Char} (hd : d.toNat < 48 ∨ 57 < d.toNat) : c ≠ d := by
    rintro rfl
    omega
  simp [isPlainChar, isSpace, other, Nat.not_le.2 (Nat.lt_of_lt_of_le (by decide : 13 < 48) low)]

theorem isPlain_repr (n : Nat) : isPlain n.repr.toList := by
  have digits : n.repr.toList.all isPlainChar := by
    rw [Nat.toList_repr, List.all_eq_true]
    exact fun c hc ↦ isPlainChar_of_isDigit
      (Nat.isDigit_of_mem_toDigits (by decide) (by decide) hc)
  simpa [isPlain] using digits

theorem isPlain_keyword (m : TlsMode) : isPlain m.keyword.toList := by
  cases m <;> decide

/-- A connection string is taken apart into the keywords of the connection, in order, with the
host, the database, the user and the password as they are, whatever characters they hold. -/
theorem read?_connectionString (c : Connection) :
    read? c.connectionString = some
      [("host", c.host), ("port", c.port.toNat.repr), ("dbname", c.database),
       ("user", c.username), ("password", c.password), ("sslmode", c.tlsMode.keyword),
       ("connect_timeout", "10")] := by
  have texts : List.Forall₂ (fun text pair ↦ Yields text.toList [pair])
      ["host" ++ "=" ++ quotedValue c.host, "port" ++ "=" ++ c.port.toNat.repr,
       "dbname" ++ "=" ++ quotedValue c.database, "user" ++ "=" ++ quotedValue c.username,
       "password" ++ "=" ++ quotedValue c.password, "sslmode" ++ "=" ++ c.tlsMode.keyword,
       "connect_timeout" ++ "=" ++ "10"] _ :=
    .cons (yields_quoted (by decide) c.host) <|
    .cons (yields_plain (by decide) (isPlain_repr _)) <|
    .cons (yields_quoted (by decide) c.database) <|
    .cons (yields_quoted (by decide) c.username) <|
    .cons (yields_quoted (by decide) c.password) <|
    .cons (yields_plain (by decide) (isPlain_keyword _)) <|
    .cons (yields_plain (by decide) (by decide)) .nil
  exact (yields_intercalate texts).read?

-- a quote that is not escaped ends the value, and what follows it is a keyword without a value
example : read? "password='it's' sslmode=disable" = none := by decide

end Connection

end SqlWright
