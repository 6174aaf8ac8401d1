import SqlWright.Json.Reader
import SqlWright.Proofs.Json.Scalars

/-!
# Values of JSON texts

A value whose texts are strings, and whose numbers are finite and have no exponent as integers, is
read back from its text: the text is cut into the tokens of the value, and of these the grammar
makes the value again.
-/

namespace SqlWright.Json

/-- Texts are strings. Numbers are finite, and integers have no exponent. -/
inductive IsPlain : Json → Prop where
  | null : IsPlain null
  | bool (b : Bool) : IsPlain (bool b)
  | number {n : JsonNumber} : (n.integral → n.exponent = 0) → n.binary64.isFinite →
    IsPlain (number n)
  | string (s : String) : IsPlain (string (some s))
  | array {items : List Json} : (∀ j ∈ items, IsPlain j) → IsPlain (array items)
  | object {members : List (Option String × Json)} : (∀ m ∈ members, m.1.isSome) →
    (∀ m ∈ members, IsPlain m.2) → IsPlain (object members)

mutual

/-- Tokens of a value. -/
def tokens : Json → List Token
  | array [] => [.openArray, .closeArray]
  | array (j :: rest) => .openArray :: (tokens j ++ itemTokens rest)
  | object [] => [.openObject, .closeObject]
  | object ((key, j) :: rest) =>
    .openObject :: .scalar (.string key) :: .colon :: (tokens j ++ memberTokens rest)
  | j => [.scalar j]

/-- Tokens of the items after the first, and of the end of the array. -/
def itemTokens : List Json → List Token
  | [] => [.closeArray]
  | j :: rest => .comma :: (tokens j ++ itemTokens rest)

/-- Tokens of the members after the first, and of the end of the object. -/
def memberTokens : List (Option String × Json) → List Token
  | [] => [.closeObject]
  | (key, j) :: rest =>
    .comma :: .scalar (.string key) :: .colon :: (tokens j ++ memberTokens rest)

end

/-! ### From characters to tokens -/

variable {text rest : List Char}

theorem tokens?_skip (text rest : List Char) :
    tokens? text.length (text ++ rest) = tokens? 0 rest := by
  induction text with
  | nil => rfl
  | cons c text ih => exact ih

/-- A token is cut off, and the text after it is read on its own. -/
theorem tokens?_append {t : Token} (h : token? (text ++ rest) = some (t, text.length))
    (hs : ∀ c ∈ text.head?, isSpace c = false) (hne : text ≠ []) :
    tokens? 0 (text ++ rest) = (tokens? 0 rest).map (t :: ·) := by
  obtain ⟨c, text, rfl⟩ := List.exists_cons_of_ne_nil hne
  rw [List.cons_append] at h ⊢
  rw [tokens?, if_neg (by simp [hs c rfl]), h]
  simp only [List.length_cons, Nat.add_sub_cancel, Option.bind_eq_bind, Option.bind_some,
    tokens?_skip]
  cases tokens? 0 rest <;> rfl

/-- Characters are cut into tokens, whatever follows them that has a property. -/
def Cuts (P : List Char → Prop) (text : List Char) (ts : List Token) : Prop :=
  ∀ rest, P rest → tokens? 0 (text ++ rest) = (tokens? 0 rest).map (ts ++ ·)

/-- Anything may follow. -/
def Anything (_ : List Char) : Prop := True

variable {P Q : List Char → Prop} {a b : List Char} {ts us : List Token}

theorem Cuts.append (h : Cuts P a ts) (h' : Cuts Q b us) (leads : ∀ rest, Q rest → P (b ++ rest)) :
    Cuts Q (a ++ b) (ts ++ us) := by
  intro rest hr
  rw [List.append_assoc, h _ (leads rest hr), h' rest hr, Option.map_map]
  congr 1
  funext vs
  exact (List.append_assoc ts us vs).symm

theorem Cuts.cons {c : Char} {t : Token} (h : Cuts Anything [c] [t]) (h' : Cuts Q b us) :
    Cuts Q (c :: b) (t :: us) := h.append h' fun _ _ ↦ trivial

theorem Cuts.mono (h : Cuts P a ts) (hPQ : ∀ rest, Q rest → P rest) : Cuts Q a ts :=
  fun rest hr ↦ h rest (hPQ rest hr)

/-- A bracket, a comma or a colon is a token. -/
theorem cuts_mark {c : Char} {t : Token} (h : ∀ rest, token? (c :: rest) = some (t, 1))
    (hs : isSpace c = false) : Cuts Anything [c] [t] :=
  fun rest _ ↦ tokens?_append (h rest) (by simpa using hs) (by simp)

theorem cuts_stringText (s : String) :
    Cuts Anything (stringText s) [.scalar (.string (some s))] :=
  fun rest _ ↦ tokens?_append (token?_stringText s rest) (by simp [stringText]; rfl)
    (by simp [stringText])

theorem cuts_numberText {n : JsonNumber} (h : n.integral → n.exponent = 0) :
    Cuts LeavesNumber (numberText n) [.scalar (.number n)] := by
  intro rest hr
  obtain ⟨c, cs, text, first⟩ := exists_numberText h
  refine tokens?_append (token?_numberText h hr) ?_ (by simp [text])
  rw [text]
  rintro _ ⟨⟩
  cases space : isSpace c with
  | false => rfl
  | true =>
    simp only [isSpace, Bool.or_eq_true, beq_iff_eq] at space
    rcases space with ((rfl | rfl) | rfl) | rfl <;> exact absurd first (by decide)

theorem cuts_word {c : Char} {cs : List Char} {j : Json}
    (h : ∀ rest, token? (c :: (cs ++ rest)) = some (.scalar j, cs.length + 1))
    (hs : isSpace c = false) : Cuts Anything (c :: cs) [.scalar j] :=
  fun rest _ ↦ tokens?_append (h rest) (by simpa using hs) (by simp)

theorem leavesNumber_of_head {c : Char} (h : c = ',' ∨ c = ']' ∨ c = '\x7d') (rest : List Char) :
    LeavesNumber (c :: rest) := by
  rcases h with rfl | rfl | rfl <;> exact ⟨by simp [LeavesDigits], by simp, by simp⟩

/-- The items after the first are cut one after the other. -/
theorem cuts_items {items : List Json}
    (h : ∀ j ∈ items, Cuts LeavesNumber (characters j) (tokens j)) :
    Cuts Anything (itemsAfter items) (itemTokens items) ∧
      ∀ rest, LeavesNumber (itemsAfter items ++ rest) := by
  induction items with
  | nil =>
    exact ⟨cuts_mark (fun _ ↦ rfl) rfl, fun rest ↦ leavesNumber_of_head (.inr (.inl rfl)) rest⟩
  | cons j items ih =>
    obtain ⟨rest, leaves⟩ := ih fun j' hj ↦ h j' (List.mem_cons_of_mem _ hj)
    have comma : Cuts Anything [','] [.comma] := cuts_mark (fun _ ↦ rfl) rfl
    constructor
    · exact comma.cons ((h j List.mem_cons_self).append rest fun more _ ↦ leaves more)
    · exact fun more ↦ leavesNumber_of_head (.inl rfl) _

/-- A key, a colon and a value are cut one after the other. -/
theorem cuts_member (key : String) {j : Json} {b : List Char} {us : List Token}
    (h : Cuts LeavesNumber (characters j) (tokens j)) (h' : Cuts Anything b us)
    (leaves : ∀ rest, LeavesNumber (b ++ rest)) :
    Cuts Anything (stringText key ++ ':' :: (characters j ++ b))
      (.scalar (.string (some key)) :: .colon :: (tokens j ++ us)) := by
  have colon : Cuts Anything [':'] [.colon] := cuts_mark (fun _ ↦ rfl) rfl
  exact (cuts_stringText key).append (colon.cons (h.append h' fun more _ ↦ leaves more))
    fun _ _ ↦ trivial

/-- The members after the first are cut one after the other. -/
theorem cuts_members {members : List (Option String × Json)} (keys : ∀ m ∈ members, m.1.isSome)
    (h : ∀ m ∈ members, Cuts LeavesNumber (characters m.2) (tokens m.2)) :
    Cuts Anything (membersAfter members) (memberTokens members) ∧
      ∀ rest, LeavesNumber (membersAfter members ++ rest) := by
  induction members with
  | nil =>
    exact ⟨cuts_mark (fun _ ↦ rfl) rfl, fun rest ↦ leavesNumber_of_head (.inr (.inr rfl)) rest⟩
  | cons m members ih =>
    obtain ⟨key, j⟩ := m
    obtain ⟨key, rfl⟩ := Option.isSome_iff_exists.1 (keys _ List.mem_cons_self)
    obtain ⟨rest, leaves⟩ := ih (fun m hm ↦ keys m (List.mem_cons_of_mem _ hm))
      fun m hm ↦ h m (List.mem_cons_of_mem _ hm)
    have comma : Cuts Anything [','] [.comma] := cuts_mark (fun _ ↦ rfl) rfl
    constructor
    · exact comma.cons (cuts_member key (h _ List.mem_cons_self) rest leaves)
    · exact fun more ↦ leavesNumber_of_head (.inl rfl) _

/-- The text of a plain value is cut into its tokens. -/
theorem IsPlain.cuts {j : Json} (h : j.IsPlain) : Cuts LeavesNumber (characters j) (tokens j) := by
  have array : Cuts Anything ['['] [.openArray] := cuts_mark (fun _ ↦ rfl) rfl
  have object : Cuts Anything ['\x7b'] [.openObject] := cuts_mark (fun _ ↦ rfl) rfl
  induction h with
  | null =>
    have word : Cuts Anything ['n', 'u', 'l', 'l'] [.scalar .null] := cuts_word (fun _ ↦ rfl) rfl
    exact word.mono fun _ _ ↦ trivial
  | bool b =>
    cases b with
    | true =>
      have word : Cuts Anything ['t', 'r', 'u', 'e'] [.scalar (.bool true)] :=
        cuts_word (fun _ ↦ rfl) rfl
      exact word.mono fun _ _ ↦ trivial
    | false =>
      have word : Cuts Anything ['f', 'a', 'l', 's', 'e'] [.scalar (.bool false)] :=
        cuts_word (fun _ ↦ rfl) rfl
      exact word.mono fun _ _ ↦ trivial
  | number plain _ => exact cuts_numberText plain
  | string s => exact (cuts_stringText s).mono fun _ _ ↦ trivial
  | @array items _ ih =>
    cases items with
    | nil =>
      have closing : Cuts Anything [']'] [.closeArray] := cuts_mark (fun _ ↦ rfl) rfl
      exact (array.cons closing).mono fun _ _ ↦ trivial
    | cons j items =>
      obtain ⟨rest, leaves⟩ := cuts_items fun j' hj ↦ ih j' (List.mem_cons_of_mem _ hj)
      exact (array.cons ((ih j List.mem_cons_self).append rest fun more _ ↦ leaves more)).mono
        fun _ _ ↦ trivial
  | @object members keys _ ih =>
    cases members with
    | nil =>
      have closing : Cuts Anything ['\x7d'] [.closeObject] := cuts_mark (fun _ ↦ rfl) rfl
      exact (object.cons closing).mono fun _ _ ↦ trivial
    | cons m members =>
      obtain ⟨key, j⟩ := m
      obtain ⟨key, rfl⟩ := Option.isSome_iff_exists.1 (keys _ List.mem_cons_self)
      obtain ⟨rest, leaves⟩ := cuts_members (fun m hm ↦ keys m (List.mem_cons_of_mem _ hm))
        fun m hm ↦ ih m (List.mem_cons_of_mem _ hm)
      exact (object.cons (cuts_member key (ih _ List.mem_cons_self) rest leaves)).mono
        fun _ _ ↦ trivial

/-! ### From tokens to values -/

/-- The tokens are read as the value, with two steps for each. -/
def Reads (ts : List Token) (j : Json) : Prop :=
  ∀ fuel more, 2 * ts.length ≤ fuel → valueFrom fuel (ts ++ more) = some (j, more)

theorem tokens_ne_closing (j : Json) (more : List Token) :
    ∃ t ts, tokens j ++ more = t :: ts ∧ t ≠ .closeArray ∧ t ≠ .closeObject := by
  cases j with
  | null | bool | number | string => exact ⟨_, _, rfl, nofun, nofun⟩
  | array items => cases items <;> exact ⟨_, _, rfl, nofun, nofun⟩
  | object members => cases members <;> exact ⟨_, _, rfl, nofun, nofun⟩

theorem itemsFrom_itemTokens {j : Json} {items : List Json} (hj : Reads (tokens j) j)
    (h : ∀ j' ∈ items, Reads (tokens j') j') (fuel : Nat) (more : List Token)
    (enough : 2 * (tokens j ++ itemTokens items).length < fuel + 1) :
    itemsFrom (fuel + 1) (tokens j ++ (itemTokens items ++ more)) = some (j :: items, more) := by
  induction items generalizing j fuel with
  | nil =>
    rw [itemsFrom, hj fuel _ (by simp at enough; omega)]
    rfl
  | cons j' items ih =>
    simp only [itemTokens, List.length_append, List.length_cons] at enough
    obtain ⟨fuel, rfl⟩ : ∃ k, fuel = k + 1 := ⟨fuel - 1, by omega⟩
    have rest := ih (h j' List.mem_cons_self) (fun i hi ↦ h i (List.mem_cons_of_mem _ hi)) fuel
      (by simp only [List.length_append]; omega)
    rw [itemsFrom, hj (fuel + 1) _ (by omega)]
    simp only [itemTokens, List.cons_append, List.append_assoc, Option.bind_eq_bind,
      Option.bind_some, rest]
    rfl

theorem membersFrom_memberTokens (key : Option String) {j : Json}
    {members : List (Option String × Json)} (hj : Reads (tokens j) j)
    (h : ∀ m ∈ members, Reads (tokens m.2) m.2) (fuel : Nat) (more : List Token)
    (enough : 2 * (tokens j ++ memberTokens members).length < fuel + 1) :
    membersFrom (fuel + 1)
        (.scalar (.string key) :: .colon :: (tokens j ++ (memberTokens members ++ more))) =
      some ((key, j) :: members, more) := by
  induction members generalizing key j fuel with
  | nil =>
    rw [membersFrom, hj fuel _ (by simp at enough; omega)]
    rfl
  | cons m members ih =>
    obtain ⟨key', j'⟩ := m
    simp only [memberTokens, List.length_append, List.length_cons] at enough
    obtain ⟨fuel, rfl⟩ : ∃ k, fuel = k + 1 := ⟨fuel - 1, by omega⟩
    have rest := ih key' (h _ List.mem_cons_self) (fun m hm ↦ h m (List.mem_cons_of_mem _ hm)) fuel
      (by simp only [List.length_append]; omega)
    rw [membersFrom, hj (fuel + 1) _ (by omega)]
    simp only [memberTokens, List.cons_append, List.append_assoc, Option.bind_eq_bind,
      Option.bind_some, rest]
    rfl

/-- The tokens of a plain value are read as the value. -/
theorem IsPlain.reads {j : Json} (h : j.IsPlain) : Reads (tokens j) j := by
  induction h with
  | null | bool | number | string =>
    intro fuel more enough
    obtain ⟨fuel, rfl⟩ : ∃ k, fuel = k + 1 := ⟨fuel - 1, by simp [tokens] at enough; omega⟩
    rfl
  | @array items _ ih =>
    intro fuel more enough
    cases items with
    | nil =>
      obtain ⟨fuel, rfl⟩ : ∃ k, fuel = k + 1 := ⟨fuel - 1, by simp [tokens] at enough; omega⟩
      rfl
    | cons j items =>
      simp only [tokens, List.length_cons] at enough
      obtain ⟨fuel, rfl⟩ : ∃ k, fuel = k + 2 := ⟨fuel - 2, by omega⟩
      have read := itemsFrom_itemTokens (ih j List.mem_cons_self)
        (fun i hi ↦ ih i (List.mem_cons_of_mem _ hi)) fuel more (by omega)
      obtain ⟨t, ts, first, closing, -⟩ := tokens_ne_closing j (itemTokens items ++ more)
      rw [tokens, List.cons_append, List.append_assoc, first, valueFrom]
      · rw [← first, read]
        rfl
      · rintro rest ⟨⟩
        exact closing rfl
  | @object members _ _ ih =>
    intro fuel more enough
    cases members with
    | nil =>
      obtain ⟨fuel, rfl⟩ : ∃ k, fuel = k + 1 := ⟨fuel - 1, by simp [tokens] at enough; omega⟩
      rfl
    | cons m members =>
      obtain ⟨key, j⟩ := m
      simp only [tokens, List.length_cons] at enough
      obtain ⟨fuel, rfl⟩ : ∃ k, fuel = k + 2 := ⟨fuel - 2, by omega⟩
      have read := membersFrom_memberTokens key (j := j) (ih _ List.mem_cons_self)
        (fun m hm ↦ ih m (List.mem_cons_of_mem _ hm)) fuel more (by omega)
      rw [tokens, List.cons_append, List.cons_append, List.cons_append, List.append_assoc,
        valueFrom, read]
      · rfl
      · exact nofun

/-- A plain value is read back from its text. -/
theorem IsPlain.ofText?_text {j : Json} (h : j.IsPlain) : ofText? j.text = some j := by
  have cut : tokens? 0 (characters j) = some (tokens j) := by
    have cut := h.cuts [] ⟨nofun, nofun, ⟨nofun, nofun⟩⟩
    rw [List.append_nil] at cut
    rw [cut]
    simp [tokens?]
  have read : valueFrom (2 * (tokens j).length) (tokens j) = some (j, []) := by
    have read := h.reads _ [] (Nat.le_refl _)
    rwa [List.append_nil] at read
  rw [ofText?, text, String.toList_ofList, cut, Option.bind_some, ofTokens?, read]

end SqlWright.Json
