import Mathlib.Data.List.Chain
import SqlWright.Command.Chain

/-!
# Normal chains

A chain is normal if it has no empty text and no two texts side by side. What is pushed to a normal
chain keeps it normal, and puts at its end what stands in the pieces: characters of texts and other
pieces. The normal form of a chain is what its pieces come to when they are pushed one by one. It
depends only on what stands in the chain.
-/

namespace SqlWright

/-- Whether the piece is a text. -/
def Piece.isText : Piece → Bool
  | .text _ => true
  | _ => false

/-- Characters of a text; any other piece as it is. -/
def Piece.symbols : Piece → List (Char ⊕ Piece)
  | .text s => s.toList.map .inl
  | p => [.inr p]

/-- Piece in which a single symbol stands. -/
def Piece.ofSymbol : Char ⊕ Piece → Piece
  | .inl char => .text (.singleton char)
  | .inr p => p

namespace Chain

variable {c c' d d' : Chain} {p : Piece}

/-- The chain has no empty text and no two texts side by side. -/
structure IsNormal (c : Chain) : Prop where
  nonempty : .text "" ∉ c
  apart : c.IsChain fun p q ↦ ¬(p.isText ∧ q.isText)

/-- What stands in a chain, in order: the characters of its texts and its other pieces. -/
def symbols (c : Chain) : List (Char ⊕ Piece) := c.flatMap Piece.symbols

/-- The chain does not end in a text. -/
def IsOpen (c : Chain) : Prop := ∀ q ∈ c.getLast?, q.isText = false

/-! ### Pushing pieces -/

theorem push_of_not_isText (c : Chain) (hp : p.isText = false) : c.push p = c ++ [p] := by
  cases p with
  | text s => cases hp
  | _ => rfl

theorem push_text_concat (c : Chain) (t s : String) :
    push (c ++ [.text t]) (.text s) = c ++ [.text (t ++ s)] := by
  by_cases empty : s = "" <;> simp [push, empty]

theorem IsOpen.push_text (h : c.IsOpen) (s : String) : c.push (.text s) = c ++ ofText s := by
  by_cases empty : s = ""
  · simp [push, ofText, empty]
  · obtain rfl | ⟨front, last, rfl⟩ := c.eq_nil_or_concat
    · simp [push, ofText, empty]
    · cases last with
      | text t => cases h (.text t) (by simp)
      | _ => simp [push, ofText, empty]

theorem isOpen_nil : IsOpen [] := by simp [IsOpen]

theorem isOpen_concat (c : Chain) (hp : p.isText = false) : IsOpen (c ++ [p]) := by
  simpa [IsOpen] using hp

/-- A chain ends in a text or is open. -/
theorem isOpen_or_exists_concat (c : Chain) :
    c.IsOpen ∨ ∃ front t, c = front ++ [.text t] := by
  obtain rfl | ⟨front, last, rfl⟩ := c.eq_nil_or_concat
  · exact .inl isOpen_nil
  · cases last with
    | text t => exact .inr ⟨front, t, List.concat_eq_append⟩
    | _ => exact .inl (by simp [IsOpen, Piece.isText])

/-- Texts that are pushed one after the other come to one text. -/
theorem push_text_push_text (c : Chain) (s t : String) :
    (c.push (.text s)).push (.text t) = c.push (.text (s ++ t)) := by
  obtain opened | ⟨front, u, rfl⟩ := c.isOpen_or_exists_concat
  · by_cases empty : s = ""
    · simp [push, empty]
    · rw [opened.push_text, opened.push_text, ofText, if_neg empty, push_text_concat, ofText,
        if_neg (by simp [empty])]
  · rw [push_text_concat, push_text_concat, push_text_concat, String.append_assoc]

theorem isNormal_nil : IsNormal [] := ⟨List.not_mem_nil, .nil⟩

theorem IsNormal.concat (h : c.IsNormal) (hp : p ≠ .text "")
    (apart : ∀ q ∈ c.getLast?, ¬(q.isText ∧ p.isText)) : IsNormal (c ++ [p]) where
  nonempty mem := by
    obtain mem | same := List.mem_append.1 mem
    · exact h.nonempty mem
    · exact hp (List.mem_singleton.1 same).symm
  apart := List.isChain_append.2 ⟨h.apart, .singleton p, by simpa using apart⟩

/-- A normal chain stays normal when a piece is pushed to it. -/
theorem IsNormal.push (h : c.IsNormal) (p : Piece) : (c.push p).IsNormal := by
  cases hp : p.isText with
  | false =>
    rw [push_of_not_isText c hp]
    exact h.concat (by rintro rfl; cases hp) (by simp [hp])
  | true =>
    cases p with
    | text s =>
      obtain opened | ⟨front, t, rfl⟩ := c.isOpen_or_exists_concat
      · rw [opened.push_text, ofText]
        split
        · simpa using h
        · next written => exact h.concat (by simpa using written) fun q hq ↦ by simp [opened q hq]
      · obtain ⟨frontApart, -, lastApart⟩ := List.isChain_append.1 h.apart
        have written : t ≠ "" := fun empty ↦ h.nonempty (by simp [empty])
        have front : IsNormal front := ⟨fun mem ↦ h.nonempty (List.mem_append_left _ mem), frontApart⟩
        rw [push_text_concat]
        exact front.concat (by simp [written]) fun q hq ↦ by
          simpa [Piece.isText] using lastApart q hq
    | _ => cases hp

theorem IsNormal.append (h : c.IsNormal) (d : Chain) : (c.append d).IsNormal := by
  induction d generalizing c with
  | nil => exact h
  | cons p d ih => exact ih (h.push p)

theorem append_append (c d e : Chain) : c.append (d ++ e) = (c.append d).append e :=
  List.foldl_append

theorem symbols_push (c : Chain) (p : Piece) : (c.push p).symbols = c.symbols ++ p.symbols := by
  cases p with
  | text s =>
    obtain opened | ⟨front, t, rfl⟩ := c.isOpen_or_exists_concat
    · rw [opened.push_text, ofText]
      split
      · next empty => simp [empty, Piece.symbols]
      · simp [symbols]
    · rw [push_text_concat]
      simp [symbols, Piece.symbols]
  | _ => simp [symbols, push]

/-- Pushing the pieces of a chain puts what stands in it at the end, in order. -/
theorem symbols_append (c d : Chain) : (c.append d).symbols = c.symbols ++ d.symbols := by
  induction d generalizing c with
  | nil => simp [append, symbols]
  | cons p d ih =>
    calc
      ((c.push p).append d).symbols = c.symbols ++ p.symbols ++ symbols d := by
        rw [ih, symbols_push]
      _ = c.symbols ++ symbols (p :: d) := by simp [symbols]

/-- Pushing the pieces of a chain is pushing what stands in it symbol by symbol. -/
theorem append_map_ofSymbol (c d : Chain) :
    c.append (d.symbols.map Piece.ofSymbol) = c.append d := by
  have chars (l : List Char) (c : Chain) :
      c.append ((l.map Sum.inl).map Piece.ofSymbol) = c.push (.text (String.ofList l)) := by
    induction l generalizing c with
    | nil => simp [append, push]
    | cons char l ih =>
      calc
        _ = (c.push (.text (.singleton char))).append ((l.map Sum.inl).map Piece.ofSymbol) := rfl
        _ = c.push (.text (.singleton char ++ .ofList l)) := by rw [ih, push_text_push_text]
        _ = c.push (.text (.ofList (char :: l))) := by rw [String.ofList_cons]
  induction d generalizing c with
  | nil => rfl
  | cons p d ih =>
    have first : c.append (p.symbols.map Piece.ofSymbol) = c.push p := by
      cases p with
      | text s => simpa [Piece.symbols] using chars s.toList c
      | _ => rfl
    calc
      _ = (c.append (p.symbols.map Piece.ofSymbol)).append ((symbols d).map Piece.ofSymbol) := by
        rw [← append_append, ← List.map_append]
        rfl
      _ = (c.push p).append d := by rw [first, ih]

/-! ### Normal forms -/

/-- The normal form of a chain after a text that waits is what the pieces come to that are pushed
after that text. -/
theorem IsOpen.append_normalizedAfter (h : c.IsOpen) (pending : String) (d : Chain) :
    c ++ normalizedAfter pending d = (c.push (.text pending)).append d := by
  induction d generalizing c pending with
  | nil => exact (h.push_text pending).symm
  | cons p d ih =>
    have step (hp : p.isText = false) :
        c ++ (ofText pending ++ p :: normalizedAfter "" d) =
          ((c.push (.text pending)).push p).append d := by
      have opened := isOpen_concat (c ++ ofText pending) hp
      rw [push_of_not_isText _ hp, h.push_text]
      simpa [push] using ih opened ""
    cases p with
    | text s =>
      rw [normalizedAfter, ih h, ← push_text_push_text]
      rfl
    | _ => exact step rfl

/-- The normal form of a chain is what its pieces come to when they are pushed one by one. -/
theorem normalized_eq_append (c : Chain) : c.normalized = append [] c :=
  isOpen_nil.append_normalizedAfter "" c

theorem isNormal_normalized (c : Chain) : c.normalized.IsNormal :=
  normalized_eq_append c ▸ isNormal_nil.append c

theorem symbols_normalized (c : Chain) : c.normalized.symbols = c.symbols := by
  rw [normalized_eq_append, symbols_append]
  rfl

/-- The normal form depends only on what stands in the chain. -/
theorem normalized_eq_iff : c.normalized = d.normalized ↔ c.symbols = d.symbols := by
  constructor
  · intro h
    rw [← symbols_normalized c, h, symbols_normalized]
  · intro h
    rw [normalized_eq_append, normalized_eq_append, ← append_map_ofSymbol, h, append_map_ofSymbol]

/-- Chains of one normal form have one normal form before others of one normal form too. -/
theorem normalized_append (h : c.normalized = c'.normalized) (h' : d.normalized = d'.normalized) :
    (c ++ d).normalized = (c' ++ d').normalized := by
  rw [normalized_eq_iff] at h h' ⊢
  simp only [symbols, List.flatMap_append] at h h' ⊢
  rw [h, h']

/-- A piece that is no text stands in the chain as it does among the symbols. -/
theorem inr_mem_symbols (hp : p.isText = false) : .inr p ∈ c.symbols ↔ p ∈ c := by
  rw [symbols, List.mem_flatMap]
  constructor
  · rintro ⟨q, hq, mem⟩
    cases q with
    | text s => simp [Piece.symbols] at mem
    | _ => exact Sum.inr.inj (List.mem_singleton.1 mem) ▸ hq
  · intro mem
    refine ⟨p, mem, ?_⟩
    cases p with
    | text s => cases hp
    | _ => exact List.mem_singleton_self _

theorem mem_normalized (hp : p.isText = false) : p ∈ c.normalized ↔ p ∈ c := by
  rw [← inr_mem_symbols hp, symbols_normalized, inr_mem_symbols hp]

end Chain

end SqlWright
