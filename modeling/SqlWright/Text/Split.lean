/-!
# Splitting texts

A text is cut at the marks of a kind. `joined_splitAt` says that nothing is lost: the parts
with the mark between them are the text again.
-/

namespace SqlWright.Text

/-- Parts between the marks of a kind; there is one part more than there are marks. -/
def splitAt (isMark : Char → Bool) : List Char → List (List Char)
  | [] => [[]]
  | c :: cs =>
    if isMark c then [] :: splitAt isMark cs
    else match splitAt isMark cs with
      | part :: parts => (c :: part) :: parts
      | [] => [[c]]

/-- Parts with a mark between any two. -/
def joined (mark : Char) : List (List Char) → List Char
  | [] => []
  | [part] => part
  | part :: parts => part ++ mark :: joined mark parts

/-- Text in front of the first mark and text after it, if there is a mark. -/
def cut? (mark : Char) (cs : List Char) : Option (List Char × List Char) :=
  match cs.dropWhile (· ≠ mark) with
  | _ :: rest => some (cs.takeWhile (· ≠ mark), rest)
  | [] => none

/-- A text has at least one part. -/
theorem splitAt_ne_nil (isMark : Char → Bool) (cs : List Char) : splitAt isMark cs ≠ [] := by
  cases cs with
  | nil => simp [splitAt]
  | cons c cs =>
    simp only [splitAt]
    split
    · simp
    · split <;> simp

/-- Joining the parts gives the text. -/
theorem joined_splitAt (mark : Char) (cs : List Char) :
    joined mark (splitAt (· == mark) cs) = cs := by
  induction cs with
  | nil => rfl
  | cons c cs ih =>
    have hne := splitAt_ne_nil (· == mark) cs
    simp only [splitAt]
    split
    · next h =>
      have hc : c = mark := by simpa using h
      subst hc
      cases hs : splitAt (· == c) cs with
      | nil => exact absurd hs hne
      | cons part parts => rw [hs] at ih; simp [joined, ih]
    · cases hs : splitAt (· == mark) cs with
      | nil => exact absurd hs hne
      | cons part parts =>
        rw [hs] at ih
        cases parts with
        | nil => simpa [joined] using ih
        | cons next rest => simpa [joined] using ih

end SqlWright.Text
