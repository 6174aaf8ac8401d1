/-!
# White space

The characters that Unicode gives the property White_Space, and text without
the white space at its two ends.
-/

namespace SqlWright.Text

/-- White_Space: the five controls from tab to carriage return, the space, and
the blanks outside ASCII. -/
def isBlank (c : Char) : Bool :=
  let n := c.toNat
  (9 ≤ n && n ≤ 13) || n == 0x20 || n == 0x85 || n == 0xA0 || n == 0x1680 ||
    (0x2000 ≤ n && n ≤ 0x200A) || n == 0x2028 || n == 0x2029 || n == 0x202F ||
    n == 0x205F || n == 0x3000

/-- Characters without the leading white space. -/
def trimStart (cs : List Char) : List Char := cs.dropWhile isBlank

/-- Characters without the leading and the trailing white space. -/
def trim (cs : List Char) : List Char :=
  (trimStart (trimStart cs).reverse).reverse

/-- Nothing is left in front once the leading white space is gone. -/
theorem trimStart_append {bs cs : List Char} (h : ∀ b ∈ bs, isBlank b = true) :
    trimStart (bs ++ cs) = trimStart cs := by
  induction bs with
  | nil => rfl
  | cons b bs ih =>
    have hb : isBlank b = true := h b List.mem_cons_self
    have ht : ∀ b ∈ bs, isBlank b = true := fun x hx ↦ h x (List.mem_cons_of_mem b hx)
    simpa [trimStart, hb] using ih ht

end SqlWright.Text
