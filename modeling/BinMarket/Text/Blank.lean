/-!
Blank characters. A number may be surrounded by them; which ones count depends on who reads it.
-/

namespace BinMarket.Text

-- Characters that Unicode classes as white space, with the four ASCII separators.
def isBlank (c : Char) : Bool :=
  let n := c.toNat
  (0x9 ≤ n && n ≤ 0xD) || (0x1C ≤ n && n ≤ 0x20) || n == 0x85 || n == 0xA0 || n == 0x1680 ||
    (0x2000 ≤ n && n ≤ 0x200A) || n == 0x2028 || n == 0x2029 || n == 0x202F || n == 0x205F ||
    n == 0x3000

-- The blanks of ASCII: tab, the line breaks and the space.
def isAsciiBlank (c : Char) : Bool :=
  (0x9 ≤ c.toNat && c.toNat ≤ 0xD) || c == ' '

theorem isBlank_of_isAsciiBlank {c : Char} (h : isAsciiBlank c) : isBlank c := by
  simp only [isAsciiBlank, Bool.or_eq_true, Bool.and_eq_true, decide_eq_true_eq, beq_iff_eq] at h
  rcases h with ⟨h₁, h₂⟩ | rfl
  · simp [isBlank, h₁, h₂]
  · rfl

theorem isBlank_of_isWhitespace {c : Char} (h : c.isWhitespace) : isBlank c := by
  simp only [Char.isWhitespace, Bool.or_eq_true, decide_eq_true_eq] at h
  rcases h with ((rfl | rfl) | rfl) | rfl <;> rfl

-- Drops the characters of a class from both ends.
def strip (p : Char → Bool) (cs : List Char) : List Char :=
  ((cs.dropWhile p).reverse.dropWhile p).reverse

end BinMarket.Text
