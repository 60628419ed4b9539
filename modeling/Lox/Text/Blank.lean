/-
  Lox.Text.Blank — blank characters and the removal of blanks at both ends of a text.

  A character is blank when it has the Unicode property White_Space or is one of the
  four information separators U+001C to U+001F: 29 characters in all. Every white
  space of core's ASCII class is among them (`isBlank_of_isWhitespace`). `trim` leaves
  a text that neither starts nor ends with a blank (`trimLeft_head`).
-/

namespace Lox.Text

/-- The blank characters, as ranges of code points. -/
def blankRanges : List (Nat × Nat) :=
  [(0x09, 0x0D), (0x1C, 0x20), (0x85, 0x85), (0xA0, 0xA0), (0x1680, 0x1680), (0x2000, 0x200A),
   (0x2028, 0x2029), (0x202F, 0x202F), (0x205F, 0x205F), (0x3000, 0x3000)]

def isBlank (c : Char) : Bool := blankRanges.any fun (low, high) => low ≤ c.toNat && c.toNat ≤ high

def trimLeft (cs : List Char) : List Char := cs.dropWhile isBlank

def trim (cs : List Char) : List Char := (trimLeft (trimLeft cs).reverse).reverse

example : (blankRanges.map fun (low, high) => high - low + 1).sum = 29 := by decide

theorem isBlank_of_isWhitespace (c : Char) (h : c.isWhitespace = true) : isBlank c = true := by
  simp only [Char.isWhitespace, Bool.or_eq_true, decide_eq_true_eq] at h
  rcases h with ((rfl | rfl) | rfl) | rfl <;> decide

theorem trimLeft_head (cs : List Char) (c : Char) (h : (trimLeft cs).head? = some c) :
    isBlank c = false := by
  induction cs with
  | nil => simp [trimLeft] at h
  | cons d rest ih =>
    by_cases b : isBlank d = true
    · exact ih (by simpa [trimLeft, b] using h)
    · simp only [trimLeft, List.dropWhile_cons, b, if_neg, Bool.false_eq_true, not_false_eq_true,
        List.head?_cons, Option.some.injEq] at h
      subst h
      simpa using b

end Lox.Text
