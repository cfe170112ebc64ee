/-!
# Blank characters

The Unicode property `White_Space`: the characters that separate words. Snapshots skip only the four
of them that occur in plain text files and accept none of the others.
-/

namespace ArithDecide

/-- Whether a character has the property `White_Space`. -/
def isBlank (c : Char) : Bool :=
  let n := c.toNat
  (9 ≤ n && n ≤ 13) || n = 0x20 || n = 0x85 || n = 0xA0 || n = 0x1680 ||
    (0x2000 ≤ n && n ≤ 0x200A) || n = 0x2028 || n = 0x2029 || n = 0x202F || n = 0x205F || n = 0x3000

/-- Whether a character is a space, a tab, a carriage return or a line feed. -/
def isPlainBlank (c : Char) : Bool := c = ' ' || c = '\t' || c = '\r' || c = '\n'

theorem isBlank_of_isPlainBlank {c : Char} (plain : isPlainBlank c = true) : isBlank c = true := by
  simp only [isPlainBlank, Bool.or_eq_true, decide_eq_true_eq] at plain
  rcases plain with ((rfl | rfl) | rfl) | rfl <;> decide

end ArithDecide
