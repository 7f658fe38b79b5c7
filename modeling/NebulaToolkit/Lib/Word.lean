import Mathlib.Data.Nat.Basic
import Mathlib.Tactic.Ring
/-!
# Unsigned machine words

Addition and subtraction of `w`-bit unsigned words, as numbers. They agree
with the mathematical operations unless the result leaves `[0, 2 ^ w)`.
-/

namespace NebulaToolkit.Lib

/-- The sum of two `w`-bit words. -/
def wadd (w a b : Nat) : Nat := (a + b) % 2 ^ w

/-- The difference of two `w`-bit words. -/
def wsub (w a b : Nat) : Nat := (a + (2 ^ w - b % 2 ^ w)) % 2 ^ w

section
variable {w a b : Nat}

theorem wadd_lt : wadd w a b < 2 ^ w := Nat.mod_lt _ (Nat.two_pow_pos w)

theorem wadd_of_lt (h : a + b < 2 ^ w) : wadd w a b = a + b := Nat.mod_eq_of_lt h

theorem wsub_of_le (h : b ≤ a) (ha : a < 2 ^ w) : wsub w a b = a - b := by
  unfold wsub
  rw [Nat.mod_eq_of_lt (Nat.lt_of_le_of_lt h ha), show a + (2 ^ w - b) = (a - b) + 2 ^ w by omega,
    Nat.add_mod_right, Nat.mod_eq_of_lt (by omega)]

/-- A difference that would be negative comes out as a word near `2 ^ w`. -/
theorem wsub_of_lt (h : a < b) (hb : b < 2 ^ w) : wsub w a b = 2 ^ w - (b - a) := by
  unfold wsub
  rw [Nat.mod_eq_of_lt hb, Nat.mod_eq_of_lt (by omega)]
  omega

end

end NebulaToolkit.Lib
