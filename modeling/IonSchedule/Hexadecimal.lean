/-! # Hexadecimal digits -/
namespace IonSchedule.Hexadecimal

/-- The value of a digit; letters may be of either case. -/
def value? (c : Char) : Option Nat :=
  if c.isDigit then some (c.toNat - 48)
  else if 'a' ≤ c && c ≤ 'f' then some (c.toNat - 87)
  else if 'A' ≤ c && c ≤ 'F' then some (c.toNat - 55)
  else none

/-- The digit of a value below 16, as a small letter from ten on. -/
def digit (n : Nat) : Char := Nat.digitChar n

end IonSchedule.Hexadecimal
