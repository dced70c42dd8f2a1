/-! # Double-precision numbers

Angles and constants are double-precision numbers. They are only read, compared and written, so a number is kept
as an exact value: its finite magnitudes are numbered `0, 1, 2, …` from zero upwards, and `units` gives the size
of each as a multiple of the least positive one, `2⁻¹⁰⁷⁴`. A decimal is read as the nearest magnitude, a half
going to the even one.
-/
namespace IonSchedule

namespace Binary64

/-- How many finite magnitudes there are: 2047 binades of `2⁵²` each. -/
def magnitudes : Nat := 2047 * Nat.pow 2 52

end Binary64

/-- A double-precision number; `finite` carries the place of its magnitude among all finite ones. -/
inductive Binary64 where
  | nan
  | infinity (negative : Bool)
  | finite (negative : Bool) (magnitude : Fin Binary64.magnitudes)
deriving DecidableEq

namespace Binary64

def zero (negative : Bool) : Binary64 := .finite negative ⟨0, by decide⟩

instance : Inhabited Binary64 := ⟨zero false⟩

def isFinite : Binary64 → Bool
  | .finite _ _ => true
  | _ => false

/-- Equality of numbers: the two zeros are equal, and a NaN equals nothing. -/
def agrees : Binary64 → Binary64 → Bool
  | .finite s a, .finite t b => a = b && (s = t || a.val = 0)
  | .infinity s, .infinity t => s = t
  | _, _ => false

/-- The size of the magnitude numbered `k`, in units of `2⁻¹⁰⁷⁴`. -/
def units (k : Nat) : Nat :=
  if k < Nat.pow 2 53 then k else (Nat.pow 2 52 + k % Nat.pow 2 52) * Nat.pow 2 (k / Nat.pow 2 52 - 1)

/-- The natural number nearest to `num / den`; a half goes to the even neighbour. -/
def roundHalfEven (num den : Nat) : Nat :=
  let below := num / den
  match compare (2 * (num % den)) den with
  | .lt => below
  | .gt => below + 1
  | .eq => if below % 2 = 0 then below else below + 1

/-- The magnitude nearest to `num / den`. Sizes past the largest finite magnitude give numbers past its number. -/
def nearest (num den : Nat) : Nat :=
  let scaled := num * Nat.pow 2 1074
  let shift := (scaled / den).log2 + 1 - 53
  shift * Nat.pow 2 52 + roundHalfEven scaled (den * Nat.pow 2 shift)

/-- The magnitude nearest to `significand * 10 ^ exponent`. -/
def nearestDecimal (significand : Nat) (exponent : Int) : Nat :=
  nearest (significand * Nat.pow 10 exponent.toNat) (Nat.pow 10 (-exponent).toNat)

/-- The number nearest to a decimal, or `none` when that lies past every finite number. The first cases only
keep the powers of ten small: a positive decimal of exponent above 400 is too large, and one below `10⁻⁴⁰⁰`
rounds to zero. -/
def ofDecimal? (negative : Bool) (significand : Nat) (exponent : Int) : Option Binary64 :=
  if significand = 0 then some (zero negative)
  else if 400 < exponent then none
  else if exponent + significand.log2 + 1 < -400 then some (zero negative)
  else
    let k := nearestDecimal significand exponent
    if h : k < magnitudes then some (.finite negative ⟨k, h⟩) else none

end Binary64

end IonSchedule
