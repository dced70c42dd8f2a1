import IonSchedule.Binary64

/-! # Shortest decimals

The decimal with the fewest digits that is read back as a given magnitude, and of those the nearest one. The
search tries one digit, two digits, and so on: on each grid of decimals the two neighbours of the magnitude are
read back. Every magnitude is a multiple of `10⁻¹⁰⁷⁴`, so the search ends at the latest on that grid, where the
lower neighbour is exact.
-/
namespace IonSchedule

namespace Binary64

/-- Which of two equally near decimals is taken. -/
inductive HalfRule where
  | up
  | even
deriving DecidableEq

/-- The decimal `0.d₁d₂…dₙ * 10 ^ point`. -/
structure Digits where
  digits : List Char
  point : Int
deriving DecidableEq

/-- The exponent `p` with `10 ^ (p - 1) ≤ size < 10 ^ p`, for a positive magnitude. -/
def decimalPoint (k : Nat) : Int :=
  (Nat.toDigits 10 (units k * Nat.pow 10 400 / Nat.pow 2 1074)).length - 400

/-- The size of magnitude `k` on the grid of multiples of `10 ^ grid`, as a quotient. -/
def onGrid (k : Nat) (grid : Int) : Nat × Nat :=
  (units k * Nat.pow 10 (-grid).toNat, Nat.pow 2 1074 * Nat.pow 10 grid.toNat)

/-- The nearer of the two neighbours of `num / den` among the natural numbers. -/
def nearerNeighbour (rule : HalfRule) (num den : Nat) : Nat :=
  let below := num / den
  match compare (2 * (num % den)) den with
  | .lt => below
  | .gt => below + 1
  | .eq =>
    match rule with
    | .up => below + 1
    | .even => if below % 2 = 0 then below else below + 1

/-- Whether `c * 10 ^ grid` is read as magnitude `k`. -/
def readsBack (k : Nat) (grid : Int) (c : Nat) : Bool := nearestDecimal c grid = k

/-- A neighbour of `num / den`, the nearer one if both may be taken. -/
def neighbour? (rule : HalfRule) (num den : Nat) (takesBelow takesAbove : Bool) : Option Nat :=
  match takesBelow, takesAbove with
  | true, true => some (nearerNeighbour rule num den)
  | true, false => some (num / den)
  | false, true => some (num / den + 1)
  | false, false => none

/-- A neighbour of magnitude `k` on the grid that is read back as `k`. -/
def onGrid? (rule : HalfRule) (k : Nat) (grid : Int) : Option Nat :=
  let quotient := onGrid k grid
  let below := quotient.1 / quotient.2
  neighbour? rule quotient.1 quotient.2 (readsBack k grid below) (readsBack k grid (below + 1))

/-- Searches the grids `10 ^ grid`, `10 ^ (grid - 1)`, …; `finer` is how many are left below this one. -/
def searchGrids (rule : HalfRule) (k : Nat) : (finer : Nat) → (grid : Int) → Nat × Int
  | 0, grid => ((onGrid k grid).1 / (onGrid k grid).2, grid)
  | finer + 1, grid => ((onGrid? rule k grid).map (·, grid)).getD (searchGrids rule k finer (grid - 1))

def dropTrailingZeros (digits : List Char) : List Char := (digits.reverse.dropWhile (· = '0')).reverse

/-- The fewest digits that are read back as magnitude `k`. -/
def shortest (rule : HalfRule) (k : Nat) : Digits :=
  if k = 0 then ⟨['0'], 1⟩
  else
    let point := decimalPoint k
    let found := searchGrids rule k (point + 1073).toNat (point - 1)
    let digits := Nat.toDigits 10 found.1
    ⟨dropTrailingZeros digits, digits.length + found.2⟩

end Binary64

end IonSchedule
