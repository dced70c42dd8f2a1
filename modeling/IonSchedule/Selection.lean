/-! # Selections

A mapped register shows some of the slots of its source: all of them, a strided range, or a list of positions.
`size` is the number of slots shown, and `sourceIndex` takes each of them to its place in the source.
-/
namespace IonSchedule

inductive Selection where
  | whole
  /-- The positions `start, start + step, …` below `stop` and below the size of the source; none if `step` is
  zero. -/
  | slice (start stop step : Nat)
  | indices (positions : List Nat)
deriving DecidableEq

namespace Selection

def range (start stop : Nat) : Selection := .slice start stop 1

/-- The number of slots shown of a source of the given size. -/
def size : Selection → Nat → Nat
  | .whole, source => source
  | .slice start stop step, source =>
    let stop := min stop source
    if step = 0 ∨ stop ≤ start then 0 else (stop - start + step - 1) / step
  | .indices positions, _ => positions.length

/-- The place in the source of a slot that is shown. -/
def sourceIndex : (selection : Selection) → {source : Nat} → Fin (selection.size source) → Nat
  | .whole, _, i => i
  | .slice start _ step, _, i => start + i * step
  | .indices positions, _, i => positions.get i

/-- The first listed position that a source of the given size lacks. -/
def outOfRange? : Selection → Nat → Option Nat
  | .indices positions, source => positions.find? (source ≤ ·)
  | _, _ => none

/-- Whether each entry exceeds the one before it by `step`. -/
def regular (step : Nat) : Nat → List Nat → Bool
  | _, [] => true
  | before, next :: rest => next = before + step && regular step next rest

/-- Numbers of positions have 64 bits, and are below this one. -/
def numberLimit : Nat := Nat.pow 2 64

/-- The number right behind a position. Behind the greatest number comes zero. -/
def behind (position : Nat) : Nat := (position + 1) % numberLimit

/-- An index list as the range `start, stop, step` of the same positions: the list is empty, has one entry, or
increases by the same positive step throughout. -/
def asSlice? : List Nat → Option (Nat × Nat × Nat)
  | [] => some (0, 0, 1)
  | [only] => some (only, behind only, 1)
  | first :: second :: rest =>
    if first < second && regular (second - first) second rest
    then some (first, behind ((second :: rest).getLast (by simp)), second - first) else none

end Selection

end IonSchedule
