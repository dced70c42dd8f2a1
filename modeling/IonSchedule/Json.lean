import IonSchedule.Literal

/-! # JSON values

Numbers are kept as literals and objects as lists of entries, so that nothing the text said about spelling or
order is lost. A text may hold more than can be read, as long as nobody asks for it.
-/
namespace IonSchedule

inductive Json where
  | null
  | bool (value : Bool)
  | number (literal : Literal)
  | string (text : String)
  | array (items : List Json)
  | object (entries : List (String × Json))
  /-- A value that can be skipped but not read: a string that is no sequence of characters, an object with such
  a key, or an array or object that is nested too deep. -/
  | unreadable

namespace Json

instance : Inhabited Json := ⟨.null⟩

def nat (n : Nat) : Json := .number (Literal.ofNat n)

/-- How double-precision numbers are written in JSON: with an exponent below `10⁻⁵` and from `10¹⁶` on, and a whole
number with `.0`. -/
def layout : Literal.Layout where
  half := .even
  positional point := -5 < point && point ≤ 16
  pointZero := true

/-- A double-precision number; what is not finite is written as `null`. -/
def real (x : Binary64) : Json :=
  match Literal.ofBinary64? layout x with
  | some literal => .number literal
  | none => .null

def natural? : Json → Option Nat
  | .number literal => literal.natural?.bind fun n => if n < Nat.pow 2 64 then some n else none
  | _ => none

def real? : Json → Option Binary64
  | .number literal => literal.value?
  | _ => none

def string? : Json → Option String
  | .string text => some text
  | _ => none

end Json

end IonSchedule
