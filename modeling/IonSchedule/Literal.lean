import IonSchedule.Binary64.Shortest

/-! # Number literals

A number literal as it is written: a sign, digits, perhaps a fraction and perhaps an exponent. Reading keeps the
parts apart, so that `3` and `3.0` stay different literals; `natural?` and `value?` say what number a literal
stands for. A layout fixes how a double-precision number is written: from its shortest digits, with or without
an exponent.
-/
namespace IonSchedule

inductive ExponentSign where
  | bare
  | plus
  | minus
deriving DecidableEq

def ExponentSign.chars : ExponentSign → List Char
  | .bare => []
  | .plus => ['+']
  | .minus => ['-']

/-- A literal `[-]whole[.fraction][e[±]exponent]`; each part is a list of decimal digits. -/
structure Literal where
  negative : Bool
  whole : List Char
  fraction : Option (List Char)
  exponent : Option (ExponentSign × List Char)
deriving DecidableEq

namespace Literal

def ofNat (n : Nat) : Literal := ⟨false, Nat.toDigits 10 n, none, none⟩

def fractionChars : Option (List Char) → List Char
  | none => []
  | some digits => '.' :: digits

def exponentChars : Option (ExponentSign × List Char) → List Char
  | none => []
  | some (sign, digits) => 'e' :: (sign.chars ++ digits)

def chars (l : Literal) : List Char :=
  (if l.negative then ['-'] else []) ++ l.whole ++ fractionChars l.fraction ++ exponentChars l.exponent

def text (l : Literal) : String := String.ofList l.chars

/-- Digits that may stand before the point: one or more, and no zero in front of others. -/
def isWhole : List Char → Bool
  | [] => false
  | [c] => c.isDigit
  | c :: rest => c.isDigit && c ≠ '0' && rest.all Char.isDigit

def isDigits (digits : List Char) : Bool := !digits.isEmpty && digits.all Char.isDigit

/-- Reads the part after the digits of the significand. -/
def readExponent? : List Char → Option (Option (ExponentSign × List Char))
  | [] => some none
  | c :: rest =>
    if c = 'e' || c = 'E' then
      let (sign, digits) :=
        match rest with
        | '+' :: digits => (ExponentSign.plus, digits)
        | '-' :: digits => (ExponentSign.minus, digits)
        | digits => (ExponentSign.bare, digits)
      if isDigits digits then some (some (sign, digits)) else none
    else none

/-- Reads the part after the digits before the point. -/
def readFraction? (negative : Bool) (whole : List Char) : List Char → Option Literal
  | '.' :: rest =>
    let digits := rest.takeWhile Char.isDigit
    if digits.isEmpty then none
    else (readExponent? (rest.dropWhile Char.isDigit)).map (⟨negative, whole, some digits, ·⟩)
  | rest => (readExponent? rest).map (⟨negative, whole, none, ·⟩)

def readUnsigned? (negative : Bool) (cs : List Char) : Option Literal :=
  let whole := cs.takeWhile Char.isDigit
  if isWhole whole then readFraction? negative whole (cs.dropWhile Char.isDigit) else none

/-- Reads a whole text as a literal. -/
def ofChars? : List Char → Option Literal
  | '-' :: cs => readUnsigned? true cs
  | cs => readUnsigned? false cs

/-- The natural number that a literal stands for; a sign, a point or an exponent makes it none. -/
def natural? (l : Literal) : Option Nat :=
  if l.negative || l.fraction.isSome || l.exponent.isSome then none else some (Nat.ofDigitChars 10 l.whole 0)

def exponentValue : Option (ExponentSign × List Char) → Int
  | none => 0
  | some (.minus, digits) => -(Nat.ofDigitChars 10 digits 0 : Int)
  | some (_, digits) => Nat.ofDigitChars 10 digits 0

/-- The double-precision number nearest to a literal, unless it is too large. -/
def value? (l : Literal) : Option Binary64 :=
  let fraction := l.fraction.getD []
  Binary64.ofDecimal? l.negative (Nat.ofDigitChars 10 (l.whole ++ fraction) 0)
    (exponentValue l.exponent - fraction.length)

/-- How numbers are written: `positional point` says whether `0.d₁d₂… * 10 ^ point` is written without an
exponent, and `pointZero` whether a whole number then ends in `.0`. -/
structure Layout where
  half : Binary64.HalfRule
  positional : Int → Bool
  pointZero : Bool

def positional (pointZero negative : Bool) (digits : List Char) (point : Int) : Literal :=
  if point ≤ 0 then ⟨negative, ['0'], some (List.replicate (-point).toNat '0' ++ digits), none⟩
  else if digits.length ≤ point.toNat then
    ⟨negative, digits ++ List.replicate (point.toNat - digits.length) '0',
      if pointZero then some ['0'] else none, none⟩
  else ⟨negative, digits.take point.toNat, some (digits.drop point.toNat), none⟩

/-- Writes one digit before the point, and an exponent with its sign. -/
def scientific (negative : Bool) (digits : List Char) (point : Int) : Literal :=
  let fraction := digits.drop 1
  ⟨negative, digits.take 1, if fraction.isEmpty then none else some fraction,
    some (if point < 1 then .minus else .plus, Nat.toDigits 10 (point - 1).natAbs)⟩

/-- The literal that stands for a finite number, or `none` for the others. -/
def ofBinary64? (layout : Layout) : Binary64 → Option Literal
  | .finite negative k =>
    let d := Binary64.shortest layout.half k
    some (if layout.positional d.point then positional layout.pointZero negative d.digits d.point
      else scientific negative d.digits d.point)
  | _ => none

end Literal

end IonSchedule
