import IonSchedule.Literal
import IonSchedule.Proofs.Rounding

/-! # Numbers as text

The search for the shortest decimal of a magnitude only stops at decimals that are read back, at the latest on
the grid on which the magnitude is exact. A literal of those digits stands for the same decimal in every layout,
and the text of a literal gives back the literal. So every finite number is read back from its text.
-/
namespace IonSchedule

namespace Binary64

theorem ten_pow_eq (n : Nat) : Nat.pow 10 n = Nat.pow 5 n * Nat.pow 2 n := Nat.mul_pow 5 2 n

/-- On the grid of `10⁻ⁿ`, the multiples of `2⁻ⁿ` are exact. -/
theorem nearestDecimal_exact (size n : Nat) :
    nearestDecimal (size * Nat.pow 5 n) (-n) = nearest size (Nat.pow 2 n) := by
  have hnum : (-(n : Int)).toNat = 0 := by omega
  have hden : (- -(n : Int)).toNat = n := by omega
  unfold nearestDecimal
  rw [hnum, hden]
  refine nearest_congr (ten_pow_pos n) (two_pow_pos n) ?_
  rw [show Nat.pow 10 0 = 1 from rfl, Nat.mul_one, ten_pow_eq, Nat.mul_assoc]

theorem nearestDecimal_of_readsBack {k : Nat} {grid : Int} {c : Nat} (h : readsBack k grid c = true) :
    nearestDecimal c grid = k := of_decide_eq_true h

theorem nearerNeighbour_cases (rule : HalfRule) (num den : Nat) :
    nearerNeighbour rule num den = num / den ∨ nearerNeighbour rule num den = num / den + 1 := by
  unfold nearerNeighbour
  split
  · exact .inl rfl
  · exact .inr rfl
  · cases rule with
    | up => exact .inr rfl
    | even =>
      dsimp only
      split
      · exact .inl rfl
      · exact .inr rfl

theorem neighbour?_cases {rule : HalfRule} {num den : Nat} {takesBelow takesAbove : Bool} {c : Nat}
    (h : neighbour? rule num den takesBelow takesAbove = some c) :
    takesBelow = true ∧ c = num / den ∨ takesAbove = true ∧ c = num / den + 1 := by
  cases takesBelow with
  | true =>
    cases takesAbove with
    | true =>
      obtain rfl : nearerNeighbour rule num den = c := Option.some.inj h
      exact (nearerNeighbour_cases rule num den).imp (⟨rfl, ·⟩) (⟨rfl, ·⟩)
    | false => exact .inl ⟨rfl, (Option.some.inj h).symm⟩
  | false =>
    cases takesAbove with
    | true => exact .inr ⟨rfl, (Option.some.inj h).symm⟩
    | false => cases h

theorem nearestDecimal_of_onGrid? {rule : HalfRule} {k : Nat} {grid : Int} {c : Nat}
    (h : onGrid? rule k grid = some c) : nearestDecimal c grid = k := by
  rcases neighbour?_cases h with ⟨hreads, hc⟩ | ⟨hreads, hc⟩
  · rw [hc, nearestDecimal_of_readsBack hreads]
  · rw [hc, nearestDecimal_of_readsBack hreads]

theorem onGrid_neg (k n : Nat) : onGrid k (-n) = (units k * Nat.pow 10 n, Nat.pow 2 1074) := by
  have hn : (- -(n : Int)).toNat = n := by omega
  have hzero : (-(n : Int)).toNat = 0 := by omega
  unfold onGrid
  generalize 1074 = unit
  rw [hn, hzero, show Nat.pow 10 0 = 1 from rfl, Nat.mul_one]

/-- On the last grid the lower neighbour is the magnitude itself. -/
theorem nearestDecimal_lastGrid (k : Nat) :
    nearestDecimal ((onGrid k (-(1074 : Nat))).1 / (onGrid k (-(1074 : Nat))).2) (-(1074 : Nat)) = k := by
  rw [onGrid_neg]
  have hunits := nearest_units k
  generalize 1074 = unit at hunits ⊢
  rw [ten_pow_eq, ← Nat.mul_assoc, Nat.mul_div_cancel _ (two_pow_pos unit), nearestDecimal_exact, hunits]

/-- The search ends with a decimal that is read back if its last grid is that of `10⁻¹⁰⁷⁴`. -/
theorem nearestDecimal_searchGrids (rule : HalfRule) (k finer : Nat) (grid : Int) (h : grid - finer = -1074) :
    nearestDecimal (searchGrids rule k finer grid).1 (searchGrids rule k finer grid).2 = k := by
  induction finer generalizing grid with
  | zero =>
    obtain rfl : grid = -(1074 : Nat) := by omega
    exact nearestDecimal_lastGrid k
  | succ finer ih =>
    rw [searchGrids]
    cases hfound : onGrid? rule k grid with
    | some c => exact nearestDecimal_of_onGrid? hfound
    | none => exact ih (grid - 1) (by omega)

theorem head?_toDigits {n : Nat} (hn : n ≠ 0) : (Nat.toDigits 10 n).head? ≠ some '0' := by
  induction n using Nat.strongRecOn with
  | ind n ih =>
    by_cases hlt : n < 10
    · rw [Nat.toDigits_of_lt_base hlt]
      simpa [Nat.digitChar_eq_zero] using hn
    · have hhead := ih (n / 10) (by omega) (by omega)
      rw [List.head?_eq_some_head Nat.toDigits_ne_nil] at hhead
      rw [Nat.toDigits_of_base_le (by decide) (by omega), List.head?_append,
        List.head?_eq_some_head Nat.toDigits_ne_nil, Option.some_or]
      exact hhead

theorem exists_dropTrailingZeros (digits : List Char) :
    ∃ zeros, digits = dropTrailingZeros digits ++ List.replicate zeros '0' := by
  refine ⟨(digits.reverse.takeWhile (· = '0')).length, ?_⟩
  have hzeros : digits.reverse.takeWhile (· = '0') =
      List.replicate (digits.reverse.takeWhile (· = '0')).length '0' := by
    refine List.eq_replicate_of_mem fun c hc => ?_
    exact of_decide_eq_true (List.all_eq_true.1 List.all_takeWhile c hc)
  calc digits = digits.reverse.reverse := (List.reverse_reverse digits).symm
    _ = (digits.reverse.takeWhile (· = '0') ++ digits.reverse.dropWhile (· = '0')).reverse := by
      rw [List.takeWhile_append_dropWhile]
    _ = dropTrailingZeros digits ++ (digits.reverse.takeWhile (· = '0')).reverse := List.reverse_append
    _ = dropTrailingZeros digits ++ List.replicate _ '0' := by
      rw [hzeros, List.reverse_replicate, List.length_replicate]

/-- Zeros at the end of a significand count in the exponent. -/
theorem nearestDecimal_zeros (digits : List Char) (zeros : Nat) (exponent : Int) :
    nearestDecimal (Nat.ofDigitChars 10 (digits ++ List.replicate zeros '0') 0) exponent =
      nearestDecimal (Nat.ofDigitChars 10 digits 0) (exponent + zeros) := by
  rw [Nat.ofDigitChars_append, Nat.ofDigitChars_replicate_zero, Nat.mul_comm]
  exact nearestDecimal_mul_pow _ _ _

/-- The decimal is read as magnitude `k`, and its digits can be written down: there is a first one, and it is no
zero unless the decimal is zero. -/
structure Digits.Spells (d : Digits) (k : Nat) : Prop where
  nonempty : d.digits ≠ []
  isDigit : ∀ c ∈ d.digits, c.isDigit = true
  lead : d.digits.head? = some '0' → d.digits = ['0'] ∧ d.point = 1
  value : nearestDecimal (Nat.ofDigitChars 10 d.digits 0) (d.point - d.digits.length) = k

theorem spells_dropTrailingZeros {k c : Nat} {grid : Int} (hk : k ≠ 0) (hvalue : nearestDecimal c grid = k) :
    (Digits.mk (dropTrailingZeros (Nat.toDigits 10 c)) ((Nat.toDigits 10 c).length + grid)).Spells k := by
  have hc : c ≠ 0 := by
    rintro rfl
    exact hk (hvalue.symm.trans (nearestDecimal_zero grid))
  obtain ⟨zeros, hsplit⟩ := exists_dropTrailingZeros (Nat.toDigits 10 c)
  generalize dropTrailingZeros (Nat.toDigits 10 c) = digits at hsplit
  have hhead : digits ≠ [] ∧ digits.head? ≠ some '0' := by
    have hfirst := head?_toDigits hc
    rw [hsplit] at hfirst
    cases digits with
    | cons c digits => exact ⟨by simp, hfirst⟩
    | nil =>
      -- zeros alone would have a zero in front
      cases zeros with
      | zero => exact absurd hsplit Nat.toDigits_ne_nil
      | succ zeros => exact absurd rfl hfirst
  have hlength : (Nat.toDigits 10 c).length = digits.length + zeros := by
    rw [hsplit, List.length_append, List.length_replicate]
  refine ⟨hhead.1, fun d hd => ?_, fun hzero => absurd hzero hhead.2, ?_⟩
  · have hmem : d ∈ Nat.toDigits 10 c := by
      rw [hsplit]
      exact List.mem_append_left _ hd
    exact Nat.isDigit_of_mem_toDigits (by decide) (by decide) hmem
  · have hexponent : ((Nat.toDigits 10 c).length : Int) + grid - digits.length = grid + zeros := by omega
    dsimp only
    rw [hexponent, ← nearestDecimal_zeros, ← hsplit, Nat.ofDigitChars_ten_toDigits, hvalue]

theorem decimalPoint_bound (k : Nat) : -1073 ≤ decimalPoint k := by
  have hlength : 0 < (Nat.toDigits 10 (units k * Nat.pow 10 400 / Nat.pow 2 1074)).length := Nat.length_toDigits_pos
  unfold decimalPoint
  omega

theorem spells_shortest (rule : HalfRule) (k : Nat) : (shortest rule k).Spells k := by
  unfold shortest
  split
  · rename_i hzero
    exact ⟨by simp, by simp, by simp, by rw [hzero]; exact nearestDecimal_zero _⟩
  · rename_i hzero
    have hbound := decimalPoint_bound k
    exact spells_dropTrailingZeros hzero
      (nearestDecimal_searchGrids rule k (decimalPoint k + 1073).toNat (decimalPoint k - 1) (by omega))

end Binary64

namespace Literal

theorem isWhole_iff {digits : List Char} :
    isWhole digits = true ↔
      digits ≠ [] ∧ (∀ c ∈ digits, c.isDigit = true) ∧ (digits.head? = some '0' → digits = ['0']) := by
  cases digits with
  | nil => simp [isWhole]
  | cons c rest =>
    cases rest with
    | nil => simp [isWhole]
    | cons d rest =>
      simp only [isWhole, ne_eq, decide_not, Bool.and_eq_true, Bool.not_eq_true', decide_eq_false_iff_not,
        List.all_eq_true, List.forall_mem_cons, List.head?_cons, Option.some.injEq, reduceCtorEq, not_false_eq_true,
        true_and, List.cons.injEq, and_false, imp_false]
      exact and_right_comm

theorem isDigits_iff {digits : List Char} :
    isDigits digits = true ↔ digits ≠ [] ∧ ∀ c ∈ digits, c.isDigit = true := by
  simp [isDigits]

theorem isDigit_of_isWhole {digits : List Char} (h : isWhole digits = true) : ∀ c ∈ digits, c.isDigit = true :=
  (isWhole_iff.1 h).2.1

/-- Each part of the literal is one that can be written down. -/
structure IsWellFormed (l : Literal) : Prop where
  whole : isWhole l.whole = true
  fraction : ∀ digits ∈ l.fraction, isDigits digits = true
  exponent : ∀ e ∈ l.exponent, isDigits e.2 = true

/-! ## The characters of a literal -/

theorem mem_of_mem_sign {sign : ExponentSign} {c : Char} (h : c ∈ sign.chars) : c ∈ ['-', '+', '.', 'e'] := by
  cases sign with
  | bare => cases h
  | plus =>
    obtain rfl : c = '+' := List.mem_singleton.1 h
    simp
  | minus =>
    obtain rfl : c = '-' := List.mem_singleton.1 h
    simp

theorem isDigit_or_mem_of_mem_chars {l : Literal} (hl : l.IsWellFormed) :
    ∀ c ∈ l.chars, c.isDigit = true ∨ c ∈ ['-', '+', '.', 'e'] := by
  obtain ⟨negative, whole, fraction, exponent⟩ := l
  intro c hc
  simp only [chars, List.mem_append] at hc
  rcases hc with ((hsign | hwhole) | hfraction) | hexponent
  · cases negative with
    | true => exact .inr (by simp [List.mem_singleton.1 hsign])
    | false => cases hsign
  · exact .inl (isDigit_of_isWhole hl.whole c hwhole)
  · cases fraction with
    | none => cases hfraction
    | some digits =>
      rcases List.mem_cons.1 hfraction with rfl | hdigit
      · exact .inr (by simp)
      · exact .inl ((isDigits_iff.1 (hl.fraction digits rfl)).2 c hdigit)
  · cases exponent with
    | none => cases hexponent
    | some e =>
      rcases List.mem_cons.1 hexponent with rfl | hrest
      · exact .inr (by simp)
      · rcases List.mem_append.1 hrest with hsign | hdigit
        · exact .inr (mem_of_mem_sign hsign)
        · exact .inl ((isDigits_iff.1 (hl.exponent e rfl)).2 c hdigit)

/-- A literal begins with a minus sign or a digit. -/
theorem exists_chars_eq_cons {l : Literal} (hl : l.IsWellFormed) :
    ∃ c cs, l.chars = c :: cs ∧ (c = '-' ∨ c.isDigit = true) := by
  obtain ⟨negative, whole, fraction, exponent⟩ := l
  obtain ⟨hne, hdigit, -⟩ := isWhole_iff.1 hl.whole
  cases negative with
  | true => exact ⟨'-', _, rfl, .inl rfl⟩
  | false =>
    cases whole with
    | nil => exact absurd rfl hne
    | cons c whole => exact ⟨c, _, rfl, .inr (hdigit c List.mem_cons_self)⟩

/-! ## Reading the characters of a literal -/

/-- Digits end where the text ends or goes on with something else. -/
theorem takeWhile_isDigit {digits rest : List Char} (hdigits : ∀ c ∈ digits, c.isDigit = true)
    (hrest : rest.takeWhile Char.isDigit = []) : (digits ++ rest).takeWhile Char.isDigit = digits := by
  rw [List.takeWhile_append_of_pos hdigits, hrest, List.append_nil]

theorem dropWhile_isDigit {digits rest : List Char} (hdigits : ∀ c ∈ digits, c.isDigit = true)
    (hrest : rest.takeWhile Char.isDigit = []) : (digits ++ rest).dropWhile Char.isDigit = rest := by
  rw [List.dropWhile_append_of_pos hdigits]
  calc rest.dropWhile Char.isDigit = rest.takeWhile Char.isDigit ++ rest.dropWhile Char.isDigit := by
        rw [hrest, List.nil_append]
    _ = rest := List.takeWhile_append_dropWhile

theorem takeWhile_exponentChars (e : Option (ExponentSign × List Char)) :
    (exponentChars e).takeWhile Char.isDigit = [] := by
  cases e with
  | none => rfl
  | some e => rfl

theorem takeWhile_fractionChars (f : Option (List Char)) (e : Option (ExponentSign × List Char)) :
    (fractionChars f ++ exponentChars e).takeWhile Char.isDigit = [] := by
  cases f with
  | none => exact takeWhile_exponentChars e
  | some digits => rfl

theorem ne_cons_of_isDigits {digits : List Char} (h : ∀ c ∈ digits, c.isDigit = true) {c : Char}
    (hc : c.isDigit = false) (rest : List Char) : digits ≠ c :: rest := by
  rintro rfl
  rw [h c List.mem_cons_self] at hc
  cases hc

theorem readExponent?_exponentChars {e : Option (ExponentSign × List Char)} (h : ∀ x ∈ e, isDigits x.2 = true) :
    readExponent? (exponentChars e) = some e := by
  cases e with
  | none => rfl
  | some e =>
    obtain ⟨sign, digits⟩ := e
    have hdigits : isDigits digits = true := h _ rfl
    have hall := (isDigits_iff.1 hdigits).2
    cases sign with
    | plus => simp [exponentChars, readExponent?, ExponentSign.chars, hdigits]
    | minus => simp [exponentChars, readExponent?, ExponentSign.chars, hdigits]
    | bare =>
      -- what follows the `e` is a digit, and so no sign
      have hplus := ne_cons_of_isDigits hall (show '+'.isDigit = false from rfl)
      have hminus := ne_cons_of_isDigits hall (show '-'.isDigit = false from rfl)
      simp [exponentChars, readExponent?, ExponentSign.chars, hdigits]

theorem readFraction?_none (negative : Bool) (whole : List Char) (e : Option (ExponentSign × List Char)) :
    readFraction? negative whole (exponentChars e) =
      (readExponent? (exponentChars e)).map (⟨negative, whole, none, ·⟩) := by
  cases e with
  | none => rfl
  | some e => rfl

theorem readFraction?_chars (negative : Bool) (whole : List Char) {f : Option (List Char)}
    {e : Option (ExponentSign × List Char)} (hf : ∀ digits ∈ f, isDigits digits = true)
    (he : ∀ x ∈ e, isDigits x.2 = true) :
    readFraction? negative whole (fractionChars f ++ exponentChars e) = some ⟨negative, whole, f, e⟩ := by
  cases f with
  | none => rw [fractionChars, List.nil_append, readFraction?_none, readExponent?_exponentChars he, Option.map_some]
  | some digits =>
    obtain ⟨hne, hall⟩ := isDigits_iff.1 (hf digits rfl)
    have htake := takeWhile_isDigit hall (takeWhile_exponentChars e)
    have hdrop := dropWhile_isDigit hall (takeWhile_exponentChars e)
    simp only [fractionChars, List.cons_append, readFraction?, htake, hdrop, readExponent?_exponentChars he]
    simp [hne]

theorem readUnsigned?_chars (negative : Bool) {whole : List Char} {f : Option (List Char)}
    {e : Option (ExponentSign × List Char)} (hl : (Literal.mk negative whole f e).IsWellFormed) :
    readUnsigned? negative (whole ++ (fractionChars f ++ exponentChars e)) = some ⟨negative, whole, f, e⟩ := by
  have hall := isDigit_of_isWhole hl.whole
  have htake := takeWhile_isDigit hall (takeWhile_fractionChars f e)
  have hdrop := dropWhile_isDigit hall (takeWhile_fractionChars f e)
  simp only [readUnsigned?, htake, hdrop, if_pos hl.whole,
    readFraction?_chars negative whole hl.fraction hl.exponent]

theorem ofChars?_of_ne_minus {cs : List Char} (h : ∀ rest, cs ≠ '-' :: rest) :
    ofChars? cs = readUnsigned? false cs := by
  unfold ofChars?
  split
  · rename_i rest
    exact absurd rfl (h rest)
  · rfl

/-- A literal is read back from its text. -/
theorem ofChars?_chars {l : Literal} (h : l.IsWellFormed) : ofChars? l.chars = some l := by
  obtain ⟨negative, whole, f, e⟩ := l
  have hread := readUnsigned?_chars negative h
  cases negative with
  | true =>
    simp only [chars, List.append_assoc]
    exact hread
  | false =>
    obtain ⟨hne, hall, -⟩ := isWhole_iff.1 h.whole
    have hminus : ∀ rest, whole ++ (fractionChars f ++ exponentChars e) ≠ '-' :: rest := by
      intro rest hcs
      cases whole with
      | nil => exact hne rfl
      | cons c whole =>
        obtain rfl : c = '-' := (List.cons.inj hcs).1
        exact absurd (hall '-' List.mem_cons_self) (by decide)
    simp only [chars, List.append_assoc]
    exact (ofChars?_of_ne_minus hminus).trans hread

/-! ## Natural numbers -/

theorem isDigits_toDigits (n : Nat) : isDigits (Nat.toDigits 10 n) = true :=
  isDigits_iff.2 ⟨Nat.toDigits_ne_nil, fun _ hc => Nat.isDigit_of_mem_toDigits (by decide) (by decide) hc⟩

theorem isWellFormed_ofNat (n : Nat) : (ofNat n).IsWellFormed where
  whole := by
    refine isWhole_iff.2 ⟨Nat.toDigits_ne_nil, (isDigits_iff.1 (isDigits_toDigits n)).2, fun hhead => ?_⟩
    by_cases hn : n = 0
    · rw [hn]
      exact Nat.toDigits_zero 10
    · exact absurd hhead (Binary64.head?_toDigits hn)
  fraction := by simp [ofNat]
  exponent := by simp [ofNat]

theorem natural?_ofNat (n : Nat) : (ofNat n).natural? = some n := by
  simp [natural?, ofNat, Nat.ofDigitChars_ten_toDigits]

/-- A natural number of 64 bits can also be read as a double-precision number. -/
theorem isSome_value?_ofNat {n : Nat} (hn : n < Nat.pow 2 64) : (ofNat n).value?.isSome = true := by
  have hdecimal : (ofNat n).value? = Binary64.ofDecimal? false n 0 := by
    simp [value?, ofNat, exponentValue, Nat.ofDigitChars_ten_toDigits]
  rw [hdecimal, Binary64.ofDecimal?_eq, dif_pos (Binary64.nearestDecimal_natural_lt hn)]
  rfl

/-! ## Double-precision numbers -/

section Layouts

variable {d : Binary64.Digits} {k : Fin Binary64.magnitudes} (hd : d.Spells k)

theorem value?_of_nearestDecimal {l : Literal}
    (h : Binary64.nearestDecimal (Nat.ofDigitChars 10 (l.whole ++ l.fraction.getD []) 0)
      (exponentValue l.exponent - (l.fraction.getD []).length) = k) :
    l.value? = some (.finite l.negative k) :=
  Binary64.ofDecimal?_of_nearestDecimal h l.negative

theorem isDigit_zeros (n : Nat) : ∀ c ∈ List.replicate n '0', c.isDigit = true := by
  intro c hc
  rw [(List.mem_replicate.1 hc).2]
  rfl

include hd

theorem isWellFormed_positional (pointZero negative : Bool) :
    (positional pointZero negative d.digits d.point).IsWellFormed := by
  obtain ⟨hne, hall, hlead, -⟩ := hd
  unfold positional
  split
  · refine ⟨rfl, fun fraction hf => ?_, by simp⟩
    obtain rfl : _ = fraction := Option.some.inj hf
    refine isDigits_iff.2 ⟨by simp [hne], fun c hc => ?_⟩
    rcases List.mem_append.1 hc with hzero | hdigit
    · exact isDigit_zeros _ c hzero
    · exact hall c hdigit
  · rename_i hpoint
    split
    · refine ⟨isWhole_iff.2 ⟨by simp [hne], fun c hc => ?_, fun hhead => ?_⟩, fun fraction hf => ?_, by simp⟩
      · rcases List.mem_append.1 hc with hdigit | hzero
        · exact hall c hdigit
        · exact isDigit_zeros _ c hzero
      · -- only the decimal zero starts with a zero, and it is written with one digit
        rw [List.head?_append, List.head?_eq_some_head hne, Option.some_or, ← List.head?_eq_some_head hne] at hhead
        obtain ⟨hzero, hone⟩ := hlead hhead
        rw [hzero, hone]
        rfl
      · cases pointZero with
        | true =>
          obtain rfl : ['0'] = fraction := Option.some.inj hf
          rfl
        | false => cases hf
    · rename_i hlong
      have htake : d.digits.take d.point.toNat ≠ [] := by
        simp only [ne_eq, List.take_eq_nil_iff, hne, or_false]
        omega
      refine ⟨isWhole_iff.2 ⟨htake, fun c hc => hall c (List.mem_of_mem_take hc), fun hhead => ?_⟩,
        fun fraction hf => ?_, by simp⟩
      · rw [List.head?_take, if_neg (by omega)] at hhead
        obtain ⟨hzero, hone⟩ := hlead hhead
        rw [hzero, hone] at hlong
        exact absurd (Nat.le_refl 1) hlong
      · obtain rfl : _ = fraction := Option.some.inj hf
        refine isDigits_iff.2 ⟨?_, fun c hc => hall c (List.mem_of_mem_drop hc)⟩
        simp only [ne_eq, List.drop_eq_nil_iff]
        omega

theorem value?_positional (pointZero negative : Bool) :
    (positional pointZero negative d.digits d.point).value? = some (.finite negative k) := by
  obtain ⟨-, -, -, hvalue⟩ := hd
  unfold positional
  split
  · refine value?_of_nearestDecimal (hvalue ▸ ?_)
    have hsignificand : Nat.ofDigitChars 10 (['0'] ++ (List.replicate (-d.point).toNat '0' ++ d.digits)) 0 =
        Nat.ofDigitChars 10 d.digits 0 := by
      rw [Nat.ofDigitChars_append, Nat.ofDigitChars_append, Nat.ofDigitChars_replicate_zero]
      rfl
    dsimp only [Option.getD_some]
    rw [hsignificand, List.length_append, List.length_replicate]
    congr 1
    simp only [exponentValue]
    omega
  · rename_i hpoint
    split
    · rename_i hshort
      cases pointZero with
      | true =>
        have hzeros : d.digits ++ List.replicate (d.point.toNat - d.digits.length) '0' ++ ['0'] =
            d.digits ++ List.replicate (d.point.toNat - d.digits.length + 1) '0' := by
          rw [List.append_assoc, List.replicate_succ']
        refine value?_of_nearestDecimal (hvalue ▸ ?_)
        simp only [if_true, Option.getD_some, exponentValue]
        rw [hzeros, Binary64.nearestDecimal_zeros]
        congr 1
        simp only [List.length_singleton]
        omega
      | false =>
        refine value?_of_nearestDecimal (hvalue ▸ ?_)
        simp only [Bool.false_eq_true, if_false, Option.getD_none, exponentValue]
        rw [List.append_nil, Binary64.nearestDecimal_zeros]
        congr 1
        simp only [List.length_nil]
        omega
    · rename_i hlong
      refine value?_of_nearestDecimal (hvalue ▸ ?_)
      dsimp only [Option.getD_some]
      rw [List.take_append_drop, List.length_drop]
      congr 1
      simp only [exponentValue]
      omega

theorem isWellFormed_scientific (negative : Bool) : (scientific negative d.digits d.point).IsWellFormed := by
  obtain ⟨hne, hall, hlead, -⟩ := hd
  refine ⟨isWhole_iff.2 ⟨by simp [scientific, hne], fun c hc => hall c (List.mem_of_mem_take hc), fun hhead => ?_⟩,
    fun fraction hf => ?_, fun e he => ?_⟩
  · simp only [scientific, List.head?_take] at hhead
    simp [scientific, (hlead hhead).1]
  · cases hrest : d.digits.drop 1 with
    | nil => simp [scientific, hrest] at hf
    | cons c rest =>
      obtain rfl : c :: rest = fraction := by simpa [scientific, hrest] using hf
      refine isDigits_iff.2 ⟨by simp, fun c hc => hall c (List.mem_of_mem_drop (hrest ▸ hc))⟩
  · obtain rfl : _ = e := Option.some.inj he
    exact isDigits_toDigits _

theorem value?_scientific (negative : Bool) :
    (scientific negative d.digits d.point).value? = some (.finite negative k) := by
  obtain ⟨hne, -, -, hvalue⟩ := hd
  have hfraction : (scientific negative d.digits d.point).fraction.getD [] = d.digits.drop 1 := by
    cases hrest : d.digits.drop 1 with
    | nil => simp [scientific, hrest]
    | cons c rest => simp [scientific, hrest]
  have hexponent : exponentValue (scientific negative d.digits d.point).exponent = d.point - 1 := by
    simp only [scientific]
    split
    · simp only [exponentValue, Nat.ofDigitChars_ten_toDigits]
      omega
    · simp only [exponentValue, Nat.ofDigitChars_ten_toDigits]
      omega
  have hlength : 0 < d.digits.length := List.length_pos_iff.2 hne
  refine value?_of_nearestDecimal (hvalue ▸ ?_)
  rw [hfraction, hexponent, show (scientific negative d.digits d.point).whole = d.digits.take 1 from rfl,
    List.take_append_drop, List.length_drop]
  congr 1
  omega

end Layouts

/-- The text of a finite number can be written down, and it is read as the number, whatever the layout. -/
theorem ofBinary64?_eq_some {layout : Layout} {x : Binary64} {l : Literal} (h : ofBinary64? layout x = some l) :
    l.IsWellFormed ∧ l.value? = some x := by
  cases x with
  | nan => cases h
  | infinity negative => cases h
  | finite negative k =>
    have hd := Binary64.spells_shortest layout.half k
    obtain rfl : _ = l := Option.some.inj h
    split
    · exact ⟨isWellFormed_positional hd _ _, value?_positional hd _ _⟩
    · exact ⟨isWellFormed_scientific hd _, value?_scientific hd _⟩

end Literal

end IonSchedule
