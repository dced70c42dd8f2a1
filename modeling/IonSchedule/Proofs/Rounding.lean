import IonSchedule.Binary64

/-! # Rounding decimals

The magnitude nearest to a quotient depends on its value alone, not on how the quotient is written, and the size
of a magnitude is rounded to that magnitude. Reading a decimal is therefore rounding: the cases that keep its
powers of ten small give what rounding gives.
-/
namespace IonSchedule.Binary64

theorem compare_mul_right {a : Nat} (ha : 0 < a) (x y : Nat) : compare (x * a) (y * a) = compare x y := by
  rcases Nat.lt_trichotomy x y with h | h | h
  · rw [Nat.compare_eq_lt.2 h, Nat.compare_eq_lt.2 (Nat.mul_lt_mul_of_pos_right h ha)]
  · rw [h, Nat.compare_eq_eq.2 rfl, Nat.compare_eq_eq.2 rfl]
  · rw [Nat.compare_eq_gt.2 h, Nat.compare_eq_gt.2 (Nat.mul_lt_mul_of_pos_right h ha)]

theorem roundHalfEven_mul_right {a : Nat} (ha : 0 < a) (num den : Nat) :
    roundHalfEven (num * a) (den * a) = roundHalfEven num den := by
  have hcompare : compare (2 * (num % den * a)) (den * a) = compare (2 * (num % den)) den := by
    rw [← Nat.mul_assoc, compare_mul_right ha]
  simp only [roundHalfEven, Nat.mul_div_mul_right _ _ ha, Nat.mul_mod_mul_right, hcompare]

theorem roundHalfEven_mul_self {den : Nat} (hden : 0 < den) (n : Nat) : roundHalfEven (n * den) den = n := by
  have hcompare : compare 0 den = .lt := Nat.compare_eq_lt.2 hden
  simp only [roundHalfEven, Nat.mul_div_cancel _ hden, Nat.mul_mod_left, Nat.mul_zero, hcompare]

theorem roundHalfEven_of_lt_half {num den : Nat} (h : 2 * num < den) : roundHalfEven num den = 0 := by
  have hlt : num < den := by omega
  have hcompare : compare (2 * num) den = .lt := Nat.compare_eq_lt.2 h
  simp only [roundHalfEven, Nat.div_eq_of_lt hlt, Nat.mod_eq_of_lt hlt, hcompare]

theorem roundHalfEven_le (num den : Nat) : roundHalfEven num den ≤ num / den + 1 := by
  unfold roundHalfEven
  split
  · exact Nat.le_succ _
  · exact Nat.le_refl _
  · dsimp only
    split
    · exact Nat.le_succ _
    · exact Nat.le_refl _

theorem two_pow_pos (k : Nat) : 0 < Nat.pow 2 k := Nat.pow_pos (by decide)

theorem unit_pos : 0 < Nat.pow 2 1074 := by apply two_pow_pos

theorem two_pow_add (j k : Nat) : Nat.pow 2 (j + k) = Nat.pow 2 j * Nat.pow 2 k := Nat.pow_add 2 j k

theorem two_mul_two_pow (j k : Nat) : 2 * (Nat.pow 2 j * Nat.pow 2 k) = Nat.pow 2 (j + k + 1) := by
  rw [← two_pow_add, Nat.mul_comm]
  rfl

theorem ten_pow_pos (k : Nat) : 0 < Nat.pow 10 k := Nat.pow_pos (by decide)

theorem nearest_mul_right {a : Nat} (ha : 0 < a) (num den : Nat) :
    nearest (num * a) (den * a) = nearest num den := by
  have hscaled : num * a * Nat.pow 2 1074 = num * Nat.pow 2 1074 * a := Nat.mul_right_comm _ _ _
  have hden : ∀ shift, den * a * Nat.pow 2 shift = den * Nat.pow 2 shift * a := fun _ => Nat.mul_right_comm _ _ _
  simp only [nearest, hscaled, Nat.mul_div_mul_right _ _ ha, hden, roundHalfEven_mul_right ha]

/-- Equal quotients are rounded to the same magnitude. -/
theorem nearest_congr {num den num' den' : Nat} (hden : 0 < den) (hden' : 0 < den') (h : num * den' = num' * den) :
    nearest num den = nearest num' den' := by
  calc nearest num den = nearest (num * den') (den * den') := (nearest_mul_right hden' num den).symm
    _ = nearest (num' * den) (den' * den) := by rw [h, Nat.mul_comm den den']
    _ = nearest num' den' := nearest_mul_right hden num' den'

theorem nearest_of_lt_half {num den : Nat} (h : 2 * (num * Nat.pow 2 1074) < den) : nearest num den = 0 := by
  have hzero : num * Nat.pow 2 1074 / den = 0 := Nat.div_eq_of_lt (by omega)
  have hshift : Nat.log2 0 + 1 - 53 = 0 := by decide
  have hone : Nat.pow 2 0 = 1 := rfl
  simp only [nearest, hzero, hshift, hone, Nat.mul_one, Nat.zero_mul, Nat.zero_add]
  exact roundHalfEven_of_lt_half h

theorem nearest_zero {den : Nat} (hden : 0 < den) : nearest 0 den = 0 := nearest_of_lt_half (by omega)

/-- A significand of 53 bits keeps its length when it is shifted. -/
theorem log2_mul_two_pow {m : Nat} (hlow : Nat.pow 2 52 ≤ m) (hhigh : m < Nat.pow 2 53) (e : Nat) :
    (m * Nat.pow 2 e).log2 = 52 + e := by
  have hm : 0 < m := Nat.lt_of_lt_of_le (two_pow_pos 52) hlow
  have hpos : 0 < m * Nat.pow 2 e := Nat.mul_pos hm (two_pow_pos e)
  rw [Nat.log2_eq_iff (Nat.ne_of_gt hpos), show 52 + e + 1 = 53 + e by omega, Nat.pow_add, Nat.pow_add]
  exact ⟨Nat.mul_le_mul_right _ hlow, Nat.mul_lt_mul_of_pos_right hhigh (two_pow_pos e)⟩

theorem nearest_of_div {num den q : Nat} (h : num * Nat.pow 2 1074 / den = q) :
    nearest num den = (q.log2 + 1 - 53) * Nat.pow 2 52 +
      roundHalfEven (num * Nat.pow 2 1074) (den * Nat.pow 2 (q.log2 + 1 - 53)) := by
  subst h
  rfl

theorem nearest_of_lt {k : Nat} (hk : k < Nat.pow 2 53) : nearest k (Nat.pow 2 1074) = k := by
  have hshift : k.log2 + 1 - 53 = 0 := by
    by_cases hzero : k = 0
    · rw [hzero]
      decide
    · have hlog : k.log2 < 53 := (Nat.log2_lt hzero).2 hk
      omega
  have hone : Nat.pow 2 0 = 1 := rfl
  have hunit := unit_pos
  rw [nearest_of_div (Nat.mul_div_cancel k hunit), hshift]
  generalize Nat.pow 2 1074 = unit at hunit
  rw [hone, Nat.mul_one, Nat.zero_mul, Nat.zero_add, roundHalfEven_mul_self hunit]

theorem nearest_mul_two_pow {m : Nat} (hlow : Nat.pow 2 52 ≤ m) (hhigh : m < Nat.pow 2 53) (e : Nat) :
    nearest (m * Nat.pow 2 e) (Nat.pow 2 1074) = e * Nat.pow 2 52 + m := by
  have hshift : 52 + e + 1 - 53 = e := by omega
  rw [nearest_of_div (Nat.mul_div_cancel _ unit_pos), log2_mul_two_pow hlow hhigh, hshift]
  have hproduct : ∀ unit, m * Nat.pow 2 e * unit = m * (unit * Nat.pow 2 e) := by
    intro unit
    rw [Nat.mul_assoc, Nat.mul_comm unit]
  rw [hproduct, roundHalfEven_mul_self (Nat.mul_pos unit_pos (two_pow_pos e))]

/-- The size of a magnitude is rounded to the magnitude. -/
theorem nearest_units (k : Nat) : nearest (units k) (Nat.pow 2 1074) = k := by
  unfold units
  split
  · rename_i hk
    exact nearest_of_lt hk
  · rename_i hk
    have hmod : k % Nat.pow 2 52 < Nat.pow 2 52 := Nat.mod_lt _ (two_pow_pos 52)
    have hhigh : Nat.pow 2 52 + k % Nat.pow 2 52 < Nat.pow 2 53 := Nat.add_lt_add_left hmod (Nat.pow 2 52)
    rw [nearest_mul_two_pow (Nat.le_add_right _ _) hhigh]
    -- the first two binades are those without a shift
    have hbinades : 2 ≤ k / Nat.pow 2 52 := (Nat.le_div_iff_mul_le (two_pow_pos 52)).2 (Nat.le_of_not_lt hk)
    calc (k / Nat.pow 2 52 - 1) * Nat.pow 2 52 + (Nat.pow 2 52 + k % Nat.pow 2 52)
        = (k / Nat.pow 2 52 - 1 + 1) * Nat.pow 2 52 + k % Nat.pow 2 52 := by rw [Nat.succ_mul, Nat.add_assoc]
      _ = k / Nat.pow 2 52 * Nat.pow 2 52 + k % Nat.pow 2 52 := by rw [Nat.sub_add_cancel (by omega)]
      _ = k := Nat.div_add_mod' k (Nat.pow 2 52)

/-- A factor of ten may move between significand and exponent. -/
theorem nearestDecimal_mul_pow (significand shift : Nat) (exponent : Int) :
    nearestDecimal (significand * Nat.pow 10 shift) exponent = nearestDecimal significand (exponent + shift) := by
  refine nearest_congr (ten_pow_pos _) (ten_pow_pos _) ?_
  have hexponents : shift + exponent.toNat + (-(exponent + shift)).toNat = (exponent + shift).toNat +
      (-exponent).toNat := by
    omega
  simp only [Nat.pow_eq]
  rw [Nat.mul_assoc, Nat.mul_assoc, Nat.mul_assoc, ← Nat.pow_add, ← Nat.pow_add, ← Nat.pow_add, ← Nat.add_assoc,
    hexponents]

theorem nearestDecimal_zero (exponent : Int) : nearestDecimal 0 exponent = 0 := by
  unfold nearestDecimal
  rw [Nat.zero_mul]
  exact nearest_zero (ten_pow_pos _)

theorem two_pow_le_ten_pow (n : Nat) : Nat.pow 2 (3 * n) ≤ Nat.pow 10 n := by
  rw [Nat.pow_eq, Nat.pow_mul]
  exact Nat.pow_le_pow_left (by decide) n

theorem le_nearest {num den e : Nat} (h : Nat.pow 2 e ≤ num / den) :
    (e + 1022) * Nat.pow 2 52 ≤ nearest num den := by
  rw [nearest_of_div rfl]
  generalize hunit : 1074 = unit
  have hscaled : Nat.pow 2 (e + unit) ≤ num * Nat.pow 2 unit / den :=
    calc Nat.pow 2 (e + unit) = Nat.pow 2 e * Nat.pow 2 unit := two_pow_add e unit
      _ ≤ num / den * Nat.pow 2 unit := Nat.mul_le_mul_right _ h
      _ ≤ num * Nat.pow 2 unit / den := by
        rw [Nat.mul_comm, Nat.mul_comm num]
        exact Nat.mul_div_le_mul_div_assoc _ _ _
  have hne : num * Nat.pow 2 unit / den ≠ 0 := Nat.ne_of_gt (Nat.lt_of_lt_of_le (two_pow_pos (e + unit)) hscaled)
  have hlog : e + unit ≤ (num * Nat.pow 2 unit / den).log2 := (Nat.le_log2 hne).2 hscaled
  exact Nat.le_trans (Nat.mul_le_mul_right _ (by omega)) (Nat.le_add_right _ _)

theorem nearest_le {num den e : Nat} (h : num / den < Nat.pow 2 e) :
    nearest num den ≤ (e + 1023) * Nat.pow 2 52 := by
  rw [nearest_of_div rfl]
  generalize hunit : 1074 = unit
  have hscaled : num * Nat.pow 2 unit / den < Nat.pow 2 (e + unit) := by
    by_cases hden : den = 0
    · rw [hden, Nat.div_zero]
      exact two_pow_pos _
    · have hpos : 0 < den := Nat.pos_of_ne_zero hden
      rw [Nat.div_lt_iff_lt_mul hpos] at h ⊢
      rw [two_pow_add, Nat.mul_right_comm]
      exact Nat.mul_lt_mul_of_pos_right h (two_pow_pos unit)
  have hround :=
    roundHalfEven_le (num * Nat.pow 2 unit) (den * Nat.pow 2 ((num * Nat.pow 2 unit / den).log2 + 1 - 53))
  rw [← Nat.div_div_eq_div_mul] at hround
  generalize num * Nat.pow 2 unit / den = q at hscaled hround ⊢
  have hlog : q.log2 + 1 - 53 ≤ e + 1021 := by
    by_cases hq : q = 0
    · rw [hq, Nat.log2_zero]
      omega
    · have := (Nat.log2_lt hq).2 hscaled
      omega
  have hquotient : q / Nat.pow 2 (q.log2 + 1 - 53) < Nat.pow 2 53 := by
    rw [Nat.div_lt_iff_lt_mul (two_pow_pos _), ← two_pow_add]
    exact Nat.lt_of_lt_of_le Nat.lt_log2_self (Nat.pow_le_pow_right (by decide) (by omega))
  calc (q.log2 + 1 - 53) * Nat.pow 2 52 + _ ≤ (e + 1021) * Nat.pow 2 52 + 2 * Nat.pow 2 52 :=
        Nat.add_le_add (Nat.mul_le_mul_right _ hlog) (Nat.le_trans hround hquotient)
    _ = (e + 1023) * Nat.pow 2 52 := by rw [← Nat.add_mul]

/-- Natural numbers of 64 bits are far from the largest finite number. -/
theorem nearestDecimal_natural_lt {n : Nat} (hn : n < Nat.pow 2 64) : nearestDecimal n 0 < magnitudes := by
  have hsize : n * Nat.pow 10 0 / Nat.pow 10 0 < Nat.pow 2 64 := by
    rw [show Nat.pow 10 0 = 1 from rfl, Nat.mul_one, Nat.div_one]
    exact hn
  exact Nat.lt_of_le_of_lt (nearest_le hsize) (by decide)
/-- Decimals of a large exponent lie past every finite number. -/
theorem magnitudes_le_nearestDecimal {significand : Nat} {exponent : Int} (hs : significand ≠ 0)
    (he : 400 < exponent) : magnitudes ≤ nearestDecimal significand exponent := by
  obtain ⟨e, rfl⟩ := Int.eq_ofNat_of_zero_le (show 0 ≤ exponent by omega)
  have hden : (-(e : Int)).toNat = 0 := by omega
  have hsize : Nat.pow 2 (3 * e) ≤ significand * Nat.pow 10 e / Nat.pow 10 0 := by
    rw [show Nat.pow 10 0 = 1 from rfl, Nat.div_one]
    exact Nat.le_trans (two_pow_le_ten_pow e) (Nat.le_mul_of_pos_left _ (Nat.pos_of_ne_zero hs))
  unfold nearestDecimal magnitudes
  rw [hden, Int.toNat_natCast]
  exact Nat.le_trans (Nat.mul_le_mul_right _ (by omega)) (le_nearest hsize)

/-- Decimals far below the least magnitude are rounded to zero. -/
theorem nearestDecimal_of_small {significand : Nat} {exponent : Int} (he : exponent + significand.log2 + 1 < -400) :
    nearestDecimal significand exponent = 0 := by
  obtain ⟨e, rfl⟩ : ∃ e : Nat, exponent = -e := ⟨exponent.natAbs, by omega⟩
  have hnum : (-(e : Int)).toNat = 0 := by omega
  have hden : (- -(e : Int)).toNat = e := by omega
  unfold nearestDecimal
  rw [hnum, hden]
  refine nearest_of_lt_half ?_
  rw [show Nat.pow 10 0 = 1 from rfl, Nat.mul_one]
  calc 2 * (significand * Nat.pow 2 1074)
      < 2 * (Nat.pow 2 (significand.log2 + 1) * Nat.pow 2 1074) :=
        Nat.mul_lt_mul_of_pos_left (Nat.mul_lt_mul_of_pos_right Nat.lt_log2_self unit_pos) (by decide)
    _ = Nat.pow 2 (significand.log2 + 1 + 1074 + 1) := by apply two_mul_two_pow
    _ ≤ Nat.pow 2 (3 * e) := Nat.pow_le_pow_right (by decide) (by omega)
    _ ≤ Nat.pow 10 e := two_pow_le_ten_pow e

/-- A decimal is read as the magnitude nearest to it, if that is a finite one. -/
theorem ofDecimal?_eq (negative : Bool) (significand : Nat) (exponent : Int) :
    ofDecimal? negative significand exponent =
      if h : nearestDecimal significand exponent < magnitudes
      then some (.finite negative ⟨nearestDecimal significand exponent, h⟩) else none := by
  have hpos : 0 < magnitudes := by decide
  unfold ofDecimal?
  split
  · rename_i hzero
    simp only [hzero, nearestDecimal_zero, hpos, dif_pos, zero]
  · rename_i hzero
    split
    · rename_i hlarge
      rw [dif_neg (Nat.not_lt_of_le (magnitudes_le_nearestDecimal hzero hlarge))]
    · split
      · rename_i hsmall
        simp only [nearestDecimal_of_small hsmall, hpos, dif_pos, zero]
      · rfl

theorem ofDecimal?_of_nearestDecimal {significand : Nat} {exponent : Int} {k : Fin magnitudes}
    (h : nearestDecimal significand exponent = k) (negative : Bool) :
    ofDecimal? negative significand exponent = some (.finite negative k) := by
  rw [ofDecimal?_eq, dif_pos (by rw [h]; exact k.isLt)]
  simp only [h]

end IonSchedule.Binary64
