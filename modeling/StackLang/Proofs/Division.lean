import Mathlib
import StackLang.Proofs.Rounding
import StackLang.Proofs.Truth

namespace StackLang
namespace Double

section Whole

variable {a b : ℕ}

/-- Whether rounding leaves the whole part of a quotient as it is. Up to 53 bits, the next whole
number must be further than half the gap between the doubles below it; in the middle of a gap of 1
the even one is taken. Beyond 53 bits, the bits in excess must be zero. -/
def Survives (a b : ℕ) : Prop :=
  if (a / b).size ≤ 53 then
    b < (b - a % b) * 2 ^ (54 - (a / b).size) ∨
      (a / b).size = 53 ∧ 2 * (a % b) = b ∧ 2 ∣ a / b
  else 2 ^ ((a / b).size - 53) ∣ a / b

theorem size_eq {n k : ℕ} (hlow : 2 ^ k ≤ n) (hhigh : n < 2 ^ (k + 1)) : n.size = k + 1 :=
  le_antisymm (Nat.size_le.2 hhigh) (Nat.lt_size.2 hlow)

theorem halfToEven_eq_iff {q r d : ℕ} :
    halfToEven q r d = q ↔ 2 * r < d ∨ (2 * r = d ∧ q % 2 = 0) := by
  unfold halfToEven
  split
  · exact iff_of_true rfl ‹_›
  · exact iff_of_false (Nat.succ_ne_self q) ‹_›

theorem halfToEven_of_lt {q r d : ℕ} (h : 2 * r < d) : halfToEven q r d = q := if_pos (.inl h)

theorem halfToEven_le (q r d : ℕ) : q ≤ halfToEven q r d ∧ halfToEven q r d ≤ q + 1 := by
  unfold halfToEven
  split <;> omega

theorem survives_of_size_eq (hb : b ≠ 0) (hsize : (a / b).size = 53) :
    halfToEven (a / b) (a % b) b = a / b ↔ Survives a b := by
  have hmod := Nat.mod_lt a (Nat.pos_of_ne_zero hb)
  rw [halfToEven_eq_iff, Survives, if_pos hsize.le, hsize, Nat.dvd_iff_mod_eq_zero]
  simp only [Nat.reduceSub, pow_one, true_and]
  omega

theorem survives_of_size_gt {j : ℕ} (hb : b ≠ 0) (hj : j ≠ 0) (hsize : (a / b).size = 53 + j) :
    halfToEven (a / (b * 2 ^ j)) (a % (b * 2 ^ j)) (b * 2 ^ j) * 2 ^ j = a / b ↔ Survives a b := by
  rw [Survives, if_neg (by omega), hsize, Nat.add_sub_cancel_left]
  refine ⟨Dvd.intro_left _, fun hdvd => ?_⟩
  -- nothing but the remainder of the division is rounded off
  have hmod : a % (b * 2 ^ j) = a % b := by
    rw [Nat.mod_mul, Nat.mod_eq_zero_of_dvd hdvd, Nat.mul_zero, Nat.add_zero]
  have hsmall : 2 * (a % b) < b * 2 ^ j :=
    calc 2 * (a % b) < 2 * b := by
          have := Nat.mod_lt a (Nat.pos_of_ne_zero hb)
          omega
      _ = b * 2 ^ 1 := by omega
      _ ≤ b * 2 ^ j := Nat.mul_le_mul_left b (Nat.pow_le_pow_right two_pos (by omega))
  rw [hmod, halfToEven_of_lt hsmall, ← Nat.div_div_eq_div_mul, Nat.div_mul_cancel hdvd]

theorem halfToEven_div_eq_iff {p : ℕ} (hb : b ≠ 0) (hp : p % 2 = 0) (hpos : 0 < p) :
    halfToEven (a * p / b) (a * p % b) b / p = a / b ↔ b < (b - a % b) * (2 * p) := by
  have hdiv : a * p / b / p = a / b := by
    rw [Nat.div_div_eq_div_mul, Nat.mul_div_mul_right a b hpos]
  obtain ⟨hfloor, hceil⟩ := (Nat.div_eq_iff hpos).1 hdiv
  have hrest : a * p % b < b := Nat.mod_lt _ (Nat.pos_of_ne_zero hb)
  obtain ⟨hdown, hup⟩ := halfToEven_le (a * p / b) (a * p % b) b
  -- the units that are missing up to the next whole number
  obtain ⟨k, hk⟩ : ∃ k, a / b * p + p = a * p / b + k := Nat.exists_eq_add_of_le (by omega)
  have hgap : b * k = a * p % b + (b - a % b) * p := by
    have hmod : a % b ≤ b := (Nat.mod_lt a (Nat.pos_of_ne_zero hb)).le
    have ha := Nat.div_add_mod a b
    have hap := Nat.div_add_mod (a * p) b
    zify [hmod] at *
    linear_combination -b * hk + p * ha - hap
  have hscale : (b - a % b) * (2 * p) = 2 * ((b - a % b) * p) := by ring
  rw [Nat.div_eq_iff hpos, hscale]
  obtain rfl | hk' : k = 1 ∨ 2 ≤ k := by omega
  · have hodd : a * p / b % 2 = 1 := by
      have : (a / b * p) % 2 = 0 := by rw [Nat.mul_mod, hp, Nat.mul_zero, Nat.zero_mod]
      omega
    have hsame : halfToEven (a * p / b) (a * p % b) b ≤ a / b * p + p - 1 ↔
        halfToEven (a * p / b) (a * p % b) b = a * p / b := by omega
    rw [hsame, halfToEven_eq_iff]
    omega
  · have hfar : b * 2 ≤ b * k := Nat.mul_le_mul_left b hk'
    omega

theorem survives_of_size_lt {s : ℕ} (hs : s ≠ 0) (hsize : (a / b).size + s = 53) :
    b < (b - a % b) * (2 * 2 ^ s) ↔ Survives a b := by
  rw [Survives, if_pos (by omega), or_iff_left (by omega), ← pow_succ',
    show 54 - (a / b).size = s + 1 by omega]

theorem survives_of_div_eq_zero {s : ℕ} (hs : 53 ≤ s) (hzero : a / b = 0)
    (hhigh : a * 2 ^ s < 2 ^ 53 * b) : b < (b - a % b) * (2 * 2 ^ s) ↔ Survives a b := by
  rw [Survives, hzero, Nat.size_zero, if_pos (by omega), or_iff_left (by omega), ← pow_succ']
  obtain rfl | hs : s = 53 ∨ 54 ≤ s := by omega
  · rfl
  · have hpow : 2 ^ 54 ≤ 2 ^ s := Nat.pow_le_pow_right two_pos hs
    have hhalf : 2 * (a % b) < b := by
      have := Nat.mod_le a b
      nlinarith
    have hlarge {k : ℕ} : b < (b - a % b) * 2 ^ (k + 1) :=
      calc b < (b - a % b) * 2 := by omega
        _ ≤ (b - a % b) * 2 ^ (k + 1) := by
          rw [pow_succ']
          exact Nat.mul_le_mul_left _ (Nat.le_mul_of_pos_right 2 (pow_pos two_pos k))
    exact iff_of_true hlarge hlarge

theorem inUnits_natCast (num den j : ℕ) :
    inUnits num den j = (num / (den * 2 ^ j), num % (den * 2 ^ j), den * 2 ^ j) := by
  simp [inUnits, twoPow]

theorem inUnits_neg_natCast (num den s : ℕ) :
    inUnits num den (-s) = (num * 2 ^ s / den, num * 2 ^ s % den, den) := by
  simp [inUnits, twoPow]

theorem fraction_natCast (m j : ℕ) : fraction m j = (m * 2 ^ j, 1) := by
  simp [fraction, twoPow]

theorem fraction_neg_natCast (m s : ℕ) : fraction m (-s) = (m, 2 ^ s) := by
  simp [fraction, twoPow]

theorem inUnits_exponent (hnum : a ≠ 0) (hden : b ≠ 0) :
    (inUnits a b (exponent a b)).1 < 2 ^ 53 ∧
      (2 ^ 52 ≤ (inUnits a b (exponent a b)).1 ∨ exponent a b = leastExponent) := by
  obtain ⟨hhigh, hlow⟩ := exponent_bounds hnum hden
  constructor
  · rw [inUnits_lt_iff]
    exact_mod_cast hhigh
  · refine hlow.imp_left fun hlow => ?_
    rw [← not_lt, inUnits_lt_iff]
    exact_mod_cast not_lt.2 hlow

section Exponent

variable (hnum : a ≠ 0) (hden : b ≠ 0)
include hnum hden

theorem floor_mantissa_natCast {j : ℕ} (he : exponent a b = j) :
    ⌊(mantissa a b * 2 ^ exponent a b : ℚ)⌋₊ = a / b ↔ Survives a b := by
  obtain ⟨hhigh, hlow⟩ := inUnits_exponent hnum hden
  have hlow := hlow.resolve_right (by unfold leastExponent; omega)
  rw [floor_fraction, mantissa]
  rw [he, inUnits_natCast] at hhigh hlow ⊢
  simp only [fraction_natCast, Nat.div_one, ← Nat.div_div_eq_div_mul] at hhigh hlow ⊢
  have hsize : (a / b).size = 53 + j := by
    rw [show 53 + j = 52 + j + 1 by omega]
    apply size_eq
    · rw [pow_add]
      exact (Nat.le_div_iff_mul_le (pow_pos two_pos j)).1 hlow
    · rw [show 52 + j + 1 = 53 + j by omega, pow_add]
      exact (Nat.div_lt_iff_lt_mul (pow_pos two_pos j)).1 hhigh
  rw [Nat.div_div_eq_div_mul]
  obtain rfl | hj := eq_or_ne j 0
  · simpa using survives_of_size_eq hden hsize
  · exact survives_of_size_gt hden hj hsize

theorem floor_mantissa_neg {s : ℕ} (hs : s ≠ 0) (he : exponent a b = -s) :
    ⌊(mantissa a b * 2 ^ exponent a b : ℚ)⌋₊ = a / b ↔ Survives a b := by
  obtain ⟨hhigh, hlow⟩ := inUnits_exponent hnum hden
  have heven : 2 ^ s % 2 = 0 := Nat.mod_eq_zero_of_dvd (dvd_pow_self 2 hs)
  have hpos : 0 < 2 ^ s := pow_pos two_pos s
  rw [floor_fraction, mantissa]
  rw [he, inUnits_neg_natCast] at hhigh hlow ⊢
  simp only [fraction_neg_natCast] at hhigh hlow ⊢
  rw [halfToEven_div_eq_iff hden heven hpos]
  have hdiv : a / b = a * 2 ^ s / b / 2 ^ s := by
    rw [Nat.div_div_eq_div_mul, Nat.mul_div_mul_right a b hpos]
  obtain h | h := le_or_gt 53 s
  · apply survives_of_div_eq_zero h
    · rw [hdiv]
      exact Nat.div_eq_of_lt (lt_of_lt_of_le hhigh (Nat.pow_le_pow_right two_pos h))
    · exact (Nat.div_lt_iff_lt_mul (Nat.pos_of_ne_zero hden)).1 hhigh
  · have hlow := hlow.resolve_right (by unfold leastExponent; omega)
    apply survives_of_size_lt hs
    have hsize : (a / b).size = 52 - s + 1 := by
      rw [hdiv]
      apply size_eq
      · rw [Nat.le_div_iff_mul_le hpos, ← pow_add, show 52 - s + s = 52 by omega]
        exact hlow
      · rw [Nat.div_lt_iff_lt_mul hpos, ← pow_add, show 52 - s + 1 + s = 53 by omega]
        exact hhigh
    omega

end Exponent

theorem survives_of_le (hb : b ≠ 0) (ha : a ≤ 2 ^ 53) : Survives a b := by
  have hdiv := Nat.div_add_mod a b
  have hmod := Nat.mod_lt a (Nat.pos_of_ne_zero hb)
  unfold Survives
  split
  · rename_i hsize
    left
    obtain hzero | hpos := Nat.eq_zero_or_pos (a / b)
    · rw [hzero, Nat.size_zero]
      rw [hzero] at hdiv
      omega
    · obtain ⟨k, hk⟩ : ∃ k, (a / b).size = k + 1 :=
        Nat.exists_eq_succ_of_ne_zero (Nat.size_eq_zero.not.2 hpos.ne')
      have hlow : 2 ^ k ≤ a / b := Nat.lt_size.1 (by omega)
      have hpow : 2 ^ (53 - k) * 2 ^ k = 2 ^ 53 := by
        rw [← pow_add, Nat.sub_add_cancel (by omega)]
      have htwo : 2 ≤ 2 ^ (53 - k) := Nat.le_self_pow (by omega) 2
      rw [hk, show 54 - (k + 1) = 53 - k by omega]
      have hle : b ≤ 2 ^ (53 - k) := by
        refine Nat.le_of_mul_le_mul_right ?_ (pow_pos two_pos k)
        calc b * 2 ^ k ≤ b * (a / b) := Nat.mul_le_mul_left b hlow
          _ ≤ 2 ^ 53 := by omega
          _ = 2 ^ (53 - k) * 2 ^ k := hpow.symm
      obtain hlt | heq := hle.lt_or_eq
      · exact lt_of_lt_of_le hlt (Nat.le_mul_of_pos_left _ (by omega))
      · -- a divisor this large leaves no remainder
        have hrest : a % b = 0 := by
          have := Nat.mul_le_mul_left b hlow
          rw [heq, hpow] at this
          rw [heq] at hdiv ⊢
          omega
        rw [hrest, Nat.sub_zero]
        nlinarith
  · rename_i hsize
    have hlow : 2 ^ 53 ≤ a / b := Nat.lt_size.1 (by omega)
    have hle := Nat.div_le_self a b
    rw [show a / b = 2 ^ 53 by omega, Nat.size_pow]
    exact pow_dvd_pow 2 (by norm_num)

theorem floor_mantissa_iff (hden : b ≠ 0) :
    ⌊(mantissa a b * 2 ^ exponent a b : ℚ)⌋₊ = a / b ↔ Survives a b := by
  obtain rfl | hnum := eq_or_ne a 0
  · rw [mantissa_zero hden]
    simpa using survives_of_le hden (Nat.zero_le _)
  · obtain h | h := le_or_gt 0 (exponent a b)
    · obtain ⟨j, hj⟩ := Int.eq_ofNat_of_zero_le h
      exact floor_mantissa_natCast hnum hden hj
    · obtain ⟨s, hs⟩ := Int.exists_eq_neg_ofNat h.le
      exact floor_mantissa_neg hnum hden (by omega) hs

/-- A number without the part behind its point. -/
def whole (v : ℚ) : ℤ := if v < 0 then ⌈v⌉ else ⌊v⌋

theorem truncate_eq (negative : Bool) (m : ℕ) (e : ℤ) : truncate negative m e =
    if negative then -(⌊(m * 2 ^ e : ℚ)⌋₊ : ℤ) else (⌊(m * 2 ^ e : ℚ)⌋₊ : ℤ) := by
  rw [floor_fraction]
  rfl

theorem whole_signed (negative : Bool) (m : ℕ) (e : ℤ) :
    whole (if negative then -(m * 2 ^ e) else m * 2 ^ e) = truncate negative m e := by
  have hpos : (0 : ℚ) ≤ m * 2 ^ e := by positivity
  rw [truncate_eq, Int.natCast_floor_eq_floor hpos, whole]
  cases negative with
  | false => simp [hpos.not_gt]
  | true =>
    obtain hzero | hlt := hpos.eq_or_lt
    · simp [← hzero]
    · simp [hlt, Int.ceil_neg]

end Whole
end Double

section Div
open Double

/-- Whether a quotient is negative, or would be if it were not zero. -/
def opposed (y x : ℤ) : Bool := decide (y < 0) != decide (x < 0)

section Signs

variable {y x : ℤ}

theorem opposed_of_neg_neg (hy : y < 0) (hx : x < 0) : opposed y x = false := by
  simp [opposed, hy, hx]

theorem opposed_of_neg_nonneg (hy : y < 0) (hx : 0 ≤ x) : opposed y x = true := by
  simp [opposed, hy, hx]

theorem opposed_of_nonneg_neg (hy : 0 ≤ y) (hx : x < 0) : opposed y x = true := by
  simp [opposed, hy, hx]

theorem opposed_of_nonneg_nonneg (hy : 0 ≤ y) (hx : 0 ≤ x) : opposed y x = false := by
  simp [opposed, hy.not_gt, hx.not_gt]

end Signs

theorem tdiv_eq (y x : ℤ) : y.tdiv x =
    if opposed y x then -((y.natAbs / x.natAbs : ℕ) : ℤ) else (y.natAbs / x.natAbs : ℕ) := by
  obtain hy | hy := lt_or_ge y 0 <;> obtain hx | hx := lt_or_ge x 0
  · rw [opposed_of_neg_neg hy hx]
    obtain ⟨m, rfl⟩ := Int.exists_eq_neg_ofNat hy.le
    obtain ⟨n, rfl⟩ := Int.exists_eq_neg_ofNat hx.le
    simp
  · rw [opposed_of_neg_nonneg hy hx]
    obtain ⟨m, rfl⟩ := Int.exists_eq_neg_ofNat hy.le
    lift x to ℕ using hx
    simp
  · rw [opposed_of_nonneg_neg hy hx]
    lift y to ℕ using hy
    obtain ⟨n, rfl⟩ := Int.exists_eq_neg_ofNat hx.le
    simp
  · rw [opposed_of_nonneg_nonneg hy hx]
    lift y to ℕ using hy
    lift x to ℕ using hx
    simp

theorem cast_div_eq (y x : ℤ) : (y / x : ℚ) =
    if opposed y x then -(y.natAbs / x.natAbs : ℚ) else (y.natAbs / x.natAbs : ℚ) := by
  rw [Nat.cast_natAbs, Nat.cast_natAbs]
  obtain hy | hy := lt_or_ge y 0 <;> obtain hx | hx := lt_or_ge x 0
  · simp [opposed_of_neg_neg hy hx, abs_of_neg, hy, hx, neg_div_neg_eq]
  · simp [opposed_of_neg_nonneg hy hx, abs_of_neg hy, abs_of_nonneg hx, neg_div]
  · simp [opposed_of_nonneg_neg hy hx, abs_of_nonneg hy, abs_of_neg hx, div_neg]
  · simp [opposed_of_nonneg_nonneg hy hx, abs_of_nonneg hy, abs_of_nonneg hx]

theorem lt_limit_mul {a b : ℕ} (ha : a < 2 ^ 54 - 1) (hb : b ≠ 0) : a < limit * b := by
  calc a < 2 ^ 54 - 1 := ha
    _ ≤ limit := by
      rw [limit]
      exact Nat.le_mul_of_pos_right _ (pow_pos two_pos 970)
    _ ≤ limit * b := Nat.le_mul_of_pos_right _ (Nat.pos_of_ne_zero hb)

theorem ofQuotient?_of_infinite {y x : ℤ} {s : Bool}
    (h : round (opposed y x) y.natAbs x.natAbs = infinite s) : ofQuotient? y x = none := by
  unfold opposed at h
  rw [ofQuotient?, h]

theorem ofQuotient?_of_finite {y x : ℤ} {s : Bool} {m : ℕ} {e : ℤ}
    (h : round (opposed y x) y.natAbs x.natAbs = finite s m e) :
    ofQuotient? y x = some (finite s m e) := by
  unfold opposed at h
  rw [ofQuotient?, h]

theorem Value.div_int (y : ℤ) {x : ℤ} (hx : x ≠ 0) :
    (limit * x.natAbs ≤ y.natAbs ∧ div (.int y) (.int x) = .error .tooLarge) ∨
      y.natAbs < limit * x.natAbs ∧ ∃ z d, div (.int y) (.int x) = .ok (.int z) ∧
        Nearest (y / x) d ∧ z = whole d ∧
        (z = y.tdiv x ↔ Survives y.natAbs x.natAbs) := by
  have hden : x.natAbs ≠ 0 := Int.natAbs_ne_zero.2 hx
  have hdiv : div (.int y) (.int x) = quotient y x >>= wholePart := rfl
  rw [hdiv, quotient]
  refine (round_nearest (opposed y x) y.natAbs hden).imp ?_ ?_
  · rintro ⟨hle, hround⟩
    rw [ofQuotient?_of_infinite hround]
    exact ⟨hle, rfl⟩
  · rintro ⟨hlt, m, e, hround, hnearest, hvalue⟩
    rw [ofQuotient?_of_finite hround]
    refine ⟨hlt, truncate (opposed y x) m e, if opposed y x then -(m * 2 ^ e) else m * 2 ^ e,
      rfl, ?_, (whole_signed ..).symm, ?_⟩
    · rw [cast_div_eq]
      split
      · exact hnearest.neg
      · exact hnearest
    · rw [truncate_eq, tdiv_eq, hvalue, ← floor_mantissa_iff hden]
      split
      · rw [neg_inj, Nat.cast_inj]
      · rw [Nat.cast_inj]

namespace Machine

variable {image : Image} {base : Machine} {f : Frame} {below : List Frame}
  {vars stack : List Value} {output : String}

theorem exec_div_eq (comment : String) (y : ℤ) {x : ℤ} (hx : x ≠ 0) :
    exec image ⟨.div, comment⟩ (working base f below vars (.int x :: .int y :: stack) output) =
      settle base f below vars stack output (crashing (Value.div (.int y) (.int x))) := by
  have hbinary : Op.isBinary .div := rfl
  have hresult : Op.result .div (.int y) (.int x) = crashing (Value.div (.int y) (.int x)) := by
    simp [Op.result, ifPresent, Value.same_int, hx]
  have hplain : exec image ⟨.div, comment⟩ = exec image (.plain .div) := rfl
  rw [← hresult, ← operate_eq hbinary, hplain, exec_operate hbinary]

/-- Two whole numbers, the upper one not zero, are divided. If the quotient is too large for a
double the machine crashes. Otherwise they give way to the whole part of the double that is nearest
to the quotient. This is the whole part of the quotient if and only if it survives the rounding, as
it does whenever the dividend is at most `2 ^ 53`. -/
theorem exec_div_ints (comment : String) (y : ℤ) {x : ℤ} (hx : x ≠ 0) :
    (limit * x.natAbs ≤ y.natAbs →
      exec image ⟨.div, comment⟩ (working base f below vars (.int x :: .int y :: stack) output) =
        .error (.crash .tooLarge) (working base f below vars stack output)) ∧
    (y.natAbs < limit * x.natAbs → ∃ z d,
      exec image ⟨.div, comment⟩ (working base f below vars (.int x :: .int y :: stack) output) =
        .ok () (working base f below vars (.int z :: stack) output) ∧
      Nearest (y / x) d ∧ z = whole d ∧ (z = y.tdiv x ↔ Survives y.natAbs x.natAbs)) ∧
    (y.natAbs ≤ 2 ^ 53 →
      exec image ⟨.div, comment⟩ (working base f below vars (.int x :: .int y :: stack) output) =
        .ok () (working base f below vars (.int (y.tdiv x) :: stack) output)) := by
  have hden : x.natAbs ≠ 0 := Int.natAbs_ne_zero.2 hx
  rw [exec_div_eq comment y hx]
  obtain ⟨hle, hcrash⟩ | ⟨hlt, z, d, hz, hnearest, hwhole, hsurvives⟩ := Value.div_int y hx
  · rw [hcrash]
    refine ⟨fun _ => rfl, fun hlt => absurd hlt hle.not_gt, fun hsmall => ?_⟩
    exact absurd hle (lt_limit_mul (by omega) hden).not_ge
  · rw [hz]
    refine ⟨fun hle => absurd hlt hle.not_gt, fun _ => ⟨z, d, rfl, hnearest, hwhole, hsurvives⟩,
      fun hsmall => ?_⟩
    rw [← hsurvives.2 (survives_of_le hden hsmall)]
    rfl

/-- Halfway between two whole numbers the even one is taken, and here that is not the whole part. -/
theorem exec_div_ints_half : (2 : ℤ) ≠ 0 ∧
    (9007199254740995 : ℤ).natAbs < limit * (2 : ℤ).natAbs ∧
    ∃ z, exec .empty ⟨.div, ""⟩ (working .empty (.enter ⟨"", 0, #[]⟩) [] []
        [.int 2, .int 9007199254740995] "") =
      .ok () (working .empty (.enter ⟨"", 0, #[]⟩) [] [] [.int z] "") ∧
      z ≠ (9007199254740995 : ℤ).tdiv 2 := by
  have hx : (2 : ℤ) ≠ 0 := by decide
  have hlt : (9007199254740995 : ℤ).natAbs < limit * (2 : ℤ).natAbs :=
    lt_limit_mul (by norm_num) two_ne_zero
  have hsize : (9007199254740995 / 2).size = 53 := size_eq (k := 52) (by norm_num) (by norm_num)
  have hlost : ¬Survives 9007199254740995 2 := by
    rw [← survives_of_size_eq two_ne_zero hsize]
    decide +kernel
  obtain ⟨z, d, hz, -, -, hsurvives⟩ := (exec_div_ints "" 9007199254740995 hx).2.1 hlt
  exact ⟨hx, hlt, z, hz, fun h => hlost (hsurvives.1 h)⟩

/-- The least dividend whose quotient is not exact. -/
theorem exec_div_inexact : ¬∀ y x : ℤ, x ≠ 0 →
    exec .empty ⟨.div, ""⟩ (working .empty (.enter ⟨"", 0, #[]⟩) [] [] [.int x, .int y] "") =
      .ok () (working .empty (.enter ⟨"", 0, #[]⟩) [] [] [.int (y.tdiv x)] "") := by
  intro h
  have hone := h 9007199254740993 1 one_ne_zero
  rw [exec_div_eq "" 9007199254740993 one_ne_zero] at hone
  have hdiv : Value.div (.int 9007199254740993) (.int 1) = .ok (.int 9007199254740992) := rfl
  rw [hdiv] at hone
  injection hone with _ hmachine
  have hstack := congrArg (fun m => m.frames.map Frame.stack) hmachine
  exact absurd hstack (by decide)

end Machine

end Div
end StackLang
