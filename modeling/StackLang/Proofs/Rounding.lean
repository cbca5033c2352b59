import Mathlib
import StackLang.Number.Double

namespace StackLang.Double

/-- The numbers that doubles stand for. -/
def IsDouble (v : ℚ) : Prop :=
  ∃ (m : ℕ) (e : ℤ), m < 2 ^ 53 ∧ leastExponent ≤ e ∧ e ≤ greatestExponent ∧ |v| = m * 2 ^ e

/-- Of all doubles the nearest to a number. Of two that are equally near, it is an even multiple of
the gap between them. -/
structure Nearest (v d : ℚ) : Prop where
  isDouble : IsDouble d
  le : ∀ d', IsDouble d' → |v - d| ≤ |v - d'|
  even : ∀ d', IsDouble d' → d' ≠ d → |v - d'| = |v - d| → ∃ k : ℤ, d = 2 * k * (d - d')

theorem Nearest.unique {v d d' : ℚ} (h : Nearest v d) (h' : Nearest v d') : d = d' := by
  have heq : |v - d| = |v - d'| := le_antisymm (h.le d' h'.isDouble) (h'.le d h.isDouble)
  by_contra hne
  obtain ⟨k, hk⟩ := h.even d' h'.isDouble (Ne.symm hne) heq.symm
  obtain ⟨k', hk'⟩ := h'.even d h.isDouble hne heq
  have hgap : d - d' ≠ 0 := sub_ne_zero.2 hne
  have hodd : (d - d') * (2 * (k + k') - 1 : ℤ) = 0 := by
    push_cast
    linear_combination -hk + hk'
  have hzero : (2 * (k + k') - 1 : ℤ) = 0 := by
    exact_mod_cast (mul_eq_zero.1 hodd).resolve_left hgap
  omega

section Units

variable {num den : ℕ}

theorem twoPow_div (e : ℤ) : ((twoPow e).1 : ℚ) / (twoPow e).2 = 2 ^ e := by
  obtain ⟨j, rfl | rfl⟩ := e.eq_nat_or_neg
  · simp [twoPow]
  · simp [twoPow]

theorem div_units (num den : ℕ) (e : ℤ) : (num / den : ℚ) / 2 ^ e =
    (num * (twoPow e).2 : ℕ) / (den * (twoPow e).1 : ℕ) := by
  rw [← twoPow_div]
  push_cast
  field_simp

theorem floor_units (num den : ℕ) (e : ℤ) :
    ⌊(num / den : ℚ) / 2 ^ e⌋₊ = (inUnits num den e).1 := by
  rw [div_units, Nat.floor_div_eq_div]
  rfl

theorem floor_fraction (m : ℕ) (e : ℤ) :
    ⌊(m * 2 ^ e : ℚ)⌋₊ = (fraction m e).1 / (fraction m e).2 := by
  have hfraction : (m * 2 ^ e : ℚ) = (m * (twoPow e).1 : ℕ) / ((twoPow e).2 : ℕ) := by
    rw [← twoPow_div]
    push_cast
    field_simp
  rw [hfraction, Nat.floor_div_eq_div]
  rfl

theorem log2_bounds {n : ℕ} (h : n ≠ 0) :
    (2 ^ (n.log2 : ℤ) : ℚ) ≤ n ∧ (n : ℚ) < 2 ^ (n.log2 + 1 : ℤ) := by
  constructor
  · exact_mod_cast Nat.log2_self_le h
  · exact_mod_cast Nat.lt_log2_self

theorem inUnits_lt_iff {e : ℤ} {k : ℕ} :
    (inUnits num den e).1 < k ↔ (num / den : ℚ) / 2 ^ e < k := by
  rw [← floor_units, Nat.floor_lt (by positivity)]

theorem fullExponent_bounds (hnum : num ≠ 0) (hden : den ≠ 0) :
    2 ^ 52 ≤ (num / den : ℚ) / 2 ^ fullExponent num den ∧
      (num / den : ℚ) / 2 ^ fullExponent num den < 2 ^ 53 := by
  obtain ⟨hnum₁, hnum₂⟩ := log2_bounds hnum
  obtain ⟨hden₁, hden₂⟩ := log2_bounds hden
  have hpos : (0 : ℚ) < den := by positivity
  set e : ℤ := num.log2 - den.log2 - 52 with he
  have hunit : (2 : ℚ) ^ e * 2 ^ (den.log2 : ℤ) * 2 ^ 52 = 2 ^ (num.log2 : ℤ) := by
    rw [← zpow_natCast 2 52, ← zpow_add₀ two_ne_zero, ← zpow_add₀ two_ne_zero]
    congr 1
    push_cast
    omega
  rw [zpow_add_one₀ two_ne_zero] at hnum₂ hden₂
  have hupos : (0 : ℚ) < 2 ^ e := by positivity
  have hlow : 2 ^ 51 ≤ (num / den : ℚ) / 2 ^ e := by
    rw [div_div, le_div_iff₀ (by positivity)]
    nlinarith
  have hhigh : (num / den : ℚ) / 2 ^ e < 2 ^ 53 := by
    rw [div_div, div_lt_iff₀ (by positivity)]
    nlinarith
  have hfull : fullExponent num den = if (inUnits num den e).1 < 2 ^ 52 then e - 1 else e := rfl
  rw [hfull]
  split
  · rename_i h
    rw [inUnits_lt_iff] at h
    have hdouble : (num / den : ℚ) / 2 ^ (e - 1) = 2 * ((num / den : ℚ) / 2 ^ e) := by
      rw [zpow_sub_one₀ two_ne_zero]
      field_simp
    push_cast at h
    rw [hdouble]
    constructor <;> linarith
  · rename_i h
    rw [inUnits_lt_iff] at h
    push_cast at h
    exact ⟨not_lt.1 h, hhigh⟩

theorem halfToEven_bounds (n : ℕ) {d : ℕ} (hd : d ≠ 0) :
    |(n / d : ℚ) - halfToEven (n / d) (n % d) d| ≤ 1 / 2 ∧
      (|(n / d : ℚ) - halfToEven (n / d) (n % d) d| = 1 / 2 →
        halfToEven (n / d) (n % d) d % 2 = 0) := by
  have hpos : (0 : ℚ) < d := by positivity
  have hmod : n % d < d := Nat.mod_lt n (Nat.pos_of_ne_zero hd)
  have hsum : (n / d : ℚ) = (n / d : ℕ) + (n % d : ℕ) / d := by
    rw [eq_comm, add_div_eq_mul_add_div _ _ hpos.ne', div_left_inj' hpos.ne']
    exact_mod_cast Nat.div_add_mod' n d
  unfold halfToEven
  split
  · rename_i h
    have hle : 2 * (n % d) ≤ d := by omega
    have hhalf : ((n % d : ℕ) : ℚ) / d ≤ 1 / 2 := by
      rw [div_le_div_iff₀ hpos two_pos]
      exact_mod_cast (by omega : n % d * 2 ≤ 1 * d)
    rw [hsum, add_sub_cancel_left, abs_of_nonneg (by positivity)]
    refine ⟨hhalf, fun htie => ?_⟩
    rw [div_eq_div_iff hpos.ne' two_ne_zero] at htie
    have htie : n % d * 2 = 1 * d := by exact_mod_cast htie
    omega
  · rename_i h
    have hlt : ((n % d : ℕ) : ℚ) / d < 1 := by
      rw [div_lt_one hpos]
      exact_mod_cast hmod
    have hhalf : 1 / 2 ≤ ((n % d : ℕ) : ℚ) / d := by
      rw [div_le_div_iff₀ two_pos hpos]
      exact_mod_cast (by omega : 1 * d ≤ n % d * 2)
    have habs : |(n / d : ℚ) - (n / d + 1 : ℕ)| = 1 - (n % d : ℕ) / d := by
      rw [hsum, abs_sub_comm, abs_of_nonneg] <;> push_cast <;> linarith
    rw [habs]
    refine ⟨by linarith, fun htie => ?_⟩
    have htie : ((n % d : ℕ) : ℚ) / d = 1 / 2 := by linarith
    rw [div_eq_div_iff hpos.ne' two_ne_zero] at htie
    have htie : n % d * 2 = 1 * d := by exact_mod_cast htie
    omega

/-- The exponent that a quotient is rounded at. -/
def exponent (num den : ℕ) : ℤ := max (fullExponent num den) leastExponent

/-- A quotient in units of its exponent, rounded to a whole number. -/
def mantissa (num den : ℕ) : ℕ :=
  let u := inUnits num den (exponent num den)
  halfToEven u.1 u.2.1 u.2.2

theorem exponent_bounds (hnum : num ≠ 0) (hden : den ≠ 0) :
    (num / den : ℚ) / 2 ^ exponent num den < 2 ^ 53 ∧
      (2 ^ 52 ≤ (num / den : ℚ) / 2 ^ exponent num den ∨ exponent num den = leastExponent) := by
  obtain ⟨hlow, hhigh⟩ := fullExponent_bounds hnum hden
  unfold exponent
  obtain h | h := le_total leastExponent (fullExponent num den)
  · rw [max_eq_left h]
    exact ⟨hhigh, .inl hlow⟩
  · rw [max_eq_right h]
    refine ⟨lt_of_le_of_lt ?_ hhigh, .inr rfl⟩
    gcongr
    norm_num

theorem mantissa_bounds (num : ℕ) (hden : den ≠ 0) :
    |(num / den : ℚ) / 2 ^ exponent num den - mantissa num den| ≤ 1 / 2 ∧
      (|(num / den : ℚ) / 2 ^ exponent num den - mantissa num den| = 1 / 2 →
        mantissa num den % 2 = 0) := by
  rw [div_units]
  exact halfToEven_bounds _ (Nat.mul_ne_zero hden (by simp [twoPow]))

end Units

/-- Half a unit above the greatest double: what is not below it is too large. -/
def limit : ℕ := (2 ^ 54 - 1) * 2 ^ 970

theorem limit_pos : 0 < limit := by
  rw [limit]
  exact Nat.mul_pos (by norm_num) (pow_pos two_pos 970)

section Round

variable {num den : ℕ} {negative : Bool}

theorem mantissa_le (hnum : num ≠ 0) (hden : den ≠ 0) : mantissa num den ≤ 2 ^ 53 := by
  have hhigh := (exponent_bounds hnum hden).1
  have hnear := abs_le.1 (mantissa_bounds num hden).1
  have hlt : (mantissa num den : ℚ) < (2 ^ 53 + 1 : ℕ) := by
    push_cast
    linarith [hnear.1]
  exact Nat.le_of_lt_succ (by exact_mod_cast hlt)

theorem round_eq (hnum : num ≠ 0) : round negative num den =
    if mantissa num den = 2 ^ 53 then
      if greatestExponent < exponent num den + 1 then infinite negative
      else finite negative (2 ^ 52) (exponent num den + 1)
    else if greatestExponent < exponent num den then infinite negative
      else finite negative (mantissa num den) (exponent num den) := by
  have hround : round negative num den =
      (let p := if mantissa num den = 2 ^ 53 then (2 ^ 52, exponent num den + 1)
        else (mantissa num den, exponent num den)
       if greatestExponent < p.2 then infinite negative else finite negative p.1 p.2) :=
    if_neg hnum
  rw [hround]
  split <;> rfl

theorem limit_le_iff (hden : den ≠ 0) :
    limit * den ≤ num ↔ (2 ^ 53 - 1 / 2 : ℚ) * 2 ^ greatestExponent ≤ num / den := by
  have hpos : (0 : ℚ) < den := by positivity
  have hlimit : (2 ^ 53 - 1 / 2 : ℚ) * 2 ^ greatestExponent = (limit : ℚ) := by
    rw [limit, greatestExponent]
    have hpow : (2 : ℚ) ^ (971 : ℤ) = 2 * 2 ^ 970 := by
      rw [show (971 : ℤ) = (970 : ℕ) + 1 by rfl, zpow_add_one₀ two_ne_zero, zpow_natCast, mul_comm]
    rw [hpow, Nat.cast_mul, Nat.cast_pow 2 970]
    generalize (((2 : ℕ) : ℚ)) ^ 970 = u
    norm_num
    ring
  rw [hlimit, le_div_iff₀ hpos]
  exact_mod_cast Iff.rfl

theorem mantissa_zero (hden : den ≠ 0) : mantissa 0 den = 0 := by
  have hdivisor : 0 < den * (twoPow (exponent 0 den)).1 :=
    Nat.mul_pos (Nat.pos_of_ne_zero hden) (by simp [twoPow])
  simp [mantissa, inUnits, halfToEven, hdivisor]

theorem mantissa_eq_iff (hnum : num ≠ 0) (hden : den ≠ 0) :
    mantissa num den = 2 ^ 53 ↔ 2 ^ 53 - 1 / 2 ≤ (num / den : ℚ) / 2 ^ exponent num den := by
  obtain ⟨hnear, htie⟩ := mantissa_bounds num hden
  have hle := mantissa_le hnum hden
  obtain ⟨hdown, hup⟩ := abs_le.1 hnear
  constructor
  · intro hq
    rw [hq] at hdown
    push_cast at hdown
    linarith
  · intro ht
    by_contra hq
    have hlt : ((mantissa num den + 1 : ℕ) : ℚ) ≤ (2 ^ 53 : ℕ) := by
      exact_mod_cast Nat.lt_of_le_of_ne hle hq
    push_cast at hlt
    -- only halfway between the last two it could be smaller, and there the last one is even
    have hodd : (mantissa num den : ℚ) = (2 ^ 53 - 1 : ℕ) := by
      push_cast
      linarith
    have heven := htie (by rw [abs_of_nonneg] <;> linarith)
    rw [show mantissa num den = 2 ^ 53 - 1 by exact_mod_cast hodd] at heven
    norm_num at heven

theorem round_value (negative : Bool) (num : ℕ) (hden : den ≠ 0) :
    (limit * den ≤ num ∧ round negative num den = infinite negative) ∨
      num < limit * den ∧ ∃ m e, round negative num den = finite negative m e ∧
        m < 2 ^ 53 ∧ leastExponent ≤ e ∧ e ≤ greatestExponent ∧
        (m * 2 ^ e : ℚ) = mantissa num den * 2 ^ exponent num den := by
  obtain rfl | hnum := eq_or_ne num 0
  · refine .inr ⟨Nat.mul_pos limit_pos (Nat.pos_of_ne_zero hden), 0, leastExponent, rfl,
      by norm_num, le_rfl, by decide, ?_⟩
    rw [mantissa_zero hden]
    simp
  obtain ⟨hhigh, hlow⟩ := exponent_bounds hnum hden
  have hfull := mantissa_eq_iff hnum hden
  have hle := mantissa_le hnum hden
  have hleast : leastExponent ≤ exponent num den := le_max_right _ _
  rw [← not_le, limit_le_iff hden, round_eq hnum]
  set e := exponent num den
  set t := (num / den : ℚ) / 2 ^ e with ht
  have hvalue : (num / den : ℚ) = t * 2 ^ e := by
    rw [ht, div_mul_cancel₀ _ (by positivity)]
  have hmono {a b : ℤ} (h : a ≤ b) : (2 : ℚ) ^ a ≤ 2 ^ b := zpow_le_zpow_right₀ one_le_two h
  have hgreatest : (0 : ℚ) < 2 ^ greatestExponent := by positivity
  rw [hvalue]
  split
  · rename_i hq
    rw [hq] at hfull ⊢
    have htop := hfull.1 rfl
    split
    · exact .inl ⟨mul_le_mul htop (hmono (by omega)) (by positivity) (by linarith), rfl⟩
    · have hsmall := hmono (show e + 1 ≤ greatestExponent by omega)
      rw [zpow_add_one₀ two_ne_zero] at hsmall
      refine .inr ⟨by nlinarith, 2 ^ 52, e + 1, rfl, by norm_num, by omega, by omega, ?_⟩
      rw [zpow_add_one₀ two_ne_zero]
      push_cast
      ring
  · rename_i hq
    have hbelow := not_le.1 (mt hfull.2 hq)
    split
    · rename_i he
      have hlow := hlow.resolve_right (by
        unfold leastExponent
        unfold greatestExponent at he
        omega)
      have hbig := hmono (show greatestExponent + 1 ≤ e by omega)
      rw [zpow_add_one₀ two_ne_zero] at hbig
      exact .inl ⟨by nlinarith, rfl⟩
    · have hsmall := hmono (show e ≤ greatestExponent by omega)
      refine .inr ⟨not_le.2 ?_, _, e, rfl, lt_of_le_of_ne hle hq, hleast, by omega, rfl⟩
      calc t * 2 ^ e < (2 ^ 53 - 1 / 2) * 2 ^ e := by gcongr
        _ ≤ (2 ^ 53 - 1 / 2) * 2 ^ greatestExponent :=
          mul_le_mul_of_nonneg_left hsmall (by norm_num)

end Round

section Nearest

variable {num den : ℕ}

section Lattice

variable {t : ℚ} {q k : ℤ}

theorem abs_sub_le_of_half (h : |t - q| ≤ 1 / 2) (k : ℤ) : |t - q| ≤ |t - k| := by
  obtain rfl | hk := eq_or_ne q k
  · exact le_rfl
  · have hapart : (1 : ℚ) ≤ |(q : ℚ) - k| := by
      exact_mod_cast Int.one_le_abs (sub_ne_zero.2 hk)
    have htriangle := abs_sub_le (q : ℚ) t k
    rw [abs_sub_comm (q : ℚ) t] at htriangle
    linarith

theorem half_of_abs_sub_eq (h : |t - q| ≤ 1 / 2) (hk : k ≠ q) (heq : |t - k| = |t - q|) :
    |t - q| = 1 / 2 ∧ (q - k = 1 ∨ q - k = -1) := by
  have hapart : (1 : ℚ) ≤ |((q - k : ℤ) : ℚ)| := by
    exact_mod_cast Int.one_le_abs (sub_ne_zero.2 hk.symm)
  have htriangle := abs_sub_le (q : ℚ) t k
  rw [abs_sub_comm (q : ℚ) t] at htriangle
  push_cast at hapart
  have hone : |((q - k : ℤ) : ℚ)| = 1 := by
    push_cast
    linarith
  exact ⟨by linarith, eq_or_eq_neg_of_abs_eq (by exact_mod_cast hone)⟩

end Lattice

theorem units_of_isDouble (hnum : num ≠ 0) (hden : den ≠ 0) {d : ℚ} (hd : IsDouble d) :
    (∃ k : ℤ, d = k * 2 ^ exponent num den) ∨
      d < 2 ^ 52 * 2 ^ exponent num den ∧ 2 ^ 52 ≤ (num / den : ℚ) / 2 ^ exponent num den := by
  obtain ⟨m, e, hm, hleast, -, hd⟩ := hd
  obtain he | he := le_or_gt (exponent num den) e
  · left
    obtain ⟨j, hj⟩ := Int.eq_ofNat_of_zero_le (sub_nonneg.2 he)
    have hpow : (2 : ℚ) ^ e = 2 ^ j * 2 ^ exponent num den := by
      rw [← zpow_natCast, ← zpow_add₀ two_ne_zero]
      congr 1
      omega
    obtain h | h := abs_cases d
    · refine ⟨m * 2 ^ j, ?_⟩
      push_cast
      linear_combination hd - h.1 + m * hpow
    · refine ⟨-(m * 2 ^ j), ?_⟩
      push_cast
      linear_combination h.1 - hd - m * hpow
  · right
    constructor
    · calc d ≤ |d| := le_abs_self d
        _ = m * 2 ^ e := hd
        _ < 2 ^ 53 * 2 ^ e := by
          gcongr
          exact_mod_cast hm
        _ = 2 ^ 52 * 2 ^ (e + 1) := by
          rw [zpow_add_one₀ two_ne_zero]
          ring
        _ ≤ 2 ^ 52 * 2 ^ exponent num den := by
          gcongr
          · norm_num
          · omega
    · exact (exponent_bounds hnum hden).2.resolve_right (by omega)

theorem nearest_mantissa (hnum : num ≠ 0) (hden : den ≠ 0)
    (hdouble : IsDouble (mantissa num den * 2 ^ exponent num den)) :
    Nearest (num / den) (mantissa num den * 2 ^ exponent num den) := by
  obtain ⟨hnear, htie⟩ := mantissa_bounds num hden
  have hunit : (0 : ℚ) < 2 ^ exponent num den := by positivity
  set q := mantissa num den
  set u : ℚ := 2 ^ exponent num den
  set t := (num / den : ℚ) / u with ht
  have hdist (w : ℚ) : |(num / den : ℚ) - w * u| = |t - w| * u := by
    rw [← abs_of_pos hunit, ← abs_mul, abs_of_pos hunit, sub_mul, ht, div_mul_cancel₀ _ hunit.ne']
  have hbest (k : ℤ) : |t - q| ≤ |t - k| := by
    exact_mod_cast abs_sub_le_of_half (q := q) (by exact_mod_cast hnear) k
  -- doubles below the range of the exponent are further away than its least mantissa
  have hfar {d : ℚ} (hd : d < 2 ^ 52 * u) (hlow : 2 ^ 52 ≤ t) :
      |(num / den : ℚ) - q * u| < |(num / den : ℚ) - d| := by
    have hleast : |t - q| ≤ t - 2 ^ 52 := by
      have hbound := hbest (2 ^ 52)
      rwa [Int.cast_pow, Int.cast_ofNat, abs_of_nonneg (sub_nonneg.2 hlow)] at hbound
    have hvalue : (num / den : ℚ) = t * u := by rw [ht, div_mul_cancel₀ _ hunit.ne']
    rw [hdist, hvalue]
    refine lt_of_lt_of_le ?_ (le_abs_self _)
    nlinarith
  refine ⟨hdouble, fun d hd => ?_, fun d hd hne heq => ?_⟩
  · obtain ⟨k, rfl⟩ | ⟨hlt, hlow⟩ := units_of_isDouble hnum hden hd
    · rw [hdist, hdist]
      exact mul_le_mul_of_nonneg_right (hbest k) hunit.le
    · exact (hfar hlt hlow).le
  · obtain ⟨k, rfl⟩ | ⟨hlt, hlow⟩ := units_of_isDouble hnum hden hd
    · rw [hdist, hdist, mul_left_inj' hunit.ne'] at heq
      have hk : k ≠ q := by
        rintro rfl
        exact hne (by push_cast; rfl)
      obtain ⟨hhalf, hone⟩ := half_of_abs_sub_eq (q := q) (by exact_mod_cast hnear) hk
        (by exact_mod_cast heq)
      obtain ⟨i, hi⟩ := Nat.dvd_of_mod_eq_zero (htie (by exact_mod_cast hhalf))
      have hcast : (q : ℚ) = 2 * i := by exact_mod_cast hi
      obtain hone | hone := hone
      · have hgap : (q : ℚ) - k = 1 := by exact_mod_cast hone
        exact ⟨i, by push_cast; linear_combination u * hcast - 2 * i * u * hgap⟩
      · have hgap : (q : ℚ) - k = -1 := by exact_mod_cast hone
        exact ⟨-i, by push_cast; linear_combination u * hcast + 2 * i * u * hgap⟩
    · exact absurd heq (hfar hlt hlow).ne'

theorem IsDouble.neg {v : ℚ} (h : IsDouble v) : IsDouble (-v) := by
  obtain ⟨m, e, hm, hlow, hhigh, hv⟩ := h
  exact ⟨m, e, hm, hlow, hhigh, by rw [abs_neg, hv]⟩

theorem Nearest.neg {v d : ℚ} (h : Nearest v d) : Nearest (-v) (-d) := by
  have hdist (d' : ℚ) : |-v - d'| = |v - -d'| := by
    rw [← abs_neg, neg_sub, sub_neg_eq_add, sub_neg_eq_add, add_comm]
  refine ⟨h.isDouble.neg, fun d' hd' => ?_, fun d' hd' hne heq => ?_⟩
  · rw [hdist, hdist, neg_neg]
    exact h.le _ hd'.neg
  · rw [hdist, hdist, neg_neg] at heq
    obtain ⟨k, hk⟩ := h.even _ hd'.neg (fun heq => hne (neg_eq_iff_eq_neg.1 heq)) heq
    exact ⟨k, by linear_combination -hk⟩

theorem isDouble_finite {m : ℕ} {e : ℤ} (hm : m < 2 ^ 53) (hlow : leastExponent ≤ e)
    (hhigh : e ≤ greatestExponent) : IsDouble (m * 2 ^ e) :=
  ⟨m, e, hm, hlow, hhigh, abs_of_nonneg (by positivity)⟩

theorem nearest_zero : Nearest 0 0 := by
  refine ⟨?_, fun d' _ => ?_, fun d' _ hne heq => ?_⟩
  · simpa using isDouble_finite (m := 0) (e := 0) (by norm_num) (by decide) (by decide)
  · rw [sub_zero, abs_zero]
    exact abs_nonneg _
  · rw [sub_zero, abs_zero, zero_sub, abs_neg, abs_eq_zero] at heq
    exact absurd heq hne

theorem round_nearest (negative : Bool) (num : ℕ) (hden : den ≠ 0) :
    (limit * den ≤ num ∧ round negative num den = infinite negative) ∨
      num < limit * den ∧ ∃ m e, round negative num den = finite negative m e ∧
        Nearest (num / den) (m * 2 ^ e) ∧
        (m * 2 ^ e : ℚ) = mantissa num den * 2 ^ exponent num den := by
  refine (round_value negative num hden).imp_right ?_
  rintro ⟨hlt, m, e, hround, hm, hlow, hhigh, hvalue⟩
  refine ⟨hlt, m, e, hround, ?_, hvalue⟩
  obtain rfl | hnum := eq_or_ne num 0
  · rw [hvalue, mantissa_zero hden]
    simpa using nearest_zero
  · have hdouble := isDouble_finite hm hlow hhigh
    rw [hvalue] at hdouble ⊢
    exact nearest_mantissa hnum hden hdouble

end Nearest
end StackLang.Double
