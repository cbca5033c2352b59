import Mathlib.Data.Nat.Digits.Defs
import StackLang.Generator
import StackLang.Proofs.Numerals
import StackLang.Proofs.Operands

namespace StackLang

namespace Numeral

theorem natural_toDigits (n : ℕ) : natural (Nat.toDigits 10 n) = n :=
  Nat.ofDigitChars_toDigits (by decide) (by decide)

theorem toList_toString (n : ℕ) : (toString (n : ℤ)).toList = Nat.toDigits 10 n :=
  Nat.toList_repr

theorem toList_toString_neg {n : ℤ} (h : n < 0) :
    (toString n).toList = '-' :: Nat.toDigits 10 n.natAbs := by
  obtain ⟨k, rfl⟩ := Int.eq_negSucc_of_lt_zero h
  have hsign : toString (Int.negSucc k) = "-" ++ Nat.repr (k + 1) := rfl
  rw [hsign, String.toList_append, Nat.toList_repr]
  rfl

theorem isDigit_toDigits (n : ℕ) : ∀ c ∈ Nat.toDigits 10 n, c.isDigit :=
  fun _ hc => Nat.isDigit_of_mem_toDigits (by decide) (by decide) hc

theorem whole?_toString (n : ℤ) : whole? (toString n) = some n := by
  by_cases h : 0 ≤ n
  · obtain ⟨k, rfl⟩ := Int.eq_ofNat_of_zero_le h
    have hdigits := isDigit_toDigits k
    rw [← toList_toString] at hdigits
    have hne : (toString (k : ℤ)).toList ≠ [] := by
      rw [toList_toString]
      exact Nat.toDigits_ne_nil
    rw [whole?_digits hne hdigits, toList_toString, natural_toDigits]
  · rw [whole?_negative (toList_toString_neg (Int.not_le.1 h)) Nat.toDigits_ne_nil (isDigit_toDigits _),
      natural_toDigits]
    exact congrArg some (by omega)

theorem natural_concat (l : List Char) (d : Char) :
    natural (l ++ [d]) = 10 * natural l + (d.toNat - 0x30) := by
  rw [natural, List.foldl_append]
  rfl

theorem natural_lt {l : List Char} (h : ∀ c ∈ l, c.isDigit) : natural l < 10 ^ l.length := by
  induction l using List.reverseRecOn with
  | nil => exact Nat.one_pos
  | append_singleton l d ih =>
    have hd := isDigit_bounds (h d (by simp))
    have hl := ih fun c hc => h c (by simp [hc])
    rw [natural_concat, List.length_append, List.length_singleton, Nat.pow_succ]
    omega

theorem length_toDigits_le_iff {n k : ℕ} (hk : 0 < k) :
    (Nat.toDigits 10 n).length ≤ k ↔ n < 10 ^ k := by
  refine ⟨fun h => ?_, Nat.toDigits_length 10 n k hk⟩
  calc n = natural (Nat.toDigits 10 n) := (natural_toDigits n).symm
    _ < 10 ^ (Nat.toDigits 10 n).length := natural_lt (isDigit_toDigits n)
    _ ≤ 10 ^ k := Nat.pow_le_pow_right (by decide) h

theorem ofInt?_eq (n : ℤ) :
    ofInt? n = if n.natAbs < 10 ^ digitLimit then some (toString n) else none := by
  simp only [ofInt?, length_toDigits_le_iff (show 0 < digitLimit by decide)]

theorem int?_toString {n : ℕ} (h : n < 10 ^ digitLimit) : int? (toString (n : ℤ)) = some (n : ℤ) := by
  have hdigits := isDigit_toDigits n
  rw [← toList_toString] at hdigits
  refine int?_eq_some.2 ⟨?_, whole?_toString n⟩
  rwa [digitCount_digits hdigits, ← String.length_toList, toList_toString,
    length_toDigits_le_iff (by decide)]

/-- The largest number of `k` digits. -/
def nines (k : ℕ) : String := String.ofList (List.replicate k '9')

theorem toList_nines (k : ℕ) : (nines k).toList = List.replicate k '9' := String.toList_ofList

theorem eq_nine_of_mem {k : ℕ} {c : Char} (h : c ∈ (nines k).toList) : c = '9' := by
  rw [toList_nines] at h
  exact (List.mem_replicate.1 h).2

theorem toList_nines_ne_nil {k : ℕ} (hk : 0 < k) : (nines k).toList ≠ [] := by
  rw [toList_nines]
  exact List.ne_nil_of_length_pos (by rwa [List.length_replicate])

theorem natural_nines (k : ℕ) : natural (nines k).toList + 1 = 10 ^ k := by
  rw [toList_nines]
  induction k with
  | zero => rfl
  | succ k ih =>
    have hnine : '9'.toNat - 0x30 = 9 := by decide
    rw [List.replicate_succ', natural_concat, hnine, Nat.pow_succ]
    omega

theorem int?_nines {k : ℕ} (hk : 0 < k) : int? (nines k) =
    if k ≤ digitLimit then some (natural (nines k).toList : ℤ) else none := by
  have hdigits : ∀ c ∈ (nines k).toList, c.isDigit := by
    intro c hc
    rw [eq_nine_of_mem hc]
    decide
  have hlength : (nines k).length = k := by
    rw [← String.length_toList, toList_nines, List.length_replicate]
  rw [int?_digits (toList_nines_ne_nil hk) hdigits, hlength]

theorem ofInt?_square_nines {n : ℕ} (h : n + 1 = 10 ^ digitLimit) :
    ofInt? (n * n : ℤ) = none := by
  have hlarge : 3 ≤ n + 1 := by
    calc 3 ≤ 10 ^ 1 := by decide
      _ ≤ 10 ^ digitLimit := Nat.pow_le_pow_right (by decide) (by decide)
      _ = n + 1 := h.symm
  have hsquare : n + 1 ≤ n * n := by nlinarith
  rw [ofInt?_eq, if_neg]
  rw [← Int.natCast_mul, Int.natAbs_natCast, ← h]
  omega

end Numeral

namespace Machine

theorem digitsOnly_toString (n : ℤ) : digitsOnly (toString n) = decide (0 ≤ n) := by
  by_cases h : 0 ≤ n
  · obtain ⟨k, rfl⟩ := Int.eq_ofNat_of_zero_le h
    have hall : (Nat.toDigits 10 k).all Text.isDigit := by
      rw [List.all_eq_true]
      intro c hc
      have hdigit := Nat.isDigit_of_mem_toDigits (by decide) (by decide) hc
      have hbounds := Numeral.isDigit_bounds hdigit
      rwa [Text.isDigit, if_pos (show c.toNat < 0x80 by omega)]
    have hne : toString (k : ℤ) ≠ "" := by
      intro hempty
      have hnil := Numeral.toList_toString k
      rw [hempty] at hnil
      exact Nat.toDigits_ne_nil hnil.symm
    rw [digitsOnly, Numeral.toList_toString, hall, decide_eq_true hne, decide_eq_true h]
    rfl
  · have hsign : Text.isDigit '-' = false := rfl
    rw [digitsOnly, Numeral.toList_toString_neg (Int.not_le.1 h), List.all_cons, hsign,
      decide_eq_false h, Bool.false_and, Bool.and_false]

theorem exec_toInt_text {image : Image} {base : Machine} {f : Frame} {below : List Frame}
    {vars stack : List Value} {output : String} (comment s : String) :
    exec image ⟨.toInt, comment⟩ (working base f below vars (.text s :: stack) output) =
      settle base f below vars stack output
        (if digitsOnly s then (Numeral.int? s).elim (.error (.crash .badNumeral)) (.ok ∘ .int)
        else .error (.machine .notWholeNumber)) := by
  have hpop : exec image ⟨.toInt, comment⟩ (working base f below vars (.text s :: stack) output) =
      (if digitsOnly s then do push (.int (← numeral (Numeral.int? s)))
        else complain .notWholeNumber : Exec Unit) (working base f below vars stack output) := rfl
  rw [hpop]
  split
  · cases Numeral.int? s <;> rfl
  · rfl

theorem exec_toText_int {image : Image} {base : Machine} {f : Frame} {below : List Frame}
    {vars stack : List Value} {output : String} (comment : String) (n : ℤ) :
    exec image ⟨.toText, comment⟩ (working base f below vars (.int n :: stack) output) =
      settle base f below vars stack output (if n.natAbs < 10 ^ Numeral.digitLimit then
        .ok (.text (toString n)) else .error (.crash .badNumeral)) := by
  have hpop : exec image ⟨.toText, comment⟩ (working base f below vars (.int n :: stack) output) =
      (attempt (Value.int n).render >>= fun s => push (.text s))
        (working base f below vars stack output) := rfl
  rw [hpop, Value.render, Numeral.ofInt?_eq]
  by_cases h : n.natAbs < 10 ^ Numeral.digitLimit
  · rw [if_pos h, if_pos h]
    rfl
  · rw [if_neg h, if_neg h]
    rfl

end Machine

/-- The call of a function with one argument. -/
def Expr.applied (function : Token) (e : Expr) : Expr :=
  .mk (some false) (.call function (some [e])) none none

namespace Generator

open Machine

theorem expr_applied {function : Token} {op : Op} (e : Expr)
    (h : conversion? function.lexeme = some op) (hop : op ≠ .length) :
    expr (.applied function e) = (do expr e; emit op) := by
  simp [Expr.applied, expr, term, h, emitConversion, hop, swaps]

/-- A whole number that is made a text and then a whole number again. The two operations stand behind
the code of the number. Executed with a number on top of the operands, they change nothing if it is
not negative; otherwise the text is taken and refused. A number that has no text for its length is
taken and ends the first operation. The conversions alone, without the limit, undo each other on all
whole numbers. -/
theorem stoi_itos (kind kind' : Token.Kind) (line column line' column' : Nat) (e : Expr) :
    expr (.applied ⟨kind, "stoi", line, column⟩ (.applied ⟨kind', "itos", line', column'⟩ e)) =
        (do expr e; emit .toText; emit .toInt) ∧
      (∀ (image : Image) (comment comment' : String) (base : Machine) (f : Frame)
        (below : List Frame) (vars stack : List Value) (output : String) (n : ℤ),
        (do exec image ⟨.toText, comment⟩; exec image ⟨.toInt, comment'⟩)
            (working base f below vars (.int n :: stack) output) =
          if 10 ^ Numeral.digitLimit ≤ n.natAbs then
            .error (.crash .badNumeral) (working base f below vars stack output)
          else if 0 ≤ n then .ok () (working base f below vars (.int n :: stack) output)
          else .error (.machine .notWholeNumber) (working base f below vars stack output)) ∧
      ∀ n : ℤ, Numeral.whole? (toString n) = some n ∧ digitsOnly (toString n) = decide (0 ≤ n) := by
  refine ⟨?_, ?_, fun n => ⟨Numeral.whole?_toString n, digitsOnly_toString n⟩⟩
  · rw [expr_applied _ rfl (by decide), expr_applied _ rfl (by decide), bind_assoc]
  · intro image comment comment' base f below vars stack output n
    by_cases hlong : 10 ^ Numeral.digitLimit ≤ n.natAbs
    · simp only [bind, EStateM.bind, exec_toText_int, if_neg (Nat.not_lt.2 hlong), if_pos hlong,
        settle]
    · simp only [bind, EStateM.bind, exec_toText_int, if_pos (Nat.not_le.1 hlong), if_neg hlong,
        settle, exec_toInt_text, digitsOnly_toString]
      by_cases h : 0 ≤ n
      · obtain ⟨k, rfl⟩ := Int.eq_ofNat_of_zero_le h
        rw [if_pos (decide_eq_true h), if_pos h, Numeral.int?_toString (n := k) (Nat.not_le.1 hlong)]
        rfl
      · rw [if_neg (by simpa using h), if_neg h]

end Generator

end StackLang
