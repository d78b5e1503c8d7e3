import Mathlib.Computability.RegularExpressions
import Mathlib.Data.List.TakeWhile
import Mathlib.Tactic.IntervalCases
import MiniLisp.Number.Literal

/-!
# The grammar of number tokens

A number token is `[+-]? (D+ (. D*)? | . D+) ([eE] [+-]? D+)?` with `D` an ASCII digit.  The grammar is a
regular expression (`Grammar.token`), while the reader takes a token apart from its front: sign, digits,
point, digits, and an exponent that has to be the rest.  Each part of the expression is one step of the
reader, and what follows a part never starts like it, so the reader's way of cutting a token is the only
one (`ofToken?_isSome_iff`).
-/

namespace MiniLisp.Number

open RegularExpression

variable {P : RegularExpression Char} {c : Char} {cs word rest : List Char}

/-! ## The expression -/

namespace Grammar

/-- One of some characters. -/
def oneOf (cs : List Char) : RegularExpression Char := (cs.map char).sum

/-- Something that may be left out. -/
def optional (P : RegularExpression Char) : RegularExpression Char := P + 1

def digit : RegularExpression Char :=
  oneOf ['0', '1', '2', '3', '4', '5', '6', '7', '8', '9']

/-- One digit or more. -/
def digits : RegularExpression Char := digit * digit.star

def sign : RegularExpression Char := oneOf ['+', '-']

/-- Digits with at most one point, and at least one digit on one side of it. -/
def mantissa : RegularExpression Char :=
  digits * optional (char '.' * digit.star) + char '.' * digits

def exponent : RegularExpression Char := oneOf ['e', 'E'] * (optional sign * digits)

/-- The tokens that are numbers. -/
def token : RegularExpression Char := optional sign * (mantissa * optional exponent)

end Grammar

open Grammar

/-! ## Members of its parts -/

theorem toNat_of_isDigit (h : c.isDigit = true) : 48 ≤ c.toNat ∧ c.toNat ≤ 57 := by
  simpa [Char.isDigit, UInt32.le_iff_toNat_le] using h

namespace Grammar

theorem mem_oneOf : word ∈ (oneOf cs).matches' ↔ ∃ c ∈ cs, word = [c] := by
  induction cs with
  | nil => exact ⟨False.elim, by rintro ⟨c, hc, _⟩; cases hc⟩
  | cons c cs ih =>
    have hsum : oneOf (c :: cs) = char c + oneOf cs := List.sum_cons
    rw [hsum, matches'_add, Language.mem_add, ih, matches'_char]
    constructor
    · rintro (hword | ⟨d, hd, hword⟩)
      · exact ⟨c, List.mem_cons_self, hword⟩
      · exact ⟨d, List.mem_cons_of_mem c hd, hword⟩
    · rintro ⟨d, hd, hword⟩
      rcases List.mem_cons.mp hd with rfl | hd
      · exact .inl hword
      · exact .inr ⟨d, hd, hword⟩

theorem mem_optional : word ∈ (optional P).matches' ↔ word ∈ P.matches' ∨ word = [] := by
  rw [optional, matches'_add, Language.mem_add, matches'_epsilon, Language.mem_one]

/-- The ASCII digits are the characters that the reader takes for digits. -/
theorem mem_digit : word ∈ digit.matches' ↔ ∃ c, c.isDigit = true ∧ word = [c] := by
  have hdigits : ∀ c : Char,
      c ∈ ['0', '1', '2', '3', '4', '5', '6', '7', '8', '9'] ↔ c.isDigit = true := by
    intro c
    constructor
    · have hall : ['0', '1', '2', '3', '4', '5', '6', '7', '8', '9'].all Char.isDigit = true := rfl
      exact List.all_eq_true.mp hall c
    · intro hc
      obtain ⟨hlow, hhigh⟩ := toNat_of_isDigit hc
      rw [← Char.ofNat_toNat c]
      interval_cases c.toNat <;> decide
  rw [digit, mem_oneOf]
  exact exists_congr fun c => and_congr_left fun _ => hdigits c

theorem mem_digit_star : word ∈ digit.star.matches' ↔ ∀ c ∈ word, c.isDigit = true := by
  rw [matches'_star, Language.mem_kstar]
  constructor
  · rintro ⟨parts, rfl, hparts⟩ c hc
    obtain ⟨part, hpart, hc⟩ := List.mem_flatten.mp hc
    obtain ⟨d, hd, rfl⟩ := mem_digit.mp (hparts part hpart)
    obtain rfl := List.mem_singleton.mp hc
    exact hd
  · intro hword
    refine ⟨word.map ([·]), (List.flatMap_singleton' word).symm, fun part hpart => ?_⟩
    obtain ⟨c, hc, rfl⟩ := List.mem_map.mp hpart
    exact mem_digit.mpr ⟨c, hword c hc, rfl⟩

theorem mem_digits : word ∈ digits.matches' ↔ word ≠ [] ∧ ∀ c ∈ word, c.isDigit = true := by
  rw [digits, matches'_mul, Language.mem_mul]
  constructor
  · rintro ⟨front, hfront, back, hback, rfl⟩
    obtain ⟨c, hc, rfl⟩ := mem_digit.mp hfront
    exact ⟨List.cons_ne_nil c back, List.forall_mem_cons.mpr ⟨hc, mem_digit_star.mp hback⟩⟩
  · rintro ⟨hne, hword⟩
    obtain ⟨c, cs, rfl⟩ := List.exists_cons_of_ne_nil hne
    obtain ⟨hc, hcs⟩ := List.forall_mem_cons.mp hword
    exact ⟨[c], mem_digit.mpr ⟨c, hc, rfl⟩, cs, mem_digit_star.mpr hcs, rfl⟩

/-- A mantissa is a run of digits and what a point adds to it, and has a digit. -/
theorem mem_mantissa : word ∈ mantissa.matches' ↔
    (word ≠ [] ∧ ∀ c ∈ word, c.isDigit = true) ∨
      ∃ whole fraction, word = whole ++ '.' :: fraction ∧ (∀ c ∈ whole, c.isDigit = true) ∧
        (∀ c ∈ fraction, c.isDigit = true) ∧ (whole ≠ [] ∨ fraction ≠ []) := by
  rw [mantissa, matches'_add, Language.mem_add, matches'_mul, matches'_mul, Language.mem_mul,
    Language.mem_mul]
  constructor
  · rintro (⟨whole, hwhole, tail, htail, rfl⟩ | ⟨point, hpoint, fraction, hfraction, rfl⟩)
    · obtain ⟨hne, hwhole⟩ := mem_digits.mp hwhole
      rcases mem_optional.mp htail with htail | rfl
      · obtain ⟨point, hpoint, fraction, hfraction, rfl⟩ := Language.mem_mul.mp htail
        obtain rfl : point = ['.'] := hpoint
        exact .inr ⟨whole, fraction, rfl, hwhole, mem_digit_star.mp hfraction, .inl hne⟩
      · rw [List.append_nil]
        exact .inl ⟨hne, hwhole⟩
    · obtain rfl : point = ['.'] := hpoint
      obtain ⟨hne, hfraction⟩ := mem_digits.mp hfraction
      exact .inr ⟨[], fraction, rfl, nofun, hfraction, .inr hne⟩
  · rintro (hword | ⟨whole, fraction, rfl, hwhole, hfraction, hne⟩)
    · exact .inl ⟨word, mem_digits.mpr hword, [], mem_optional.mpr (.inr rfl), List.append_nil word⟩
    -- digits before the point are optional only if some follow it
    · by_cases hnil : whole = []
      · subst hnil
        have hne : fraction ≠ [] := hne.resolve_left (absurd rfl)
        exact .inr ⟨['.'], rfl, fraction, mem_digits.mpr ⟨hne, hfraction⟩, rfl⟩
      · have hpoint : '.' :: fraction ∈ (char '.' * digit.star).matches' :=
          Language.mem_mul.mpr ⟨['.'], rfl, fraction, mem_digit_star.mpr hfraction, rfl⟩
        exact .inl ⟨whole, mem_digits.mpr ⟨hnil, hwhole⟩, '.' :: fraction,
          mem_optional.mpr (.inl hpoint), rfl⟩

end Grammar

/-! ## The sign -/

/-- The reader cuts a sign off, or nothing. -/
theorem exists_sign (word : List Char) :
    ∃ front ∈ (optional sign).matches', word = front ++ (splitSign word).2 := by
  unfold splitSign
  split
  · exact ⟨['-'], mem_optional.mpr (.inl (mem_oneOf.mpr ⟨'-', by simp, rfl⟩)), rfl⟩
  · exact ⟨['+'], mem_optional.mpr (.inl (mem_oneOf.mpr ⟨'+', by simp, rfl⟩)), rfl⟩
  · exact ⟨[], mem_optional.mpr (.inr rfl), rfl⟩

/-- It cuts the sign off that a word was given, if the word does not start with another one. -/
theorem splitSign_sign {front : List Char} (hfront : front ∈ (optional sign).matches')
    (hrest : ∀ c cs, rest = c :: cs → c ≠ '+' ∧ c ≠ '-') : (splitSign (front ++ rest)).2 = rest := by
  rcases mem_optional.mp hfront with hfront | rfl
  · obtain ⟨c, hc, rfl⟩ := mem_oneOf.mp hfront
    rcases List.mem_pair.mp hc with rfl | rfl <;> rfl
  · rw [List.nil_append]
    unfold splitSign
    split
    · exact absurd rfl (hrest '-' _ rfl).2
    · exact absurd rfl (hrest '+' _ rfl).1
    · rfl

/-- Neither digits nor the point are signs. -/
theorem not_sign (hc : c.isDigit = true ∨ c = '.') : c ≠ '+' ∧ c ≠ '-' := by
  constructor <;> (rintro rfl; revert hc; decide)

/-! ## The exponent -/

/-- The rest of a token is read as an exponent when it is one or is empty. -/
theorem exponent?_isSome_iff : (exponent? word).isSome = true ↔ word ∈ (optional exponent).matches' := by
  cases word with
  | nil => exact ⟨fun _ => mem_optional.mpr (.inr rfl), fun _ => rfl⟩
  | cons c rest =>
    -- what the reader tests, without its branches
    have hread : (exponent? (c :: rest)).isSome = true ↔ (c = 'e' ∨ c = 'E') ∧
        (splitSign rest).2 ≠ [] ∧ ∀ d ∈ (splitSign rest).2, d.isDigit = true := by
      rw [exponent?]
      simp only [← List.all_eq_true]
      split <;> simp_all
    rw [hread, mem_optional, or_iff_left (List.cons_ne_nil c rest), exponent, matches'_mul,
      Language.mem_mul]
    constructor
    · rintro ⟨hc, hdigits⟩
      obtain ⟨front, hfront, hrest⟩ := exists_sign rest
      have hmark : [c] ∈ (oneOf ['e', 'E']).matches' := mem_oneOf.mpr ⟨c, List.mem_pair.mpr hc, rfl⟩
      have hnumber : rest ∈ (optional sign * digits).matches' :=
        Language.mem_mul.mpr ⟨front, hfront, (splitSign rest).2, mem_digits.mpr hdigits, hrest.symm⟩
      exact ⟨[c], hmark, rest, hnumber, rfl⟩
    · rintro ⟨mark, hmark, number, hnumber, hword⟩
      obtain ⟨d, hd, rfl⟩ := mem_oneOf.mp hmark
      obtain ⟨rfl, rfl⟩ := List.cons.inj hword
      obtain ⟨front, hfront, back, hback, hrest⟩ := Language.mem_mul.mp hnumber
      obtain ⟨hne, hback⟩ := mem_digits.mp hback
      -- what follows the sign are digits, so the reader splits at the same place
      have hsplit : (splitSign number).2 = back := by
        rw [← hrest]
        refine splitSign_sign hfront fun e es hcons => not_sign (.inl (hback e ?_))
        rw [hcons]
        exact List.mem_cons_self
      change _ ∧ (splitSign number).2 ≠ [] ∧ ∀ e ∈ (splitSign number).2, e.isDigit = true
      rw [hsplit]
      exact ⟨List.mem_pair.mp hd, hne, hback⟩

/-- What follows the mantissa starts neither with a digit nor with a point. -/
theorem head_of_exponent (h : c :: cs ∈ (optional exponent).matches') : c.isDigit = false ∧ c ≠ '.' := by
  rw [mem_optional, or_iff_left (List.cons_ne_nil c cs)] at h
  obtain ⟨mark, hmark, number, -, hword⟩ := Language.mem_mul.mp h
  obtain ⟨d, hd, rfl⟩ := mem_oneOf.mp hmark
  obtain ⟨rfl, -⟩ := List.cons.inj hword
  rcases List.mem_pair.mp hd with rfl | rfl <;> decide

/-! ## Digits with a point among them -/

/-- A run of digits is cut off where something else follows. -/
theorem span_digits (hcs : ∀ c ∈ cs, c.isDigit = true)
    (hrest : ∀ c ds, rest = c :: ds → c.isDigit = false) :
    (cs ++ rest).takeWhile Char.isDigit = cs ∧ (cs ++ rest).dropWhile Char.isDigit = rest := by
  have hbehind : rest.takeWhile Char.isDigit = [] ∧ rest.dropWhile Char.isDigit = rest := by
    cases rest with
    | nil => exact ⟨rfl, rfl⟩
    | cons c ds =>
      have hc := hrest c ds rfl
      exact ⟨List.takeWhile_cons_of_neg (by simp [hc]), List.dropWhile_cons_of_neg (by simp [hc])⟩
  rw [List.takeWhile_append_of_pos hcs, List.dropWhile_append_of_pos hcs, hbehind.1, hbehind.2,
    List.append_nil]
  exact ⟨rfl, rfl⟩

/-- The body of a token behind its sign: the reader finds a digit before or behind the point, and an
exponent in the rest. -/
def IsBody (body : List Char) : Prop :=
  let tail := body.dropWhile Char.isDigit
  (body.takeWhile Char.isDigit ≠ [] ∨ (splitFraction tail).1 ≠ []) ∧
    (exponent? (splitFraction tail).2).isSome = true

theorem ofChars?_isSome_iff : (Literal.ofChars? word).isSome = true ↔ IsBody (splitSign word).2 := by
  unfold Literal.ofChars? IsBody
  dsimp only
  split
  · rename_i hnone
    simp [hnone.1, hnone.2]
  · rename_i hsome
    rw [Option.isSome_map, and_iff_right]
    rwa [not_and_or] at hsome

theorem mem_of_isBody {body : List Char} (h : IsBody body) :
    body ∈ (mantissa * optional exponent).matches' := by
  obtain ⟨hdigits, hexponent⟩ := h
  have hwhole : ∀ c ∈ body.takeWhile Char.isDigit, c.isDigit = true := fun c => List.mem_takeWhile_imp
  have hbody : body = body.takeWhile Char.isDigit ++ body.dropWhile Char.isDigit :=
    List.takeWhile_append_dropWhile.symm
  rw [hbody]
  generalize body.takeWhile Char.isDigit = whole at *
  generalize body.dropWhile Char.isDigit = tail at *
  unfold splitFraction at hdigits hexponent
  split at hdigits
  · rename_i behind
    have hfraction : ∀ c ∈ behind.takeWhile Char.isDigit, c.isDigit = true :=
      fun c => List.mem_takeWhile_imp
    refine Language.mem_mul.mpr ⟨whole ++ '.' :: behind.takeWhile Char.isDigit, ?_,
      behind.dropWhile Char.isDigit, exponent?_isSome_iff.mp hexponent, ?_⟩
    · exact mem_mantissa.mpr (.inr ⟨whole, _, rfl, hwhole, hfraction, hdigits⟩)
    · rw [List.append_assoc, List.cons_append, List.takeWhile_append_dropWhile]
  · refine Language.mem_mul.mpr ⟨whole, mem_mantissa.mpr (.inl ⟨?_, hwhole⟩), tail,
      exponent?_isSome_iff.mp ?_, rfl⟩
    · exact hdigits.resolve_right (absurd rfl)
    · simpa using hexponent

theorem isBody_append {front back : List Char} (hfront : front ∈ mantissa.matches')
    (hback : back ∈ (optional exponent).matches') : IsBody (front ++ back) := by
  have hexponent := exponent?_isSome_iff.mpr hback
  -- an exponent starts with no digit, so the digits in front of it end where it begins
  have hend : ∀ c cs, back = c :: cs → c.isDigit = false :=
    fun c cs hcons => (head_of_exponent (hcons ▸ hback)).1
  rcases mem_mantissa.mp hfront with ⟨hne, hdigits⟩ | ⟨whole, fraction, rfl, hwhole, hfraction, hne⟩
  · have hspan := span_digits hdigits hend
    have hpoint : splitFraction back = ([], back) := by
      unfold splitFraction
      split
      · exact absurd rfl (head_of_exponent hback).2
      · rfl
    rw [IsBody, hspan.1, hspan.2, hpoint]
    exact ⟨.inl hne, hexponent⟩
  · have hmark : ∀ c cs, '.' :: (fraction ++ back) = c :: cs → c.isDigit = false := by
      intro c cs hcons
      rw [← (List.cons.inj hcons).1]
      rfl
    have hspan := span_digits hwhole hmark
    have hbehind := span_digits hfraction hend
    have hpoint : splitFraction ('.' :: (fraction ++ back)) = (fraction, back) := by
      rw [splitFraction, hbehind.1, hbehind.2]
    rw [List.append_assoc, List.cons_append, IsBody, hspan.1, hspan.2, hpoint]
    exact ⟨hne, hexponent⟩

/-! ## Tokens -/

/-- A mantissa starts with a digit or with its point. -/
theorem head_of_mantissa (h : c :: cs ∈ mantissa.matches') : c.isDigit = true ∨ c = '.' := by
  rcases mem_mantissa.mp h with ⟨-, hdigits⟩ | ⟨whole, fraction, hword, hwhole, -⟩
  · exact .inl (hdigits c List.mem_cons_self)
  · cases whole with
    | nil => exact .inr (List.cons.inj hword).1
    | cons d ds =>
      rw [(List.cons.inj hword).1]
      exact .inl (hwhole d List.mem_cons_self)

theorem mantissa_ne_nil (h : cs ∈ mantissa.matches') : cs ≠ [] := by
  rcases mem_mantissa.mp h with ⟨hne, -⟩ | ⟨whole, fraction, rfl, -⟩
  · exact hne
  · simp

/-- A word is read as a number exactly when it is one by the grammar. -/
theorem ofToken?_isSome_iff : (ofToken? word).isSome = true ↔ word ∈ token.matches' := by
  rw [ofToken?, Option.isSome_map, ofChars?_isSome_iff]
  constructor
  · intro hbody
    obtain ⟨front, hfront, hword⟩ := exists_sign word
    exact Language.mem_mul.mpr ⟨front, hfront, _, mem_of_isBody hbody, hword.symm⟩
  · intro hword
    obtain ⟨front, hfront, body, hbody, rfl⟩ := Language.mem_mul.mp hword
    obtain ⟨number, hnumber, back, hback, rfl⟩ := Language.mem_mul.mp hbody
    have hrest : ∀ c cs, number ++ back = c :: cs → c ≠ '+' ∧ c ≠ '-' := by
      intro c cs hcons
      obtain ⟨d, ds, rfl⟩ := List.exists_cons_of_ne_nil (mantissa_ne_nil hnumber)
      rw [← (List.cons.inj hcons).1]
      exact not_sign (head_of_mantissa hnumber)
    rw [splitSign_sign hfront hrest]
    exact isBody_append hnumber hback

end MiniLisp.Number
