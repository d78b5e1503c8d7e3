import Mathlib.Data.List.DropRight
import Mathlib.Data.Nat.Digits.Defs
import MiniLisp.Limits
import MiniLisp.Proofs.Number.Grammar

/-!
# Limits from the environment

A variable sets its limit if its text is a positive number below `2 ^ 64`: blanks around an optional plus
sign and one or more digits (`Limits.Writes`).  With any other text, and without the variable, the limit
is the standard one, and neither variable matters to the other limit (`Limits.ofEnvironment_limits`).
-/

namespace MiniLisp

/-! ## Blanks at the ends -/

namespace Text

variable {c : Char} {cs front core back : List Char}

/-- Only blanks are trimmed. -/
theorem exists_trimmed (cs : List Char) : ∃ front back, cs = front ++ trimChars cs ++ back ∧
    (∀ c ∈ front, isBlank c = true) ∧ ∀ c ∈ back, isBlank c = true := by
  have htrim : trimChars cs = (cs.dropWhile isBlank).rdropWhile isBlank := rfl
  refine ⟨cs.takeWhile isBlank, (cs.dropWhile isBlank).rtakeWhile isBlank, ?_,
    fun c => List.mem_takeWhile_imp, fun c => List.mem_rtakeWhile_imp⟩
  rw [htrim, List.append_assoc, List.rdropWhile_append_rtakeWhile, List.takeWhile_append_dropWhile]

theorem dropWhile_isBlank_append (hfront : ∀ c ∈ front, isBlank c = true)
    (hcore : ∀ c ∈ core, isBlank c = false) (hne : core ≠ []) :
    (front ++ (core ++ back)).dropWhile isBlank = core ++ back := by
  obtain ⟨c, cs, rfl⟩ := List.exists_cons_of_ne_nil hne
  have hc : ¬ isBlank c = true := by simp [hcore c List.mem_cons_self]
  rw [List.dropWhile_append_of_pos hfront, List.cons_append, List.dropWhile_cons_of_neg hc]

/-- All blanks around other characters are trimmed. -/
theorem trimChars_append (hfront : ∀ c ∈ front, isBlank c = true) (hback : ∀ c ∈ back, isBlank c = true)
    (hcore : ∀ c ∈ core, isBlank c = false) (hne : core ≠ []) : trimChars (front ++ core ++ back) = core := by
  -- the end is trimmed from behind, which is the same on the reversed text
  have hbehind : (core ++ back).reverse.dropWhile isBlank = core.reverse := by
    have h : (back.reverse ++ (core.reverse ++ [])).dropWhile isBlank = core.reverse ++ [] :=
      dropWhile_isBlank_append (by simpa using hback) (by simpa using hcore) (by simpa using hne)
    rwa [List.append_nil, ← List.reverse_append] at h
  rw [trimChars, List.append_assoc, dropWhile_isBlank_append hfront hcore hne, hbehind,
    List.reverse_reverse]

theorem isBlank_of_isDigit (h : c.isDigit = true) : isBlank c = false := by
  obtain ⟨hlow, hhigh⟩ := Number.toNat_of_isDigit h
  simp [isBlank, blankRanges]
  omega

end Text

namespace Limits

variable {cs digits : List Char} {text : String} {n : Nat}

/-! ## Numbers in settings -/

/-- The number that a string of ASCII digits stands for. -/
def decimal (digits : List Char) : Nat :=
  Nat.ofDigits 10 (digits.reverse.map fun c => c.toNat - '0'.toNat)

/-- The number is written with digits, which may have a plus sign before them. -/
inductive Signed (n : Nat) : List Char → Prop where
  | intro {sign digits : List Char} (hsign : sign = [] ∨ sign = ['+']) (hne : digits ≠ [])
      (hdigits : ∀ c ∈ digits, c.isDigit = true) (hn : decimal digits = n) : Signed n (sign ++ digits)

/-- The text is a number that may have blanks around it. -/
inductive Writes (text : String) (n : Nat) : Prop where
  | intro {front core back : List Char} (htext : text.toList = front ++ core ++ back)
      (hfront : ∀ c ∈ front, Text.isBlank c = true) (hcore : Signed n core)
      (hback : ∀ c ∈ back, Text.isBlank c = true)

/-- Digits read from the left have the value that their places give them. -/
theorem digitsValue_eq_decimal (digits : List Char) : Number.digitsValue digits = decimal digits := by
  -- from the end: the reader takes digits from the left, places count from the right
  induction digits using List.reverseRecOn with
  | nil => rfl
  | append_singleton digits c ih =>
    rw [Number.digitsValue, List.foldl_append, decimal, List.reverse_append]
    change 10 * Number.digitsValue digits + _ = _
    rw [ih, decimal]
    simp [Nat.ofDigits_cons]
    omega

theorem natural?_eq_some_iff : natural? digits = some n ↔
    digits ≠ [] ∧ (∀ c ∈ digits, c.isDigit = true) ∧ decimal digits = n := by
  rw [natural?]
  split
  · rename_i h
    rw [List.all_eq_true] at h
    rw [Option.some.injEq, digitsValue_eq_decimal]
    exact ⟨fun hn => ⟨h.1, h.2, hn⟩, fun h => h.2.2⟩
  · rename_i h
    rw [List.all_eq_true] at h
    exact iff_of_false nofun fun hdigits => h ⟨hdigits.1, hdigits.2.1⟩

theorem signed?_eq_some_iff : signed? cs = some n ↔ Signed n cs := by
  constructor
  · intro h
    -- without a plus sign the digits must not be taken for one
    unfold signed? at h
    split at h
    · obtain ⟨hne, hdigits, hn⟩ := natural?_eq_some_iff.mp h
      exact .intro (.inr rfl) hne hdigits hn
    · obtain ⟨hne, hdigits, hn⟩ := natural?_eq_some_iff.mp h
      exact .intro (.inl rfl) hne hdigits hn
  · rintro ⟨hsign, hne, hdigits, hn⟩
    have hread := natural?_eq_some_iff.mpr ⟨hne, hdigits, hn⟩
    rcases hsign with rfl | rfl
    · rw [List.nil_append]
      unfold signed?
      split
      · exact absurd (hdigits '+' List.mem_cons_self) (by decide)
      · exact hread
    · exact hread

/-- A number has a digit, and none of its characters is blank. -/
theorem Signed.solid (h : Signed n cs) : cs ≠ [] ∧ ∀ c ∈ cs, Text.isBlank c = false := by
  obtain ⟨hsign, hne, hdigits, -⟩ := h
  refine ⟨fun hnil => hne (List.append_eq_nil_iff.mp hnil).2, fun c hc => ?_⟩
  rcases List.mem_append.mp hc with hc | hc
  · rcases hsign with rfl | rfl
    · cases hc
    · obtain rfl := List.mem_singleton.mp hc
      decide
  · exact Text.isBlank_of_isDigit (hdigits c hc)

theorem signed_trimChars_iff : Signed n (Text.trimChars text.toList) ↔ Writes text n := by
  constructor
  · intro h
    obtain ⟨front, back, htext, hfront, hback⟩ := Text.exists_trimmed text.toList
    exact .intro htext hfront h hback
  · rintro ⟨htext, hfront, hcore, hback⟩
    rwa [htext, Text.trimChars_append hfront hback hcore.solid.2 hcore.solid.1]

/-- A setting counts if it is a number of 64 bits other than zero. -/
theorem ofSetting?_eq_some_iff :
    ofSetting? text = some n ↔ Writes text n ∧ 1 ≤ n ∧ n ≤ 2 ^ 64 - 1 := by
  have hpow : Number.twoPow 64 = 2 ^ 64 := rfl
  rw [← signed_trimChars_iff, ← signed?_eq_some_iff, ofSetting?, hpow]
  cases signed? (Text.trimChars text.toList) with
  | none => exact iff_of_false nofun fun h => nomatch h.1
  | some m =>
    dsimp only
    split
    · rw [iff_self_and, Option.some.injEq]
      rintro rfl
      omega
    · refine iff_of_false nofun ?_
      rintro ⟨hm, hlow, hhigh⟩
      obtain rfl := Option.some.inj hm
      omega

example : ofSetting? " +007\t" = some 7 ∧ ofSetting? "18446744073709551616" = none := by
  decide +kernel

/-! ## Limits -/

/-- What a variable makes of a limit: the number in its text, if this is a number of 64 bits other than
zero, and otherwise the standard limit. -/
def Sets (setting : Option String) (standard limit : Nat) : Prop :=
  let Counts := fun n => ∃ text, setting = some text ∧ Writes text n ∧ 1 ≤ n ∧ n ≤ 2 ^ 64 - 1
  Counts limit ∨ (∀ n, ¬ Counts n) ∧ limit = standard

theorem sets_iff {setting : Option String} {standard limit : Nat} :
    (setting.bind ofSetting?).getD standard = limit ↔ Sets setting standard limit := by
  have hcounts : ∀ n, setting.bind ofSetting? = some n ↔
      ∃ text, setting = some text ∧ Writes text n ∧ 1 ≤ n ∧ n ≤ 2 ^ 64 - 1 := by
    intro n
    rw [Option.bind_eq_some_iff]
    exact exists_congr fun text => and_congr_right fun _ => ofSetting?_eq_some_iff
  unfold Sets
  simp only [← hcounts]
  cases setting.bind ofSetting? with
  | none => simp [eq_comm]
  | some n => simp

/-- A limit of 64 bits other than zero is left or replaced by another one. -/
theorem Sets.bounds {setting : Option String} {standard limit : Nat} (h : Sets setting standard limit)
    (hlow : 0 < standard) (hhigh : standard ≤ 2 ^ 64 - 1) : 0 < limit ∧ limit ≤ 2 ^ 64 - 1 := by
  rcases h with ⟨text, -, -, hbounds⟩ | ⟨-, rfl⟩
  · exact hbounds
  · exact ⟨hlow, hhigh⟩

/-- Each limit is set by its own variable alone, and is positive and has 64 bits. -/
theorem ofEnvironment_limits (setting? : String → Option String) :
    (∀ n, (ofEnvironment setting?).eval = n ↔ Sets (setting? "JIVE_MAX_EVAL_DEPTH") 10000 n) ∧
      (∀ n, (ofEnvironment setting?).read = n ↔ Sets (setting? "JIVE_MAX_PARSE_DEPTH") 1000 n) ∧
      (0 < (ofEnvironment setting?).eval ∧ (ofEnvironment setting?).eval ≤ 2 ^ 64 - 1) ∧
      0 < (ofEnvironment setting?).read ∧ (ofEnvironment setting?).read ≤ 2 ^ 64 - 1 := by
  have heval : ∀ n, (ofEnvironment setting?).eval = n ↔ Sets (setting? "JIVE_MAX_EVAL_DEPTH") 10000 n :=
    fun _ => sets_iff
  have hread : ∀ n, (ofEnvironment setting?).read = n ↔ Sets (setting? "JIVE_MAX_PARSE_DEPTH") 1000 n :=
    fun _ => sets_iff
  exact ⟨heval, hread, ((heval _).mp rfl).bounds (by decide) (by decide),
    ((hread _).mp rfl).bounds (by decide) (by decide)⟩

end Limits

end MiniLisp
