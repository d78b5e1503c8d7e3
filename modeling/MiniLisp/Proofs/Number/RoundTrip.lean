import MiniLisp.Number.Literal
import MiniLisp.Number.Text
import MiniLisp.Proofs.Number.Doubles
import MiniLisp.Proofs.Number.Grammar
import MiniLisp.Proofs.Number.Shortest

/-!
# Numbers read back

A finite number is written in positional notation, digits with at most one point among them
(`Positional`), of a decimal that the number stands for.  Such a token denotes exactly that decimal, and
the rounding of a decimal that a double stands for gives this double, so every finite number is read
back from its written form (`ofToken?_text`).
-/

namespace MiniLisp.Number

variable {negative : Bool} {x : Float} {v : Dyadic} {r : ℚ} {digits chars : List Char} {c : Char}

/-! ## Digits -/

@[simp] theorem digitsValue_nil : digitsValue [] = 0 := rfl

/-- A string of digits and one behind it. -/
theorem digitsValue_append (front back : List Char) :
    digitsValue (front ++ back) = 10 ^ back.length * digitsValue front + digitsValue back := by
  have happend : digitsValue (front ++ back) = Nat.ofDigitChars 10 back (digitsValue front) :=
    Nat.ofDigitChars_append 0
  rw [happend, Nat.ofDigitChars_eq_ofDigitChars_zero]
  rfl

theorem digitsValue_cons (c : Char) (cs : List Char) :
    digitsValue (c :: cs) = 10 ^ cs.length * (c.toNat - '0'.toNat) + digitsValue cs := by
  have hone : digitsValue [c] = c.toNat - '0'.toNat := by simp [digitsValue]
  rw [← hone]
  exact digitsValue_append [c] cs

@[simp] theorem digitsValue_zeros (k : Nat) : digitsValue (List.replicate k '0') = 0 :=
  Nat.ofDigitChars_replicate_zero

@[simp] theorem digitsValue_toDigits (n : Nat) : digitsValue (Nat.toDigits 10 n) = n :=
  Nat.ofDigitChars_ten_toDigits

/-- Leading zeros do not count. -/
@[simp] theorem digitsValue_dropZeros (digits : List Char) :
    digitsValue (digits.dropWhile (· = '0')) = digitsValue digits := by
  induction digits with
  | nil => rfl
  | cons c cs ih =>
    by_cases hc : c = '0'
    · rw [List.dropWhile_cons_of_pos (by simpa using hc), ih, digitsValue_cons, hc]
      simp
    · rw [List.dropWhile_cons_of_neg (by simpa using hc)]

theorem digitsValue_lt (h : ∀ c ∈ digits, c.isDigit = true) :
    digitsValue digits < 10 ^ digits.length := by
  induction digits with
  | nil => exact Nat.one_pos
  | cons c cs ih =>
    have hrest := ih fun d hd => h d (List.mem_cons_of_mem c hd)
    have hc := toNat_of_isDigit (h c List.mem_cons_self)
    have hzero : '0'.toNat = 48 := rfl
    have hdigit : 10 ^ cs.length * (c.toNat - '0'.toNat) ≤ 10 ^ cs.length * 9 :=
      Nat.mul_le_mul_left _ (by omega)
    rw [digitsValue_cons, List.length_cons, Nat.pow_succ]
    omega

/-- A string of digits without leading zeros is at least the power of ten of its length. -/
theorem le_digitsValue {cs : List Char} (hc : c.isDigit = true) (hzero : c ≠ '0') :
    10 ^ cs.length ≤ digitsValue (c :: cs) := by
  have hbounds := toNat_of_isDigit hc
  have hzero' : c.toNat ≠ 48 := fun h => hzero (Char.toNat_inj.mp h)
  have hdigit : 10 ^ cs.length * 1 ≤ 10 ^ cs.length * (c.toNat - '0'.toNat) := by
    have hval : '0'.toNat = 48 := rfl
    exact Nat.mul_le_mul_left _ (by omega)
  rw [digitsValue_cons]
  omega

/-! ## Positional notation -/

/-- Digits with at most one point among them, and the fraction that they denote. -/
inductive Positional : List Char → ℚ → Prop where
  | whole {digits : List Char} (hne : digits ≠ []) (hdigits : ∀ c ∈ digits, c.isDigit = true) :
      Positional digits (digitsValue digits)
  | point {whole fraction : List Char} (hne : whole ≠ []) (hwhole : ∀ c ∈ whole, c.isDigit = true)
      (hfraction : ∀ c ∈ fraction, c.isDigit = true) :
      Positional (whole ++ '.' :: fraction)
        (digitsValue (whole ++ fraction) * 10 ^ (-fraction.length : Int))

/-- A point among the digits of a whole number divides it by a power of ten. -/
theorem Positional.of_point {n : Nat} {whole fraction : List Char} (hne : whole ≠ [])
    (hwhole : ∀ c ∈ whole, c.isDigit = true) (hfraction : ∀ c ∈ fraction, c.isDigit = true)
    (hvalue : digitsValue (whole ++ fraction) = n) :
    Positional (whole ++ '.' :: fraction) (n * 10 ^ (-fraction.length : Int)) := by
  rw [← hvalue]
  exact .point hne hwhole hfraction

theorem isDigit_of_mem_toDigits {n : Nat} (h : c ∈ Nat.toDigits 10 n) : c.isDigit = true :=
  Nat.isDigit_of_mem_toDigits (by decide) (by decide) h

theorem isDigit_of_mem_zeros {k : Nat} (h : c ∈ List.replicate k '0') : c.isDigit = true := by
  rw [List.eq_of_mem_replicate h]
  rfl

/-- Zeros behind the digits of a number multiply it. -/
theorem positional_trailing (n k : Nat) :
    Positional (Nat.toDigits 10 n ++ List.replicate k '0') (n * 10 ^ k) := by
  have hvalue : (n * 10 ^ k : ℚ) = digitsValue (Nat.toDigits 10 n ++ List.replicate k '0') := by
    rw [digitsValue_append, digitsValue_toDigits, digitsValue_zeros, List.length_replicate]
    push_cast
    ring
  rw [hvalue]
  refine .whole (by simp [Nat.toDigits_ne_nil]) ?_
  intro c hc
  rcases List.mem_append.mp hc with hc | hc
  · exact isDigit_of_mem_toDigits hc
  · exact isDigit_of_mem_zeros hc

/-- A point among the digits of a number divides it. -/
theorem positional_among {n places cut : Nat} (hcut : (Nat.toDigits 10 n).length = cut + places)
    (hpos : 0 < cut) :
    Positional ((Nat.toDigits 10 n).take cut ++ '.' :: (Nat.toDigits 10 n).drop cut)
      (n * 10 ^ (-places : Int)) := by
  have hlength : ((Nat.toDigits 10 n).drop cut).length = places := by
    rw [List.length_drop]
    omega
  have hwhole : (Nat.toDigits 10 n).take cut ≠ [] := by
    intro hnil
    rcases List.take_eq_nil_iff.mp hnil with h | h
    · omega
    · exact Nat.toDigits_ne_nil h
  have hvalue : digitsValue ((Nat.toDigits 10 n).take cut ++ (Nat.toDigits 10 n).drop cut) = n := by
    rw [List.take_append_drop, digitsValue_toDigits]
  have hpoint := Positional.of_point hwhole
    (fun c hc => isDigit_of_mem_toDigits (List.mem_of_mem_take hc))
    (fun c hc => isDigit_of_mem_toDigits (List.mem_of_mem_drop hc)) hvalue
  rwa [hlength] at hpoint

/-- So does a point before them, with zeros behind the point. -/
theorem positional_before {n places zeros : Nat}
    (hplaces : zeros + (Nat.toDigits 10 n).length = places) :
    Positional ('0' :: '.' :: (List.replicate zeros '0' ++ Nat.toDigits 10 n))
      (n * 10 ^ (-places : Int)) := by
  have hlength : (List.replicate zeros '0' ++ Nat.toDigits 10 n).length = places := by
    rw [List.length_append, List.length_replicate, hplaces]
  have hfraction : ∀ c ∈ List.replicate zeros '0' ++ Nat.toDigits 10 n, c.isDigit = true := by
    intro c hc
    rcases List.mem_append.mp hc with hc | hc
    · exact isDigit_of_mem_zeros hc
    · exact isDigit_of_mem_toDigits hc
  have hvalue : digitsValue (['0'] ++ (List.replicate zeros '0' ++ Nat.toDigits 10 n)) = n := by
    rw [List.singleton_append, digitsValue_cons, digitsValue_append, digitsValue_zeros,
      digitsValue_toDigits]
    simp
  have hpoint := Positional.of_point (List.cons_ne_nil '0' [])
    (fun c hc => by rw [List.mem_singleton.mp hc]; rfl) hfraction hvalue
  rwa [hlength] at hpoint

/-- The notation of a decimal denotes it. -/
theorem positional_plain (d : Decimal) : Positional d.plain d.value := by
  unfold Decimal.plain
  dsimp only
  split
  · rename_i hexponent
    rw [Decimal.value, zpow_of_nonneg 10 hexponent]
    exact positional_trailing d.digits _
  · have hplaces : d.exponent = -((-d.exponent).toNat : Int) := by omega
    rw [Decimal.value, hplaces]
    generalize (-d.exponent).toNat = places
    rw [Int.neg_neg, Int.toNat_natCast]
    split
    · exact positional_among (by omega) (by omega)
    · exact positional_before (by omega)

/-! ## Tokens -/

/-- The minus sign of a negative number. -/
def signChars (negative : Bool) : List Char := if negative then ['-'] else []

theorem splitSign_append (negative : Bool) {cs : List Char} (hc : c.isDigit = true) :
    splitSign (signChars negative ++ c :: cs) = (negative, c :: cs) := by
  have hbounds := toNat_of_isDigit hc
  cases negative with
  | true => rfl
  | false =>
    have hminus : c ≠ '-' := by
      rintro rfl
      exact absurd hc (by decide)
    have hplus : c ≠ '+' := by
      rintro rfl
      exact absurd hc (by decide)
    unfold splitSign signChars
    split
    · rename_i h
      exact absurd (List.cons.inj h).1 hminus
    · rename_i h
      exact absurd (List.cons.inj h).1 hplus
    · rfl

/-- A token is cut into its sign, the digits in front of the point and those behind it. -/
theorem Literal.ofChars?_append (negative : Bool) {whole tail fraction : List Char} (hne : whole ≠ [])
    (hwhole : ∀ c ∈ whole, c.isDigit = true) (htail : ∀ c cs, tail = c :: cs → c.isDigit = false)
    (hfraction : splitFraction tail = (fraction, [])) :
    Literal.ofChars? (signChars negative ++ (whole ++ tail)) =
      some ⟨negative, whole ++ fraction, -fraction.length⟩ := by
  obtain ⟨htake, hdrop⟩ := span_digits hwhole htail
  have hsign : splitSign (signChars negative ++ (whole ++ tail)) = (negative, whole ++ tail) := by
    obtain ⟨c, cs, rfl⟩ := List.exists_cons_of_ne_nil hne
    exact splitSign_append negative (hwhole c List.mem_cons_self)
  unfold Literal.ofChars?
  rw [hsign]
  simp only [htake, hdrop, hfraction]
  rw [if_neg (by simp [hne])]
  simp [exponent?]

/-- A token in positional notation is read as the fraction that it denotes. -/
theorem Positional.literal (h : Positional chars r) (negative : Bool) :
    ∃ digits scale, Literal.ofChars? (signChars negative ++ chars) = some ⟨negative, digits, scale⟩ ∧
      (∀ c ∈ digits, c.isDigit = true) ∧ (digitsValue digits * 10 ^ scale : ℚ) = r := by
  cases h with
  | whole hne hdigits =>
    have hnil : ∀ (c : Char) (cs : List Char), [] = c :: cs → c.isDigit = false := fun _ _ => nofun
    have hread := Literal.ofChars?_append negative hne hdigits hnil rfl
    simp only [List.append_nil, List.length_nil] at hread
    exact ⟨chars, _, hread, hdigits, by simp⟩
  | @point whole fraction hne hwhole hfraction =>
    have hpoint : splitFraction ('.' :: fraction) = (fraction, []) := by
      have htake : fraction.takeWhile Char.isDigit = fraction := List.takeWhile_eq_self_iff.mpr hfraction
      have hdrop : fraction.dropWhile Char.isDigit = [] := List.dropWhile_eq_nil_iff.mpr hfraction
      rw [splitFraction, htake, hdrop]
    have hread := Literal.ofChars?_append negative hne hwhole
      (fun c cs hcons => by rw [← (List.cons.inj hcons).1]; rfl) hpoint
    refine ⟨whole ++ fraction, _, hread, ?_, rfl⟩
    intro c hc
    rcases List.mem_append.mp hc with hc | hc
    · exact hwhole c hc
    · exact hfraction c hc

/-! ## Rounding -/

theorem two_pow_lt_ten_pow : 2 ^ 1024 < 10 ^ 309 ∧ 2 ^ 1075 < 10 ^ 324 := by decide +kernel

namespace Dyadic

/-- How large the fractions are that a positive double stands for. -/
theorem Near.bounds (hv : v.Canonical) (hpos : 0 < v.significand) (hnear : v.Near r) :
    (10 : ℚ) ^ (-324 : Int) < r ∧ r < 10 ^ (309 : Int) := by
  have hscale : (0 : ℚ) < 2 ^ v.exponent := by positivity
  have hcancel : r / 2 ^ v.exponent * 2 ^ v.exponent = r := div_mul_cancel₀ _ (ne_of_gt hscale)
  have hsmall : (2 : ℚ) ^ leastExponent ≤ 2 ^ v.exponent := zpow_le_zpow_right₀ (by norm_num) hv.least
  have hlarge : (2 : ℚ) ^ v.exponent ≤ 2 ^ (971 : Int) := zpow_le_zpow_right₀ (by norm_num) hv.greatest
  -- one half of the least double is the worst case below: a significand of one, and a reach of one half
  have hlow : (1 / 2 : ℚ) ≤ r / 2 ^ v.exponent := by
    have hone : (1 : ℚ) ≤ v.significand := by exact_mod_cast hpos
    have hreach : (v.reachBelow : ℚ) ≤ 2 := by exact_mod_cast v.reachBelow_le
    linarith [hnear.low]
  -- above, a neighbour may be reached half of the way, which stays within the next power of two
  have hhigh : r / 2 ^ v.exponent ≤ 2 ^ (53 : Int) := by
    have htop : v.significand + 1 ≤ 2 * 4503599627370496 := hv.significand
    have hcast : (v.significand + 1 : ℚ) ≤ 2 * 4503599627370496 := by exact_mod_cast htop
    norm_num
    linarith [hnear.high]
  constructor
  · have hpowers : (2 : ℚ) ^ 1075 < 10 ^ 324 := by exact_mod_cast two_pow_lt_ten_pow.2
    have hleast : (1 / 2 * 2 ^ leastExponent : ℚ) = (2 ^ 1075)⁻¹ := by
      rw [leastExponent, pow_succ, zpow_neg, one_div, mul_inv, mul_comm]
      rfl
    calc (10 : ℚ) ^ (-324 : Int) = (10 ^ 324)⁻¹ := zpow_neg_coe_of_pos 10 (by norm_num)
      _ < (2 ^ 1075)⁻¹ := by gcongr
      _ = 1 / 2 * 2 ^ leastExponent := hleast.symm
      _ ≤ r / 2 ^ v.exponent * 2 ^ v.exponent := by gcongr
      _ = r := hcancel
  · have hpowers : (2 : ℚ) ^ 1024 < 10 ^ 309 := by exact_mod_cast two_pow_lt_ten_pow.1
    calc r = r / 2 ^ v.exponent * 2 ^ v.exponent := hcancel.symm
      _ ≤ 2 ^ (53 : Int) * 2 ^ (971 : Int) := by gcongr
      _ = 2 ^ (1024 : Int) := by rw [← zpow_add₀ (by norm_num)]; rfl
      _ < 10 ^ (309 : Int) := hpowers

end Dyadic

/-- A string of digits that starts with another digit than zero has the size of its length. -/
theorem digitsValue_bounds (h : ∀ c ∈ digits, c.isDigit = true)
    (hhead : ∀ c cs, digits = c :: cs → c ≠ '0') (hvalue : digitsValue digits ≠ 0) :
    (10 : ℚ) ^ (digits.length - 1 : Int) ≤ digitsValue digits ∧
      (digitsValue digits : ℚ) < 10 ^ (digits.length : Int) := by
  constructor
  · cases digits with
    | nil => exact absurd digitsValue_nil hvalue
    | cons c cs =>
      have hlow : 10 ^ cs.length ≤ digitsValue (c :: cs) :=
        le_digitsValue (h c List.mem_cons_self) (hhead c cs rfl)
      have hlength : ((c :: cs).length - 1 : Int) = (cs.length : Nat) := by simp
      rw [hlength, zpow_natCast]
      exact_mod_cast hlow
  · rw [zpow_natCast]
    exact_mod_cast digitsValue_lt h

theorem ofRatio_of_near {num den : Nat} (hnum : 0 < num) (hden : 0 < den) (hv : v.Canonical)
    (hnear : v.Near (num / den)) : ofRatio negative num den = ofMagnitude negative v.bits := by
  rw [ofRatio, if_neg (Nat.ne_of_gt hnum), nearestBits_eq hnum hden hv hnear]

/-- Digits without leading zeros that denote a fraction of moderate size are neither too few nor too
many. -/
theorem places_of_bounds {scale : Int} (hdigits : ∀ c ∈ digits, c.isDigit = true)
    (hhead : ∀ c cs, digits = c :: cs → c ≠ '0') (hvalue : digitsValue digits ≠ 0)
    (hlow : (10 : ℚ) ^ (-324 : Int) < digitsValue digits * 10 ^ scale)
    (hhigh : (digitsValue digits : ℚ) * 10 ^ scale < 10 ^ (309 : Int)) :
    -324 < (digits.length : Int) + scale ∧ (digits.length - 1 : Int) + scale < 309 := by
  obtain ⟨hmin, hmax⟩ := digitsValue_bounds hdigits hhead hvalue
  have hten : (0 : ℚ) < 10 ^ scale := by positivity
  have hplaces : ∀ {a b : Int}, (10 : ℚ) ^ a < 10 ^ b → a < b :=
    fun h => (zpow_lt_zpow_iff_right₀ (by norm_num)).mp h
  constructor
  · apply hplaces
    calc (10 : ℚ) ^ (-324 : Int) < digitsValue digits * 10 ^ scale := hlow
      _ ≤ 10 ^ (digits.length : Int) * 10 ^ scale := by gcongr
      _ = 10 ^ ((digits.length : Int) + scale) := (zpow_add₀ (by norm_num) _ _).symm
  · apply hplaces
    calc (10 : ℚ) ^ ((digits.length - 1 : Int) + scale)
        = 10 ^ (digits.length - 1 : Int) * 10 ^ scale := zpow_add₀ (by norm_num) _ _
      _ ≤ digitsValue digits * 10 ^ scale := by gcongr
      _ < 10 ^ (309 : Int) := hhigh

/-- A token is rounded to the double that stands for the fraction that the token denotes. -/
theorem Literal.toFloat_of_near {l : Literal} (hdigits : ∀ c ∈ l.digits, c.isDigit = true)
    (hv : v.Canonical) (hpos : 0 < v.significand)
    (hnear : v.Near (digitsValue l.digits * 10 ^ l.scale)) :
    l.toFloat = ofMagnitude l.negative v.bits := by
  obtain ⟨hlow, hhigh⟩ := hnear.bounds hv hpos
  have hsignificant : ∀ c ∈ l.digits.dropWhile (· = '0'), c.isDigit = true :=
    fun c hc => hdigits c ((List.dropWhile_sublist _).mem hc)
  have hhead : ∀ c cs, l.digits.dropWhile (· = '0') = c :: cs → c ≠ '0' := by
    intro c cs hcons
    have hne : l.digits.dropWhile (· = '0') ≠ [] := by simp [hcons]
    simpa [hcons] using List.head_dropWhile_not (· = '0') hne
  have hvalue : digitsValue l.digits ≠ 0 := by
    intro hzero
    rw [hzero, Nat.cast_zero, zero_mul] at hlow
    exact absurd hlow (not_lt_of_gt (by positivity))
  unfold Literal.toFloat
  dsimp only
  -- leading zeros carry no value, but the limits on places count without them
  rw [← digitsValue_dropZeros] at hvalue hlow hhigh hnear
  obtain ⟨hfew, hmany⟩ := places_of_bounds hsignificant hhead hvalue hlow hhigh
  generalize l.digits.dropWhile (· = '0') = significant at *
  -- so neither of the two shortcuts for huge and tiny numbers is taken
  rw [if_neg (by omega), if_neg (by omega)]
  have hvalue' : 0 < digitsValue significant := Nat.pos_of_ne_zero hvalue
  split
  · rename_i hwhole
    refine ofRatio_of_near (Nat.mul_pos hvalue' (tenPow_pos _)) Nat.one_pos hv ?_
    rw [zpow_of_nonneg 10 hwhole] at hnear
    simpa using hnear
  · rename_i hfraction
    refine ofRatio_of_near hvalue' (tenPow_pos _) hv ?_
    rw [zpow_of_neg 10 hfraction] at hnear
    simpa [div_eq_mul_inv] using hnear

theorem Literal.toFloat_zero {l : Literal} (h : digitsValue l.digits = 0) :
    l.toFloat = ofMagnitude l.negative 0 := by
  unfold Literal.toFloat
  dsimp only
  rw [if_pos (.inl (by rw [digitsValue_dropZeros, h]))]

/-! ## Numbers -/

/-- A finite number is written with a sign in positional notation. -/
theorem chars_of_finite (negative : Bool) (v : Dyadic) :
    (Reading.finite negative v).chars = signChars negative ++ v.plain := rfl

theorem positional_of_zero : Positional ['0'] 0 := by
  have h : Positional ['0'] ((digitsValue ['0'] : Nat) : ℚ) :=
    .whole (List.cons_ne_nil _ _) fun c hc => by rw [List.mem_singleton.mp hc]; rfl
  have hzero : digitsValue ['0'] = 0 := rfl
  rwa [hzero, Nat.cast_zero] at h

theorem Positional.mem (h : Positional chars r) (hc : c ∈ chars) : c.isDigit = true ∨ c = '.' := by
  cases h with
  | whole _ hdigits => exact .inl (hdigits c hc)
  | point _ hwhole hfraction =>
    rcases List.mem_append.mp hc with hc | hc
    · exact .inl (hwhole c hc)
    · rcases List.mem_cons.mp hc with rfl | hc
      · exact .inr rfl
      · exact .inl (hfraction c hc)

/-- A finite number is written with digits, a point and a minus sign. -/
theorem mem_text_of_read (h : read x = .finite negative v) (hc : c ∈ (text x).toList) :
    c.isDigit = true ∨ c = '.' ∨ c = '-' := by
  have hplain : ∃ r, Positional v.plain r := by
    unfold Dyadic.plain
    split
    · exact ⟨0, positional_of_zero⟩
    · exact ⟨_, positional_plain v.shortest⟩
  obtain ⟨r, hr⟩ := hplain
  rw [text, h, chars_of_finite, String.toList_ofList] at hc
  rcases List.mem_append.mp hc with hc | hc
  · cases negative with
    | true => exact .inr (.inr (List.mem_singleton.mp hc))
    | false => cases hc
  · exact (hr.mem hc).imp_right .inl

/-- Every finite number is read back from its written form. -/
theorem ofToken?_text (h : read x = .finite negative v) : ofToken? (text x).toList = some x := by
  have hv := (fields_of_read h).1
  have hback := ofMagnitude_of_read h
  rw [text, h, chars_of_finite, String.toList_ofList, ofToken?, Dyadic.plain]
  -- zero is apart: it has no shortest digits, and only its sign and its bits are left
  split
  · rename_i hzero
    obtain ⟨digits, scale, hread, _, hvalue⟩ := positional_of_zero.literal negative
    have hdigits : digitsValue digits = 0 := by
      have hten : (10 : ℚ) ^ scale ≠ 0 := by positivity
      have hcast : (digitsValue digits : ℚ) = 0 := (mul_eq_zero.mp hvalue).resolve_right hten
      exact_mod_cast hcast
    have hbits : v.bits = 0 := by
      have hleast : v.exponent = leastExponent := by
        rcases hv.normal with hleast | hnormal
        · exact hleast
        · rw [hzero] at hnormal
          exact absurd hnormal (by decide)
      rw [Dyadic.bits, hleast, hzero, Int.sub_self]
      simp
    rw [hread, Option.map_some, Literal.toFloat_zero hdigits, ← hbits, hback]
  · rename_i hsignificand
    have hpos := Nat.pos_of_ne_zero hsignificand
    obtain ⟨digits, scale, hread, hdigits, hvalue⟩ :=
      (positional_plain v.shortest).literal negative
    have hnear := Dyadic.near_shortest hpos
    rw [← hvalue] at hnear
    have hfloat := Literal.toFloat_of_near (l := ⟨negative, digits, scale⟩) hdigits hv hpos hnear
    rw [hread, Option.map_some, hfloat, hback]

end MiniLisp.Number
