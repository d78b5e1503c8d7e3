import MiniLisp.Store.Bindings

/-!
# The order of names

Texts are ordered by their characters, and a character of a greater code point has a greater encoding.
So names in ascending order are in ascending order of their UTF-8 bytes too (`utf8_lt_utf8`).
-/

namespace MiniLisp.Text

variable {m n : Nat} {s t : List UInt8} {c d : Char} {cs ds : List Char}

/-- The bytes of a text in UTF-8. -/
def utf8 (text : String) : List UInt8 := text.toUTF8.data.toList

/-- Bytes are compared from the first one on. -/
theorem byte_cons_lt (hn : n < 256) (hle : m ≤ n) (hbehind : m = n → s < t) :
    UInt8.ofNat m :: s < UInt8.ofNat n :: t := by
  rw [List.cons_lt_cons_iff]
  rcases Nat.lt_or_eq_of_le hle with hlt | rfl
  · refine .inl (UInt8.lt_iff_toNat_lt.mpr ?_)
    rwa [UInt8.toNat_ofNat_of_lt' (Nat.lt_trans hlt hn), UInt8.toNat_ofNat_of_lt' hn]
  · exact .inr ⟨rfl, hbehind rfl⟩

/-- The encoding of a lesser character is lesser, whatever stands behind both. -/
theorem utf8EncodeChar_append_lt (h : c < d) :
    String.utf8EncodeChar c ++ s < String.utf8EncodeChar d ++ t := by
  have hlt : c.val.toNat < d.val.toNat := h
  have hd : d.val.toNat < 1114112 := by
    rcases d.valid with hd | hd <;> omega
  unfold String.utf8EncodeChar
  dsimp only
  generalize c.val.toNat = m at hlt
  generalize d.val.toNat = n at hlt hd
  -- Encodings of different lengths differ in the first byte, those of one length in the first digit
  -- to the base 64 in which the code points differ.
  by_cases hm₁ : m ≤ 127
  · rw [if_pos hm₁]
    by_cases hn₁ : n ≤ 127
    · rw [if_pos hn₁]
      exact byte_cons_lt (by omega) (by omega) (by omega)
    · rw [if_neg hn₁]
      split
      · exact byte_cons_lt (by omega) (by omega) (by omega)
      · split <;> exact byte_cons_lt (by omega) (by omega) (by omega)
  rw [if_neg hm₁, if_neg (by omega : ¬ n ≤ 127)]
  by_cases hm₂ : m ≤ 2047
  · rw [if_pos hm₂]
    by_cases hn₂ : n ≤ 2047
    · rw [if_pos hn₂]
      refine byte_cons_lt (by omega) (by omega) fun h₁ => ?_
      exact byte_cons_lt (by omega) (by omega) (by omega)
    · rw [if_neg hn₂]
      split <;> exact byte_cons_lt (by omega) (by omega) (by omega)
  rw [if_neg hm₂, if_neg (by omega : ¬ n ≤ 2047)]
  by_cases hm₃ : m ≤ 65535
  · rw [if_pos hm₃]
    by_cases hn₃ : n ≤ 65535
    · rw [if_pos hn₃]
      refine byte_cons_lt (by omega) (by omega) fun h₁ => ?_
      refine byte_cons_lt (by omega) (by omega) fun h₂ => ?_
      exact byte_cons_lt (by omega) (by omega) (by omega)
    · rw [if_neg hn₃]
      exact byte_cons_lt (by omega) (by omega) (by omega)
  rw [if_neg hm₃, if_neg (by omega : ¬ n ≤ 65535)]
  refine byte_cons_lt (by omega) (by omega) fun h₁ => ?_
  refine byte_cons_lt (by omega) (by omega) fun h₂ => ?_
  refine byte_cons_lt (by omega) (by omega) fun h₃ => ?_
  exact byte_cons_lt (by omega) (by omega) (by omega)

theorem flatMap_utf8EncodeChar_lt (h : cs < ds) :
    cs.flatMap String.utf8EncodeChar < ds.flatMap String.utf8EncodeChar := by
  induction cs generalizing ds with
  | nil =>
    cases ds with
    | nil => exact absurd h (List.lt_irrefl [])
    | cons d ds =>
      obtain ⟨b, bs, hencoded⟩ := List.exists_cons_of_ne_nil (String.utf8EncodeChar_ne_nil (c := d))
      rw [List.flatMap_cons, hencoded]
      exact List.nil_lt_cons b _
  | cons c cs ih =>
    cases ds with
    | nil => exact absurd h (List.not_lt_nil _)
    | cons d ds =>
      rw [List.flatMap_cons, List.flatMap_cons]
      rcases List.cons_lt_cons_iff.mp h with hlt | ⟨rfl, hlt⟩
      · exact utf8EncodeChar_append_lt hlt
      · exact List.append_left_lt (ih hlt)

theorem utf8_eq (text : String) : utf8 text = text.toList.flatMap String.utf8EncodeChar := by
  rw [utf8, String.toUTF8_eq_toByteArray, ← String.utf8Encode_toList, List.utf8Encode, List.data_toByteArray]

/-- Texts in order are in order of their bytes. -/
theorem utf8_lt_utf8 {first second : String} (h : first < second) : utf8 first < utf8 second := by
  rw [utf8_eq, utf8_eq]
  exact flatMap_utf8EncodeChar_lt h

end MiniLisp.Text
