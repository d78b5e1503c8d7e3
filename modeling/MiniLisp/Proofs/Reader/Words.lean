import MiniLisp.Datum.Word
import MiniLisp.Proofs.Number.Grammar

/-!
# What a word stands for

The numbers among the words are the tokens of the number grammar, the strings are the words between two
equal quotes, and all others are symbols (`Datum.ofWord_classified`).  A number token starts with no quote,
so no word is both a number and a string.
-/

namespace MiniLisp.Datum

open Number.Grammar

variable {word inner : List Char}

/-- The word is `inner` between two equal quotes. -/
def Quoted (word inner : List Char) : Prop :=
  ∃ quote, isQuote quote = true ∧ word = quote :: (inner ++ [quote])

theorem unquote?_eq_some_iff : unquote? word = some inner ↔ Quoted word inner := by
  constructor
  · intro h
    cases word with
    | nil => cases h
    | cons quote rest =>
      rw [unquote?] at h
      split at h
      · rename_i hends
        obtain rfl := Option.some.inj h
        have hne : rest ≠ [] := by
          rintro rfl
          cases hends.2
        have hlast : rest.getLast hne = quote :=
          Option.some.inj ((List.getLast?_eq_some_getLast hne).symm.trans hends.2)
        refine ⟨quote, hends.1, ?_⟩
        rw [← hlast, List.dropLast_append_getLast]
      · cases h
  · rintro ⟨quote, hquote, rfl⟩
    rw [unquote?, if_pos ⟨hquote, List.getLast?_concat⟩, List.dropLast_concat]

/-- A number token starts with a sign, a digit or its point. -/
theorem not_quoted_of_token (h : word ∈ token.matches') : ¬ Quoted word inner := by
  rintro ⟨quote, hquote, rfl⟩
  have hquote : quote ≠ '+' ∧ quote ≠ '-' ∧ quote.isDigit = false ∧ quote ≠ '.' := by
    have hcases : quote = '"' ∨ quote = '\'' := by simpa [isQuote] using hquote
    rcases hcases with rfl | rfl <;> decide
  obtain ⟨front, hfront, body, hbody, hword⟩ := Language.mem_mul.mp h
  rcases mem_optional.mp hfront with hfront | rfl
  · obtain ⟨c, hc, rfl⟩ := mem_oneOf.mp hfront
    obtain ⟨rfl, -⟩ := List.cons.inj hword
    rcases List.mem_pair.mp hc with rfl | rfl
    · exact hquote.1 rfl
    · exact hquote.2.1 rfl
  · obtain ⟨number, hnumber, back, -, rfl⟩ := Language.mem_mul.mp hbody
    obtain ⟨c, cs, rfl⟩ := List.exists_cons_of_ne_nil (Number.mantissa_ne_nil hnumber)
    obtain ⟨rfl, -⟩ := List.cons.inj hword
    rcases Number.head_of_mantissa hnumber with hdigit | hpoint
    · rw [hquote.2.2.1] at hdigit
      cases hdigit
    · exact hquote.2.2.2 hpoint

/-- A word is a number when the whole of it is a number token, a string when it stands between equal
quotes, which are taken away, and a symbol with all its characters when it is neither.  It is never
both a number token and quoted. -/
theorem ofWord_classified (word : List Char) :
    ((∃ x, ofWord word = .num x) ↔ word ∈ token.matches') ∧
    (∀ text, ofWord word = .str text ↔ Quoted word text.toList) ∧
    (∀ name, ofWord word = .sym name ↔
      name.toList = word ∧ word ∉ token.matches' ∧ ∀ inner, ¬ Quoted word inner) ∧
    ¬ (word ∈ token.matches' ∧ ∃ inner, Quoted word inner) := by
  have happart : ¬ (word ∈ token.matches' ∧ ∃ inner, Quoted word inner) := by
    rintro ⟨htoken, inner, hquoted⟩
    exact not_quoted_of_token htoken hquoted
  have hnumber : word ∈ token.matches' ↔ ∃ x, Number.ofToken? word = some x :=
    Number.ofToken?_isSome_iff.symm.trans Option.isSome_iff_exists
  rw [ofWord]
  -- the reader tries a number first, then quotes, and takes the word as a symbol otherwise
  cases htoken : Number.ofToken? word with
  | some x =>
    have hmem := hnumber.mpr ⟨x, htoken⟩
    refine ⟨iff_of_true ⟨x, rfl⟩ hmem, fun text => iff_of_false nofun ?_,
      fun name => iff_of_false nofun ?_, happart⟩
    · exact not_quoted_of_token hmem
    · exact fun h => h.2.1 hmem
  | none =>
    have hmem : word ∉ token.matches' := by
      rw [hnumber, htoken]
      exact nofun
    dsimp only
    cases hquote : unquote? word with
    | some inner =>
      have hquoted := unquote?_eq_some_iff.mp hquote
      refine ⟨iff_of_false nofun hmem, fun text => ?_, fun name => iff_of_false nofun ?_, happart⟩
      · rw [← unquote?_eq_some_iff, hquote, str.injEq, Option.some.injEq]
        constructor
        · rintro rfl
          exact String.toList_ofList.symm
        · rintro rfl
          exact String.ofList_toList
      · exact fun h => h.2.2 inner hquoted
    | none =>
      have hquoted : ∀ inner, ¬ Quoted word inner := by
        intro inner h
        rw [← unquote?_eq_some_iff, hquote] at h
        cases h
      refine ⟨iff_of_false nofun hmem, fun text => iff_of_false nofun (hquoted _), fun name => ?_,
        happart⟩
      constructor
      · rintro ⟨rfl⟩
        exact ⟨String.toList_ofList, hmem, hquoted⟩
      · rintro ⟨rfl, -⟩
        rw [String.ofList_toList]

end MiniLisp.Datum
