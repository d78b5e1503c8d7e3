import MiniLisp.Proofs.Number.RoundTrip
import MiniLisp.Proofs.Value.Textual
import MiniLisp.Value.Printer

/-!
# Values written as data

A value that is made of finite numbers, strings, symbols and lists is written as a datum would be: its
text is a written form of a datum whose value it is (`written_text`), if its strings hold no delimiters
and its symbols are words.
-/

namespace MiniLisp

/-- The number is neither infinite nor no number. -/
def Number.IsFinite (x : Float) : Prop := ∃ negative magnitude, read x = .finite negative magnitude

/-! ## Words of atoms -/

namespace Datum

theorem isDelimiter_of_isDigit {c : Char} (h : c.isDigit = true) : isDelimiter c = false := by
  cases hc : isDelimiter c with
  | false => rfl
  | true =>
    have hcases : (c = '(' ∨ c = ')') ∨ ((c = ' ' ∨ c = '\t') ∨ c = '\n') ∨ c = '\r' := by
      simpa [isDelimiter, isSeparator] using hc
    rcases hcases with (rfl | rfl) | ((rfl | rfl) | rfl) | rfl <;> exact absurd h (by decide)

/-- The written form of a finite number is a word. -/
theorem isWord_number {x : Float} (h : Number.IsFinite x) : IsWord (Number.text x).toList := by
  obtain ⟨negative, magnitude, hread⟩ := h
  constructor
  · intro hnil
    have htoken := Number.ofToken?_text hread
    rw [hnil] at htoken
    cases htoken
  · intro c hc
    rcases Number.mem_text_of_read hread hc with hdigit | rfl | rfl
    · exact isDelimiter_of_isDigit hdigit
    · rfl
    · rfl

theorem ofWord_number {x : Float} (h : Number.IsFinite x) : ofWord (Number.text x).toList = .num x := by
  obtain ⟨negative, magnitude, hread⟩ := h
  rw [ofWord, Number.ofToken?_text hread]

section Quoted

variable {quote : Char} {letters : List Char}

/-- A string between quotes is a word if it holds no delimiter. -/
theorem isWord_quoted (hquote : isQuote quote = true) (h : ∀ c ∈ letters, isDelimiter c = false) :
    IsWord (quote :: (letters ++ [quote])) := by
  have hsolid : isDelimiter quote = false := by
    have hcases : quote = '"' ∨ quote = '\'' := by simpa [isQuote] using hquote
    rcases hcases with rfl | rfl <;> rfl
  refine ⟨List.cons_ne_nil _ _, ?_⟩
  intro c hc
  rcases List.mem_cons.mp hc with rfl | hc
  · exact hsolid
  · rcases List.mem_append.mp hc with hc | hc
    · exact h c hc
    · rw [List.mem_singleton.mp hc]
      exact hsolid

/-- It is read as the string between the quotes, which may hold quotes itself. -/
theorem ofWord_quoted (hquote : isQuote quote = true) (letters : List Char) :
    ofWord (quote :: (letters ++ [quote])) = .str (String.ofList letters) := by
  have hnumber : Number.ofToken? (quote :: (letters ++ [quote])) = none := by
    have hcases : quote = '"' ∨ quote = '\'' := by simpa [isQuote] using hquote
    rcases hcases with rfl | rfl <;> rfl
  have hstring : unquote? (quote :: (letters ++ [quote])) = some letters := by
    rw [unquote?, if_pos ⟨hquote, List.getLast?_concat⟩, List.dropLast_concat]
  rw [ofWord, hnumber, hstring]

end Quoted

end Datum

namespace Value

/-! ## Texts -/

mutual

theorem spell_eq_append (out : String) : (v : Value) → v.spell (· ++ ·) out = out ++ v.text
  | num x => by simp [text, spell]
  | str s => by simp [text, spell, String.append_assoc]
  | sym n => by simp [text, spell]
  | bool b => by simp [text, spell]
  | list [] => by simp [text, spell, String.append_assoc]
  | list (v :: vs) => by
    simp only [text, spell]
    rw [spellRest_eq_append, spellRest_eq_append (spell (· ++ ·) ("" ++ "(") v),
      spell_eq_append (out ++ "("), spell_eq_append ("" ++ "(")]
    simp [String.append_assoc]
  | closure id => by simp [text, spell]
  | primitive p => by simp [text, spell, String.append_assoc]
  | nil => by simp [text, spell]
  | unspecified => by simp [text, spell]

theorem spellRest_eq_append (out : String) :
    (vs : List Value) → spellRest (· ++ ·) out vs = out ++ spellRest (· ++ ·) "" vs
  | [] => by simp [spellRest]
  | v :: vs => by
    simp only [spellRest]
    rw [spellRest_eq_append (spell (· ++ ·) (out ++ " ") v),
      spellRest_eq_append (spell (· ++ ·) ("" ++ " ") v), spell_eq_append (out ++ " "),
      spell_eq_append ("" ++ " ")]
    simp [String.append_assoc]

end

/-- The items of a list behind the first one follow it with spaces. -/
theorem spellRest_cons (v : Value) (vs : List Value) :
    spellRest (· ++ ·) "" (v :: vs) = " " ++ v.text ++ spellRest (· ++ ·) "" vs := by
  rw [spellRest, spellRest_eq_append, spell_eq_append, String.empty_append]

/-- A list is written as its items with one space between them. -/
theorem toList_text_list (vs : List Value) :
    (list vs).text.toList =
      '(' :: ([' '].intercalate (vs.map fun v => v.text.toList) ++ [')']) := by
  cases vs with
  | nil => rfl
  | cons v vs =>
    have htext : (list (v :: vs)).text = "(" ++ v.text ++ spellRest (· ++ ·) "" vs ++ ")" := by
      rw [text, spell, spellRest_eq_append, spell_eq_append, String.empty_append]
    rw [htext, ← Datum.toList_spaced (spellRest.eq_1 _ _) spellRest_cons]
    simp

/-! ## Data -/

/-- The value is made of finite numbers, strings, symbols and lists. -/
inductive IsData : Value → Prop where
  | num {x : Float} (h : Number.IsFinite x) : IsData (.num x)
  | str (text : String) : IsData (.str text)
  | sym (name : String) : IsData (.sym name)
  | list {items : List Value} (h : ∀ v ∈ items, IsData v) : IsData (.list items)

/-- Each of some values is written as a datum, so all of them are. -/
theorem exists_parts {depth : Nat} {vs : List Value}
    (h : ∀ v ∈ vs, ∃ d, Datum.Written depth v.text.toList d ∧ ofDatum d = v) :
    ∃ parts : List (List Char × Datum), parts.map Prod.fst = vs.map (fun v => v.text.toList) ∧
      (∀ part ∈ parts, Datum.Written depth part.1 part.2) ∧ ofData (parts.map Prod.snd) = vs := by
  induction vs with
  | nil => exact ⟨[], rfl, fun _ => nofun, rfl⟩
  | cons v vs ih =>
    obtain ⟨hfirst, hrest⟩ := List.forall_mem_cons.mp h
    obtain ⟨d, hwritten, hvalue⟩ := hfirst
    obtain ⟨parts, htexts, hparts, hvalues⟩ := ih hrest
    refine ⟨(v.text.toList, d) :: parts, ?_, List.forall_mem_cons.mpr ⟨hwritten, hparts⟩, ?_⟩
    · rw [List.map_cons, List.map_cons, htexts]
    · rw [List.map_cons, ofData, hvalue, hvalues]

/-- The text of a value that is data is a written form of a datum whose value it is. -/
theorem written_text {depth : Nat} {v : Value} (h : v.Textual depth) (hdata : v.IsData) :
    ∃ d, Datum.Written depth v.text.toList d ∧ ofDatum d = v := by
  -- on what makes the value textual; that it is data leaves out what cannot be written
  induction h with
  | num x =>
    cases hdata with
    | num hfinite =>
      refine ⟨.num x, ?_, rfl⟩
      have htext : (num x).text = Number.text x := by simp [text, spell]
      rw [htext, ← Datum.ofWord_number hfinite]
      exact .word (Datum.isWord_number hfinite)
  | @str depth s hsolid =>
    refine ⟨.str s, ?_, rfl⟩
    have htext : (str s).text.toList = '"' :: (s.toList ++ ['"']) := by simp [text, spell]
    have hword : Datum.ofWord ('"' :: (s.toList ++ ['"'])) = .str s := by
      rw [Datum.ofWord_quoted rfl, String.ofList_toList]
    rw [htext, ← hword]
    exact .word (Datum.isWord_quoted rfl hsolid)
  | @sym depth name hword hname =>
    refine ⟨.sym name, ?_, rfl⟩
    have htext : (sym name).text = name := by simp [text, spell]
    rw [htext, ← hname]
    exact .word hword
  | list _ ih =>
    cases hdata with
    | list hitems =>
      obtain ⟨parts, htexts, hparts, hvalues⟩ := exists_parts fun v hv => ih v hv (hitems v hv)
      refine ⟨.list (parts.map Prod.snd), ?_, ?_⟩
      · rw [toList_text_list, ← htexts]
        exact .list hparts
      · rw [ofDatum, hvalues]
  | bool | closure | primitive | nil | unspecified => cases hdata

end Value

end MiniLisp
