import MiniLisp.Proofs.Value.Written

/-!
# Data written and read

What the reader makes of a text can be written and read again.  An atom is written as a word that stands
for it: a string between quotes of which it may hold the other ones, a symbol as the word it was.  A list
is written as its items with one space between them, so it nests as deep as it did in the text
(`written_text`).  With the reader's side of it, `Written.reference`, every datum that is read is read
back from its written form under the same limit, wherever it stood in the text.
-/

namespace MiniLisp

namespace Datum

variable {depth : Nat} {letters : List Char} {d form : Datum}

/-- All numbers in the datum are finite. -/
inductive HasFiniteNumbers : Datum → Prop where
  | num {x : Float} (h : Number.IsFinite x) : HasFiniteNumbers (.num x)
  | str (text : String) : HasFiniteNumbers (.str text)
  | sym (name : String) : HasFiniteNumbers (.sym name)
  | list {items : List Datum} (h : ∀ d ∈ items, HasFiniteNumbers d) : HasFiniteNumbers (.list items)

/-- The datum is the form itself or stands at any depth among the items of its lists. -/
inductive PartOf (d : Datum) : Datum → Prop where
  | self : PartOf d d
  | item {item : Datum} {items : List Datum} (hmem : item ∈ items) (h : PartOf d item) :
      PartOf d (.list items)

/-- What a text holds at any depth can be written within the same limit. -/
theorem Readable.part (h : Readable depth form) (hpart : d.PartOf form) : Readable depth d := by
  induction hpart generalizing depth with
  | self => exact h
  | item hmem _ ih =>
    obtain ⟨n, rfl, hitems⟩ := h.items
    exact (ih (hitems _ hmem)).mono (Nat.le_succ n)

/-! ## Texts -/

/-- The items of a list behind the first one follow it with spaces. -/
theorem writeRest_cons (d : Datum) (ds : List Datum) :
    writeRest "" (d :: ds) = " " ++ d.text ++ writeRest "" ds := by
  rw [writeRest, writeRest_eq_append, writeOnto_eq_append, String.empty_append]

/-- A list is written as its items with one space between them. -/
theorem toList_text_list (ds : List Datum) :
    (list ds).text.toList = '(' :: ([' '].intercalate (ds.map fun d => d.text.toList) ++ [')']) := by
  cases ds with
  | nil => rfl
  | cons d ds =>
    have htext : (list (d :: ds)).text = "(" ++ d.text ++ writeRest "" ds ++ ")" := by
      rw [text, writeOnto, writeRest_eq_append, writeOnto_eq_append, String.empty_append]
    rw [htext, ← toList_spaced (writeRest.eq_1 _) writeRest_cons]
    simp

/-- A string is written between two equal quotes. -/
theorem exists_quote (text : String) :
    ∃ quote, isQuote quote = true ∧ (str text).text.toList = quote :: (text.toList ++ [quote]) := by
  have htext : (str text).text = quoteText text := by rw [Datum.text, writeOnto, String.empty_append]
  rw [htext, quoteText]
  split
  · exact ⟨'\'', rfl, by simp⟩
  · exact ⟨'"', rfl, by simp⟩

/-! ## Written forms -/

/-- The atom of a word is written as a word that stands for it. -/
theorem written_ofWord (h : IsWord letters) (hfinite : (ofWord letters).HasFiniteNumbers) :
    Written depth (ofWord letters).text.toList (ofWord letters) := by
  -- a number or a string may be written in another way than the word, a symbol is the word
  rcases ofWord_cases letters with ⟨x, hnum⟩ | ⟨inner, hinner, hstr⟩ | hsym
  · rw [hnum] at hfinite ⊢
    cases hfinite with
    | num hx =>
      have htext : (num x).text = Number.text x := by rw [text, writeOnto, String.empty_append]
      rw [htext, ← ofWord_number hx]
      exact .word (isWord_number hx)
  · obtain ⟨quote, hquote, htext⟩ := exists_quote (String.ofList inner)
    have hsolid : ∀ c ∈ inner, isDelimiter c = false := fun c hc => h.solid c (hinner hc)
    rw [hstr, htext, String.toList_ofList, ← ofWord_quoted hquote inner]
    exact .word (isWord_quoted hquote hsolid)
  · have htext : (sym (String.ofList letters)).text.toList = letters := by simp [text, writeOnto]
    rw [hsym, htext, ← hsym]
    exact .word h

/-- The text of a datum that can be read is a written form of it. -/
theorem written_text (h : Readable depth d) (hfinite : d.HasFiniteNumbers) :
    Written depth d.text.toList d := by
  induction h with
  | word h => exact written_ofWord h hfinite
  | @list depth items _ ih =>
    cases hfinite with
    | list hitems =>
      let parts : List (List Char × Datum) := items.map fun d => (d.text.toList, d)
      have htexts : parts.map Prod.fst = items.map fun d => d.text.toList := by
        simp [parts, Function.comp_def]
      have hdata : parts.map Prod.snd = items := by simp [parts, Function.comp_def]
      have hparts : ∀ part ∈ parts, Written depth part.1 part.2 := by
        intro part hpart
        obtain ⟨d, hd, rfl⟩ := List.mem_map.mp hpart
        exact ih d hd (hitems d hd)
      rw [toList_text_list, ← htexts, ← hdata]
      exact .list hparts

end Datum

namespace Interpreter

variable {ip : Interpreter} {text : String} {forms : List Datum} {form d : Datum}

/-- Printing and reading data are inverse: whatever stands anywhere in a text that is read, and has only
finite numbers, is written in a way that is read as itself under the same limit. -/
theorem read_text_of_part (hread : ip.read text = .ok forms) (hform : form ∈ forms)
    (hpart : d.PartOf form) (hfinite : d.HasFiniteNumbers) : ip.read d.text = .ok [d] := by
  have hreadable : Datum.Readable ip.limits.read form := (read_eq_ok_iff.mp hread).readable form hform
  have hwritten : Datum.Written ip.limits.read d.text.toList d :=
    Datum.written_text (hreadable.part hpart) hfinite
  exact read_eq_ok_iff.mpr hwritten.reference

/-- A list that is nested as deep as its text may nest, of a negative number, a string that holds both
quotes and an empty string. -/
theorem read_text_of_part_quotes :
    let ip : Interpreter := ⟨⟨0, 2⟩, fun _ => none⟩
    let x := Number.ofMagnitude true 0x3FE0000000000000
    let d := Datum.list [.num x, .str "x\"y'", .str ""]
    let form := Datum.list [.sym "a", d]
    ip.read "(a (-.50 'x\"y'' \"\"))" = .ok [form] ∧ form ∈ [form] ∧ d.PartOf form ∧
      d.HasFiniteNumbers ∧ d.text = "(-0.5 'x\"y'' \"\")" ∧ ip.read d.text = .ok [d] := by
  intro ip x d form
  have hfinite : Number.IsFinite x := ⟨true, ⟨4503599627370496, -53⟩, by decide +kernel⟩
  have hitems : d.HasFiniteNumbers :=
    .list (by simp [Datum.HasFiniteNumbers.num hfinite, Datum.HasFiniteNumbers.str])
  have hread : ip.read "(a (-.50 'x\"y'' \"\"))" = .ok [form] := by
    have htokens : (Datum.tokens 0 "(a (-.50 'x\"y'' \"\"))".toList).map Prod.snd =
        [.opening, .word ['a'], .opening, .word ['-', '.', '5', '0'],
          .word ['\'', 'x', '"', 'y', '\'', '\''], .word ['"', '"'], .closing, .closing] := by
      cbv
    have hnumber : Datum.ofWord ['-', '.', '5', '0'] = .num x := by
      have htoken : Number.ofToken? ['-', '.', '5', '0'] = some x := by decide +kernel
      rw [Datum.ofWord, htoken]
    have hinner : Datum.Describes [.word ['-', '.', '5', '0'],
        .word ['\'', 'x', '"', 'y', '\'', '\''], .word ['"', '"']]
        [.num x, .str "x\"y'", .str ""] := by
      rw [← hnumber]
      exact .word _ (.word _ (.word _ .nil))
    rw [read_eq_ok_iff]
    refine .forest (by cbv) ?_
    rw [htokens]
    exact .list (.word ['a'] (.list hinner .nil)) .nil
  have htext : d.text = "(-0.5 'x\"y'' \"\")" := by decide +kernel
  have hform : form ∈ [form] := List.mem_singleton_self form
  have hpart : d.PartOf form := .item (by simp) .self
  exact ⟨hread, hform, hpart, hitems, htext, read_text_of_part hread hform hpart hitems⟩

end Interpreter

end MiniLisp
