import MiniLisp.Proofs.Reader.Scan

/-!
# Texts one behind the other

A word ends where a delimiter stands, so behind a delimiter the scan of a text goes on as if the text
started there (`tokens_append`).  A text that is read leaves no list open, so what stands behind it is
read at depth zero.  Together they give `Reference.append`: two texts with separators between them are
read to the forms of the first one and those of the second one, whatever the two texts are.
-/

namespace MiniLisp.Datum

/-- One or more separators and nothing else. -/
structure IsGap (gap : List Char) : Prop where
  nonempty : gap ≠ []
  separators : ∀ c ∈ gap, isSeparator c = true

/-- No word that stands in front of this text goes on into it. -/
def EndsWord (rest : List Char) : Prop := ∀ c cs, rest = c :: cs → isDelimiter c = true

theorem isDelimiter_of_isSeparator {c : Char} (hc : isSeparator c = true) : isDelimiter c = true := by
  simp [isDelimiter, hc]

theorem EndsWord.nil : EndsWord [] := by
  intro c cs h
  cases h

theorem EndsWord.cons {c : Char} (hc : isDelimiter c = true) (cs : List Char) :
    EndsWord (c :: cs) := by
  intro d ds h
  obtain ⟨rfl, rfl⟩ := List.cons.inj h
  exact hc

theorem IsGap.endsWord {gap : List Char} (h : IsGap gap) (rest : List Char) :
    EndsWord (gap ++ rest) := by
  obtain ⟨c, cs, rfl⟩ := List.exists_cons_of_ne_nil h.nonempty
  exact .cons (isDelimiter_of_isSeparator (h.separators c List.mem_cons_self)) (cs ++ rest)

/-! ## Words -/

/-- Behind the end of a word nothing belongs to it, so a text that ends words leaves the first word of
the text before it alone. -/
theorem firstWord_append {rest : List Char} (hrest : EndsWord rest) (text : List Char) :
    (text ++ rest).takeWhile (!isDelimiter ·) = text.takeWhile (!isDelimiter ·) ∧
      (text ++ rest).dropWhile (!isDelimiter ·) = text.dropWhile (!isDelimiter ·) ++ rest := by
  induction text with
  | nil =>
    cases rest with
    | nil => simp
    | cons c cs =>
      have hc : isDelimiter c = true := hrest c cs rfl
      simp [hc]
  | cons c cs ih =>
    cases hc : isDelimiter c with
    | true => simp [hc]
    | false => simp [hc, ih]

/-! ## Tokens -/

theorem tokens_append {rest : List Char} (hrest : EndsWord rest) (offset : Nat) (text : List Char) :
    tokens offset (text ++ rest) = tokens offset text ++ tokens (offset + byteLength text) rest := by
  induction offset, text using tokens.induct with
  | case1 offset => simp
  | case2 offset cs ih =>
    have hsize : '('.utf8Size = 1 := rfl
    rw [hsize] at ih
    rw [List.cons_append, tokens_opening, tokens_opening, ih, byteLength_cons, hsize, Nat.add_assoc]
    rfl
  | case3 offset cs _ ih =>
    have hsize : ')'.utf8Size = 1 := rfl
    rw [hsize] at ih
    rw [List.cons_append, tokens_closing, tokens_closing, ih, byteLength_cons, hsize, Nat.add_assoc]
    rfl
  | case4 offset c cs _ _ hseparator ih =>
    rw [List.cons_append, tokens_separator offset hseparator, tokens_separator offset hseparator, ih,
      byteLength_cons, Nat.add_assoc]
  | case5 offset c cs hopen hclose hseparator word ih =>
    have hc : isDelimiter c = false := by simp [isDelimiter, hopen, hclose, hseparator]
    have hsize : byteLength (c :: cs) = byteLength word + byteLength (cs.dropWhile (!isDelimiter ·)) := by
      rw [← byteLength_append, List.cons_append, List.takeWhile_append_dropWhile]
    -- the last word may reach the end of `text`, and `rest` does not go on with it
    obtain ⟨hletters, hbehind⟩ := firstWord_append hrest cs
    rw [List.cons_append, tokens_word offset hc, tokens_word offset hc, hletters, hbehind, ih, hsize,
      Nat.add_assoc]
    rfl

/-- Separators in front of a text only move its tokens. -/
theorem tokens_separators {gap : List Char} (hgap : ∀ c ∈ gap, isSeparator c = true) (offset : Nat)
    (text : List Char) : tokens offset (gap ++ text) = tokens (offset + byteLength gap) text := by
  induction gap generalizing offset with
  | nil => simp
  | cons c cs ih =>
    have hcs : ∀ d ∈ cs, isSeparator d = true := fun d hd => hgap d (List.mem_cons_of_mem c hd)
    rw [List.cons_append, tokens_separator offset (hgap c List.mem_cons_self), ih hcs,
      byteLength_cons, Nat.add_assoc]

/-- Where a text starts does not change which tokens it has. -/
theorem map_snd_tokens (offset offset' : Nat) (text : List Char) :
    (tokens offset text).map Prod.snd = (tokens offset' text).map Prod.snd := by
  induction offset, text using tokens.induct generalizing offset' with
  | case1 offset => simp
  | case2 offset cs ih =>
    rw [tokens_opening, tokens_opening]
    exact congrArg (Token.opening :: ·) (ih _)
  | case3 offset cs _ ih =>
    rw [tokens_closing, tokens_closing]
    exact congrArg (Token.closing :: ·) (ih _)
  | case4 offset c cs _ _ hseparator ih =>
    rw [tokens_separator offset hseparator, tokens_separator offset' hseparator]
    exact ih _
  | case5 offset c cs hopen hclose hseparator word ih =>
    have hc : isDelimiter c = false := by simp [isDelimiter, hopen, hclose, hseparator]
    rw [tokens_word offset hc, tokens_word offset' hc]
    exact congrArg (Token.word word :: ·) (ih _)

/-! ## Faults -/

/-- Whether a row of tokens has a fault depends on the tokens alone. -/
theorem firstFault_eq_none_congr {limit size size' depth : Nat} {ts ts' : List (Nat × Token)}
    (h : ts.map Prod.snd = ts'.map Prod.snd) (hnone : firstFault limit size depth ts = none) :
    firstFault limit size' depth ts' = none := by
  -- the depth is free, since each parenthesis changes it
  induction ts generalizing depth ts' with
  | nil =>
    obtain rfl : ts' = [] := List.map_eq_nil_iff.mp h.symm
    cases depth with
    | zero => rfl
    | succ depth => cases hnone
  | cons t ts ih =>
    obtain ⟨t', ts', rfl⟩ : ∃ t' us, ts' = t' :: us := by
      cases ts' with
      | nil => cases h
      | cons t' us => exact ⟨t', us, rfl⟩
    obtain ⟨htoken, hrest⟩ := List.cons.inj h
    obtain ⟨offset, token⟩ := t
    obtain ⟨offset', token'⟩ := t'
    obtain rfl : token = token' := htoken
    cases token with
    | opening =>
      rw [firstFault_opening] at hnone ⊢
      split
      · rename_i hdepth
        rw [if_pos hdepth] at hnone
        cases hnone
      · rename_i hdepth
        rw [if_neg hdepth] at hnone
        exact ih hrest hnone
    | closing =>
      cases depth with
      | zero => cases hnone
      | succ depth =>
        rw [firstFault_closing_succ] at hnone ⊢
        exact ih hrest hnone
    | word letters =>
      rw [firstFault_word] at hnone ⊢
      exact ih hrest hnone

/-- A row without fault leaves no list open. -/
theorem firstFault_append_of_none {limit size depth : Nat} {ts : List (Nat × Token)}
    (hnone : firstFault limit size depth ts = none) (size' : Nat) (tail : List (Nat × Token)) :
    firstFault limit size' depth (ts ++ tail) = firstFault limit size' 0 tail := by
  -- a row without faults closes all that it opens, so behind it the depth is zero
  induction ts generalizing depth with
  | nil =>
    cases depth with
    | zero => rfl
    | succ depth => cases hnone
  | cons t ts ih =>
    obtain ⟨offset, token⟩ := t
    rw [List.cons_append]
    cases token with
    | opening =>
      rw [firstFault_opening] at hnone ⊢
      split
      · rename_i hdepth
        rw [if_pos hdepth] at hnone
        cases hnone
      · rename_i hdepth
        rw [if_neg hdepth] at hnone
        exact ih hnone
    | closing =>
      cases depth with
      | zero => cases hnone
      | succ depth => exact ih hnone
    | word letters =>
      rw [firstFault_word] at hnone ⊢
      exact ih hnone

/-! ## Forms -/

/-- Two texts that are read, with separators between them, are read one behind the other. -/
theorem Reference.append {limit : Nat} {text gap text' : List Char} {forest forest' : List Datum}
    (h : Reference limit text (.ok forest)) (hgap : IsGap gap)
    (h' : Reference limit text' (.ok forest')) :
    Reference limit (text ++ gap ++ text') (.ok (forest ++ forest')) := by
  cases h with
  | forest hnone hdescribes =>
    cases h' with
    | forest hnone' hdescribes' =>
      have htokens : tokens 0 (text ++ gap ++ text') =
          tokens 0 text ++ tokens (byteLength text + byteLength gap) text' := by
        rw [List.append_assoc, tokens_append (hgap.endsWord text'), Nat.zero_add,
          tokens_separators hgap.separators]
      have hsecond : (tokens 0 text').map Prod.snd =
          (tokens (byteLength text + byteLength gap) text').map Prod.snd := map_snd_tokens _ _ text'
      refine .forest ?_ ?_
      · rw [htokens, firstFault_append_of_none hnone]
        exact firstFault_eq_none_congr hsecond hnone'
      · rw [htokens, List.map_append, ← hsecond]
        exact hdescribes.append hdescribes'

end MiniLisp.Datum

namespace MiniLisp.Interpreter

variable {ip : Interpreter} {text text' gap : String} {forms forms' : List Datum}

theorem read_eq_ok_iff :
    ip.read text = .ok forms ↔ Datum.Reference ip.limits.read text.toList (.ok forms) := by
  have hanswer := Datum.readChars_reference ip.limits.read text.toList
  rw [read, Datum.read]
  cases hread : Datum.readChars ip.limits.read text.toList with
  | ok forms' =>
    rw [hread] at hanswer
    constructor
    · intro h
      obtain rfl : forms' = forms := Except.ok.inj h
      exact hanswer
    · intro h
      have heq := Except.ok.inj (hanswer.unique h)
      rw [heq]
  | error fault =>
    rw [hread] at hanswer
    constructor
    · intro h
      cases h
    · intro h
      cases hanswer.unique h

/-- Texts that are read are read one behind the other. -/
theorem read_append (h : ip.read text = .ok forms) (hgap : Datum.IsGap gap.toList)
    (h' : ip.read text' = .ok forms') :
    ip.read (text ++ gap ++ text') = .ok (forms ++ forms') := by
  rw [read_eq_ok_iff] at h h' ⊢
  rw [String.toList_append, String.toList_append]
  exact h.append hgap h'

end MiniLisp.Interpreter
