import MiniLisp.Datum.Reader

/-!
# Texts as bracketed words

A program text is a row of parentheses and words.  This file says, without any parser, what such a row
stands for.  `tokens` cuts a text into parentheses and maximal words, each with its byte offset.
`firstFault` goes through the row with a counter of open lists and stops at the first fault.
`Describes` says which forest a row without fault brackets; `Describes.unique` says that there is at
most one.  `Reference` joins the three to the answer that a reader owes.
-/

namespace MiniLisp.Datum

/-! ## Byte lengths -/

@[simp] theorem byteLength_nil : byteLength [] = 0 := rfl

@[simp] theorem byteLength_append (front rest : List Char) :
    byteLength (front ++ rest) = byteLength front + byteLength rest := by
  simp [byteLength, String.ofList_append]

@[simp] theorem byteLength_cons (c : Char) (cs : List Char) :
    byteLength (c :: cs) = c.utf8Size + byteLength cs := by
  rw [← List.singleton_append, byteLength_append]
  simp [byteLength]

/-! ## Tokens -/

/-- A parenthesis or a word. -/
inductive Token where
  | opening
  | closing
  | word (letters : List Char)
deriving DecidableEq

/-- The tokens of a text that starts at a byte offset, each with its own offset.  Separators only
divide words, and a word reaches to the next delimiter. -/
def tokens (offset : Nat) : List Char → List (Nat × Token)
  | [] => []
  | c :: cs =>
    if c = '(' then (offset, .opening) :: tokens (offset + c.utf8Size) cs
    else if c = ')' then (offset, .closing) :: tokens (offset + c.utf8Size) cs
    else if isSeparator c then tokens (offset + c.utf8Size) cs
    else
      let word := c :: cs.takeWhile (!isDelimiter ·)
      (offset, .word word) :: tokens (offset + byteLength word) (cs.dropWhile (!isDelimiter ·))
termination_by text => text.length
decreasing_by
  · exact Nat.lt_succ_self _
  · exact Nat.lt_succ_self _
  · exact Nat.lt_succ_self _
  · exact Nat.lt_succ_of_le (List.dropWhile_sublist _).length_le

@[simp] theorem tokens_nil (offset : Nat) : tokens offset [] = [] := by
  rw [tokens]

@[simp] theorem tokens_opening (offset : Nat) (cs : List Char) :
    tokens offset ('(' :: cs) = (offset, .opening) :: tokens (offset + 1) cs := by
  rw [tokens, if_pos rfl]
  rfl

@[simp] theorem tokens_closing (offset : Nat) (cs : List Char) :
    tokens offset (')' :: cs) = (offset, .closing) :: tokens (offset + 1) cs := by
  rw [tokens, if_neg (by decide), if_pos rfl]
  rfl

theorem tokens_separator (offset : Nat) {c : Char} (hc : isSeparator c = true) (cs : List Char) :
    tokens offset (c :: cs) = tokens (offset + c.utf8Size) cs := by
  have hopen : c ≠ '(' := by rintro rfl; exact absurd hc (by decide)
  have hclose : c ≠ ')' := by rintro rfl; exact absurd hc (by decide)
  rw [tokens, if_neg hopen, if_neg hclose, if_pos hc]

theorem tokens_word (offset : Nat) {c : Char} (hc : isDelimiter c = false) (cs : List Char) :
    tokens offset (c :: cs) =
      (offset, .word (c :: cs.takeWhile (!isDelimiter ·))) ::
        tokens (offset + byteLength (c :: cs.takeWhile (!isDelimiter ·)))
          (cs.dropWhile (!isDelimiter ·)) := by
  simp only [isDelimiter, Bool.or_eq_false_iff, beq_eq_false_iff_ne] at hc
  rw [tokens, if_neg hc.1.1, if_neg hc.1.2, if_neg (by simp [hc.2])]

/-! ## The first fault -/

/-- The first fault in a row of tokens behind `depth` open lists; `size` is the length of the text in
bytes. -/
def firstFault (limit size : Nat) : (depth : Nat) → List (Nat × Token) → Option ReadFault
  | 0, [] => none
  | _ + 1, [] => some (.unclosed size)
  | depth, (_, .opening) :: ts =>
    if depth = limit then some (.tooDeep limit) else firstFault limit size (depth + 1) ts
  | 0, (offset, .closing) :: _ => some (.unexpectedClose offset)
  | depth + 1, (_, .closing) :: ts => firstFault limit size depth ts
  | depth, (_, .word _) :: ts => firstFault limit size depth ts

@[simp] theorem firstFault_opening (limit size depth offset : Nat) (ts : List (Nat × Token)) :
    firstFault limit size depth ((offset, .opening) :: ts) =
      if depth = limit then some (.tooDeep limit) else firstFault limit size (depth + 1) ts := by
  cases depth <;> rfl

@[simp] theorem firstFault_word (limit size depth offset : Nat) (letters : List Char)
    (ts : List (Nat × Token)) :
    firstFault limit size depth ((offset, .word letters) :: ts) =
      firstFault limit size depth ts := by
  cases depth <;> rfl

@[simp] theorem firstFault_closing_succ (limit size depth offset : Nat) (ts : List (Nat × Token)) :
    firstFault limit size (depth + 1) ((offset, .closing) :: ts) =
      firstFault limit size depth ts := rfl

/-! ## Forests -/

/-- The forest of lists and atoms that a row of tokens brackets. -/
inductive Describes : List Token → List Datum → Prop
  | nil : Describes [] []
  | word {ts : List Token} {forest : List Datum} (letters : List Char) :
    Describes ts forest → Describes (.word letters :: ts) (ofWord letters :: forest)
  | list {inner ts : List Token} {items forest : List Datum} :
    Describes inner items → Describes ts forest →
      Describes (.opening :: (inner ++ .closing :: ts)) (list items :: forest)

namespace Describes

theorem append {ts ts' : List Token} {forest forest' : List Datum}
    (h : Describes ts forest) (h' : Describes ts' forest') :
    Describes (ts ++ ts') (forest ++ forest') := by
  induction h with
  | nil => exact h'
  | word letters _ ih => exact .word letters ih
  | list hinner _ _ ih =>
    rw [List.cons_append, List.append_assoc, List.cons_append, List.cons_append]
    exact .list hinner ih

/-- A row ends a forest where it stops or closes a list that it did not open. -/
def Ends (tail : List Token) : Prop := tail = [] ∨ ∃ ts, tail = .closing :: ts

/-- A bracketed row at the front of a row can be found again. -/
theorem eq_of_append_eq {ts ts' tail tail' : List Token} {forest forest' : List Datum}
    (h : Describes ts forest) (h' : Describes ts' forest') (htail : Ends tail) (htail' : Ends tail')
    (heq : ts ++ tail = ts' ++ tail') : forest = forest' ∧ tail = tail' := by
  induction h generalizing ts' tail tail' forest' with
  | nil =>
    cases h' with
    | nil => exact ⟨rfl, heq⟩
    | word => rcases htail with rfl | ⟨_, rfl⟩ <;> simp at heq
    | list => rcases htail with rfl | ⟨_, rfl⟩ <;> simp at heq
  | word letters _ ih =>
    cases h' with
    | nil => rcases htail' with rfl | ⟨_, rfl⟩ <;> simp at heq
    | word letters' hrest =>
      simp only [List.cons_append, List.cons.injEq, Token.word.injEq] at heq
      obtain ⟨rfl, heq⟩ := heq
      obtain ⟨rfl, rfl⟩ := ih hrest htail htail' heq
      exact ⟨rfl, rfl⟩
    | list => simp at heq
  | list _ _ ihInner ihRest =>
    cases h' with
    | nil => rcases htail' with rfl | ⟨_, rfl⟩ <;> simp at heq
    | word => simp at heq
    | list hinner hrest =>
      simp only [List.cons_append, List.append_assoc, List.cons.injEq, true_and] at heq
      -- The inner rows end at the closing parentheses of the two lists.
      obtain ⟨rfl, heq⟩ := ihInner hinner (.inr ⟨_, rfl⟩) (.inr ⟨_, rfl⟩) heq
      simp only [List.cons.injEq, true_and] at heq
      obtain ⟨rfl, rfl⟩ := ihRest hrest htail htail' heq
      exact ⟨rfl, rfl⟩

/-- A row of tokens describes at most one forest. -/
theorem unique {ts : List Token} {forest forest' : List Datum}
    (h : Describes ts forest) (h' : Describes ts forest') : forest = forest' :=
  (h.eq_of_append_eq h' (.inl rfl) (.inl rfl) rfl).1

end Describes

/-! ## The answer owed -/

/-- The answer to a text: its first fault, or the forest that its tokens describe. -/
inductive Reference (limit : Nat) (text : List Char) : Except ReadFault (List Datum) → Prop
  | fault {fault : ReadFault} :
    firstFault limit (byteLength text) 0 (tokens 0 text) = some fault →
      Reference limit text (.error fault)
  | forest {forest : List Datum} :
    firstFault limit (byteLength text) 0 (tokens 0 text) = none →
      Describes ((tokens 0 text).map Prod.snd) forest → Reference limit text (.ok forest)

/-- There is at most one answer. -/
theorem Reference.unique {limit : Nat} {text : List Char} {a a' : Except ReadFault (List Datum)}
    (h : Reference limit text a) (h' : Reference limit text a') : a = a' := by
  cases h with
  | fault hf =>
    cases h' with
    | fault hf' => rw [hf] at hf'; cases hf'; rfl
    | forest hf' => rw [hf] at hf'; cases hf'
  | forest hf hd =>
    cases h' with
    | fault hf' => rw [hf] at hf'; cases hf'
    | forest _ hd' => rw [hd.unique hd']

end MiniLisp.Datum
