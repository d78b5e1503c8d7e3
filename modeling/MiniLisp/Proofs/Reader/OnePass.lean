import MiniLisp.Proofs.Reader.Written

/-!
# Reading in one pass

What a text is read as depends only on its tokens.  They are found in one pass over the characters
(`scan`), and put together to data in one pass over the tokens (`forest?`).  Both passes are structural
recursions, so the data of a given text can be computed in a proof: `read_of_scan` says that they are what
the text is read as, if they nest no deeper than the limit.
-/

namespace MiniLisp

namespace Datum

/-! ## Tokens -/

/-- The word of some letters, which are given from the last to the first. -/
def flush : List Char → List Token
  | [] => []
  | c :: cs => [.word (c :: cs).reverse]

/-- The tokens of a text behind the letters of a word, which are given from the last to the first. -/
def scan : (letters : List Char) → List Char → List Token
  | letters, [] => flush letters
  | letters, c :: cs =>
    if c = '(' then flush letters ++ .opening :: scan [] cs
    else if c = ')' then flush letters ++ .closing :: scan [] cs
    else if isSeparator c then flush letters ++ scan [] cs
    else scan (c :: letters) cs

/-- A word that has begun goes on to the next delimiter. -/
theorem scan_cons (c : Char) (letters text : List Char) :
    scan (c :: letters) text =
      .word ((c :: letters).reverse ++ text.takeWhile (!isDelimiter ·)) ::
        scan [] (text.dropWhile (!isDelimiter ·)) := by
  -- the letters are free, as each letter of the text joins them
  induction text generalizing c letters with
  | nil => simp [scan, flush]
  | cons d cs ih =>
    by_cases hopen : d = '('
    · subst hopen
      simp [scan, flush, isDelimiter]
    · by_cases hclose : d = ')'
      · subst hclose
        simp [scan, flush, isDelimiter]
      · by_cases hseparator : isSeparator d = true
        · simp [scan, flush, isDelimiter, hopen, hclose, hseparator]
        · rw [scan, if_neg hopen, if_neg hclose, if_neg hseparator, ih]
          simp [isDelimiter, hopen, hclose, hseparator]

theorem scan_eq_tokens (offset : Nat) (text : List Char) :
    scan [] text = (tokens offset text).map Prod.snd := by
  induction offset, text using tokens.induct with
  | case1 offset => rw [tokens_nil, scan, flush, List.map_nil]
  | case2 offset cs ih =>
    rw [scan, if_pos rfl, tokens_opening, ih]
    rfl
  | case3 offset cs _ ih =>
    rw [scan, if_neg (by decide), if_pos rfl, tokens_closing, ih]
    rfl
  | case4 offset c cs hopen hclose hseparator ih =>
    rw [scan, if_neg hopen, if_neg hclose, if_pos hseparator, tokens_separator offset hseparator, ih]
    rfl
  | case5 offset c cs hopen hclose hseparator word ih =>
    have hc : isDelimiter c = false := by simp [isDelimiter, hopen, hclose, hseparator]
    rw [scan, if_neg hopen, if_neg hclose, if_neg hseparator, scan_cons, tokens_word offset hc, ih]
    rfl

/-! ## Forests -/

/-- The forest of a row of tokens, if its brackets match.  What was read in the innermost open list is
`items`; what was read in the lists around it, up to where the next one was opened, is `outer`.  All are
given from the last datum to the first. -/
def forest? : (outer : List (List Datum)) → (items : List Datum) → List Token → Option (List Datum)
  | [], items, [] => some items.reverse
  | _ :: _, _, [] => none
  | outer, items, .opening :: ts => forest? (items :: outer) [] ts
  | [], _, .closing :: _ => none
  | around :: outer, items, .closing :: ts => forest? outer (.list items.reverse :: around) ts
  | outer, items, .word letters :: ts => forest? outer (ofWord letters :: items) ts

/-- The tokens give the forest: without an open list they describe what is read behind `items`; otherwise
those up to the end of the innermost list do, and the others go on with this list. -/
def Gathers (items : List Datum) (ts : List Token) (forest : List Datum) : List (List Datum) → Prop
  | [] => ∃ behind, Describes ts behind ∧ forest = items.reverse ++ behind
  | around :: outer => ∃ inner tail behind, ts = inner ++ .closing :: tail ∧ Describes inner behind ∧
    forest? outer (.list (items.reverse ++ behind) :: around) tail = some forest

/-- A datum in front of what is gathered. -/
theorem Gathers.cons {outer : List (List Datum)} {items : List Datum} {d : Datum} {ts : List Token}
    {forest : List Datum} (h : Gathers (d :: items) ts forest outer) (front : List Token)
    (hfront : ∀ {ts behind}, Describes ts behind → Describes (front ++ ts) (d :: behind)) :
    Gathers items (front ++ ts) forest outer := by
  cases outer with
  | nil =>
    obtain ⟨behind, hbehind, rfl⟩ := h
    exact ⟨d :: behind, hfront hbehind, by simp⟩
  | cons around outer =>
    obtain ⟨inner, tail, behind, rfl, hinner, hrest⟩ := h
    refine ⟨front ++ inner, tail, d :: behind, (List.append_assoc ..).symm, hfront hinner, ?_⟩
    rw [← hrest]
    simp

theorem gathers_of_forest? {outer : List (List Datum)} {items forest : List Datum} {ts : List Token}
    (h : forest? outer items ts = some forest) : Gathers items ts forest outer := by
  -- on the length, since a list that is opened is followed by what stands behind its end
  induction hlength : ts.length using Nat.strongRecOn generalizing outer items ts with
  | ind n ih =>
    subst hlength
    cases ts with
    | nil =>
      cases outer with
      | nil => exact ⟨[], .nil, by simpa [forest?] using h.symm⟩
      | cons around outer => cases h
    | cons t ts =>
      have hshorter : ts.length < (t :: ts).length := Nat.lt_succ_self _
      cases t with
      | opening =>
        rw [forest?] at h
        obtain ⟨inner, tail, behind, rfl, hinner, hrest⟩ := ih _ hshorter h rfl
        have htail : tail.length < (Token.opening :: (inner ++ .closing :: tail)).length := by
          simp
          omega
        have hlist := (ih _ htail hrest rfl).cons (.opening :: (inner ++ [.closing]))
          fun hbehind => by simpa using Describes.list hinner hbehind
        simpa using hlist
      | closing =>
        cases outer with
        | nil => cases h
        | cons around outer =>
          rw [forest?] at h
          exact ⟨[], ts, [], rfl, .nil, by rwa [List.append_nil]⟩
      | word letters =>
        rw [forest?] at h
        exact (ih _ hshorter h rfl).cons [.word letters] (.word letters)

theorem describes_of_forest? {ts : List Token} {forest : List Datum}
    (h : forest? [] [] ts = some forest) : Describes ts forest := by
  obtain ⟨_, hforest, rfl⟩ := gathers_of_forest? h
  exact hforest

/-- The tokens of data that nest within the limit have no fault. -/
theorem Describes.firstFault_eq {limit depth : Nat} {ts tail : List Token} {forest : List Datum}
    (h : Describes ts forest) (hdepth : ∀ d ∈ forest, depth + d.depth ≤ limit) (size : Nat) :
    firstFault limit size depth (row (ts ++ tail)) = firstFault limit size depth (row tail) := by
  induction h generalizing depth tail with
  | nil => rfl
  | word letters _ ih =>
    have hrow := firstFault_word limit size depth 0 letters
    exact (hrow _).trans (ih (List.forall_mem_cons.mp hdepth).2)
  | @list inner ts items forest _ _ ihInner ihRest =>
    obtain ⟨hlist, hrest⟩ := List.forall_mem_cons.mp hdepth
    obtain ⟨n, hn, hitems⟩ := exists_of_depth_list_le (Nat.le_sub_of_add_le' hlist)
    have hinside : ∀ d ∈ items, depth + 1 + d.depth ≤ limit := by
      intro d hd
      have hle := hitems d hd
      omega
    have hrow : row (Token.opening :: (inner ++ Token.closing :: ts) ++ tail) =
        (0, .opening) :: row (inner ++ Token.closing :: (ts ++ tail)) := by
      simp [row]
    rw [hrow, firstFault_opening, if_neg (by omega), ihInner hinside]
    exact ihRest hrest

end Datum

/-- A text is read as the data that its tokens are put together to, if these nest within the limit. -/
theorem Interpreter.read_of_scan {ip : Interpreter} {text : String} {letters : List Char}
    {forms : List Datum} (htext : text = String.ofList letters)
    (hforms : Datum.forest? [] [] (Datum.scan [] letters) = some forms)
    (hdepth : ∀ d ∈ forms, d.depth ≤ ip.limits.read) : ip.read text = .ok forms := by
  have hdescribes := Datum.describes_of_forest? hforms
  rw [Datum.scan_eq_tokens 0] at hdescribes
  rw [read_eq_ok_iff, htext, String.toList_ofList]
  refine .forest ?_ hdescribes
  have hdepth' : ∀ d ∈ forms, 0 + d.depth ≤ ip.limits.read := by simpa using hdepth
  have hnone := @Datum.Describes.firstFault_eq _ 0 _ [] _ hdescribes hdepth' 0
  -- the length of the text does not matter, as it is only reported with an open list
  refine Datum.firstFault_eq_none_congr ?_ hnone
  simp [Datum.row, Function.comp_def]

end MiniLisp
