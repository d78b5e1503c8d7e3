import MiniLisp.Proofs.Reader.Concatenation

/-!
# Data that can be written

A reader makes atoms of words and nests lists no deeper than its limit allows (`Readable`), and nothing
else (`Reference.readable`).  A text is a written form of such a datum if it is a word, or written forms
with one space between them inside parentheses (`Written`).  Written forms are read as the data they were
written for (`Written.reference`).
-/

namespace MiniLisp.Datum

/-- One or more characters, none of which ends a word. -/
structure IsWord (letters : List Char) : Prop where
  nonempty : letters ≠ []
  solid : ∀ c ∈ letters, isDelimiter c = false

/-- A word is one word in front of everything that ends words. -/
theorem IsWord.cut {c : Char} {cs rest : List Char} (h : IsWord (c :: cs)) (hrest : EndsWord rest) :
    (cs ++ rest).takeWhile (!isDelimiter ·) = cs ∧ (cs ++ rest).dropWhile (!isDelimiter ·) = rest := by
  have hsolid : ∀ d ∈ cs, (!isDelimiter d) = true := by
    intro d hd
    rw [h.solid d (List.mem_cons_of_mem c hd)]
    rfl
  obtain ⟨htake, hdrop⟩ := firstWord_append hrest []
  rw [List.nil_append] at htake hdrop
  constructor
  · rw [List.takeWhile_append_of_pos hsolid, htake]
    exact List.append_nil cs
  · rw [List.dropWhile_append_of_pos hsolid, hdrop]
    rfl

/-! ## Nested lists -/

theorem depthOfItems_le_iff {n deepest : Nat} {items : List Datum} :
    depthOfItems deepest items ≤ n ↔ deepest ≤ n ∧ ∀ d ∈ items, d.depth ≤ n := by
  induction items generalizing deepest with
  | nil => simp [depthOfItems]
  | cons d ds ih => rw [depthOfItems, ih, Nat.max_le, List.forall_mem_cons, and_assoc]

/-- A list nests one deeper than its items. -/
theorem depth_list_le_iff {n : Nat} {items : List Datum} :
    (list items).depth ≤ n + 1 ↔ ∀ d ∈ items, d.depth ≤ n := by
  rw [depth, Nat.add_le_add_iff_right, depthOfItems_le_iff]
  exact and_iff_right (Nat.zero_le n)

theorem exists_of_depth_list_le {n : Nat} {items : List Datum} (h : (list items).depth ≤ n) :
    ∃ m, n = m + 1 ∧ ∀ d ∈ items, d.depth ≤ m := by
  cases n with
  | zero =>
    rw [depth] at h
    cases h
  | succ m => exact ⟨m, rfl, depth_list_le_iff.mp h⟩

/-! ## Data that are read -/

/-- The datum is made of words, and at most `depth` of its lists are nested. -/
inductive Readable : Nat → Datum → Prop where
  | word {depth : Nat} {letters : List Char} (h : IsWord letters) : Readable depth (ofWord letters)
  | list {depth : Nat} {items : List Datum} (h : ∀ d ∈ items, Readable depth d) :
      Readable (depth + 1) (.list items)

theorem Readable.mono {m n : Nat} {d : Datum} (h : Readable m d) (hle : m ≤ n) : Readable n d := by
  induction h generalizing n with
  | word h => exact .word h
  | list _ ih =>
    obtain ⟨n, rfl⟩ : ∃ k, n = k + 1 := ⟨n - 1, by omega⟩
    exact .list fun d hd => ih d hd (Nat.le_of_succ_le_succ hle)

theorem not_list_ofWord (letters : List Char) (items : List Datum) : ofWord letters ≠ .list items := by
  unfold ofWord
  split
  · exact nofun
  · split
    · exact nofun
    · exact nofun

theorem Readable.depth_le {n : Nat} {d : Datum} (h : d.Readable n) : d.depth ≤ n := by
  induction h with
  | @word n letters _ =>
    have hatom := not_list_ofWord letters
    cases hd : ofWord letters with
    | num x => exact Nat.zero_le n
    | str text => exact Nat.zero_le n
    | sym name => exact Nat.zero_le n
    | list items => exact absurd hd (hatom items)
  | list _ ih => exact depth_list_le_iff.mpr ih

/-- The items of a list are nested less deep than the list. -/
theorem Readable.items {depth : Nat} {items : List Datum} (h : Readable depth (.list items)) :
    ∃ n, depth = n + 1 ∧ ∀ d ∈ items, Readable n d := by
  generalize hd : Datum.list items = d at h
  cases h with
  | @word letters _ => exact absurd hd.symm (not_list_ofWord _ items)
  | @list n _ h =>
    obtain rfl := Datum.list.inj hd
    exact ⟨n, rfl, h⟩

/-- The words among the tokens of a text are words. -/
theorem isWord_of_mem_tokens {offset : Nat} {text letters : List Char}
    (h : Token.word letters ∈ (tokens offset text).map Prod.snd) : IsWord letters := by
  -- only the last case adds a word, up to the next delimiter
  induction offset, text using tokens.induct with
  | case1 offset =>
    rw [tokens_nil] at h
    cases h
  | case2 offset cs ih =>
    rw [tokens_opening, List.map_cons] at h
    rcases List.mem_cons.mp h with h | h
    · cases h
    · exact ih h
  | case3 offset cs _ ih =>
    rw [tokens_closing, List.map_cons] at h
    rcases List.mem_cons.mp h with h | h
    · cases h
    · exact ih h
  | case4 offset c cs _ _ hseparator ih =>
    rw [tokens_separator offset hseparator] at h
    exact ih h
  | case5 offset c cs hopen hclose hseparator word ih =>
    have hc : isDelimiter c = false := by simp [isDelimiter, hopen, hclose, hseparator]
    rw [tokens_word offset hc, List.map_cons] at h
    rcases List.mem_cons.mp h with h | h
    · obtain rfl := Token.word.inj h
      refine ⟨List.cons_ne_nil c _, ?_⟩
      intro d hd
      rcases List.mem_cons.mp hd with rfl | hd
      · exact hc
      · have hsolid := List.all_takeWhile (p := (!isDelimiter ·)) (l := cs)
        simpa using List.all_eq_true.mp hsolid d hd
    · exact ih h

/-- Tokens whose place does not matter. -/
def row (ts : List Token) : List (Nat × Token) := ts.map fun t => (0, t)

/-- A forest behind `depth` open lists, whose tokens have no fault, is nested within the limit. -/
theorem Describes.readable {limit : Nat} {ts : List Token} {forest : List Datum}
    (h : Describes ts forest) (hwords : ∀ letters, .word letters ∈ ts → IsWord letters) {depth : Nat}
    {tail : List Token} (hdepth : depth ≤ limit)
    (hnone : firstFault limit 0 depth (row (ts ++ tail)) = none) :
    (∀ d ∈ forest, Readable (limit - depth) d) ∧ firstFault limit 0 depth (row tail) = none := by
  -- depth and tail are free: the items of a list stand one list deeper, in front of its end
  induction h generalizing depth tail with
  | nil => exact ⟨fun _ => nofun, hnone⟩
  | @word ts forest letters _ ih =>
    have hrow : row (Token.word letters :: ts ++ tail) = (0, .word letters) :: row (ts ++ tail) := rfl
    rw [hrow, firstFault_word] at hnone
    obtain ⟨hforest, htail⟩ := ih (fun w hw => hwords w (List.mem_cons_of_mem _ hw)) hdepth hnone
    exact ⟨List.forall_mem_cons.mpr ⟨.word (hwords letters List.mem_cons_self), hforest⟩, htail⟩
  | @list inner ts items forest _ _ ihInner ihRest =>
    have hrow : row (Token.opening :: (inner ++ Token.closing :: ts) ++ tail) =
        (0, .opening) :: row (inner ++ Token.closing :: (ts ++ tail)) := by
      simp [row]
    rw [hrow, firstFault_opening] at hnone
    split at hnone
    · cases hnone
    · rename_i hopen
      have hinside : ∀ letters, .word letters ∈ inner → IsWord letters := fun w hw =>
        hwords w (List.mem_cons_of_mem _ (List.mem_append_left _ hw))
      have hbehind : ∀ letters, .word letters ∈ ts → IsWord letters := fun w hw =>
        hwords w (List.mem_cons_of_mem _ (List.mem_append_right _ (List.mem_cons_of_mem _ hw)))
      obtain ⟨hitems, hclose⟩ := ihInner hinside (Nat.lt_of_le_of_ne hdepth hopen) hnone
      obtain ⟨hforest, htail⟩ := ihRest hbehind hdepth hclose
      have hnested : limit - depth = limit - (depth + 1) + 1 := by omega
      refine ⟨List.forall_mem_cons.mpr ⟨?_, hforest⟩, htail⟩
      rw [hnested]
      exact .list hitems

/-- The forms of a text can be written within the limit. -/
theorem Reference.readable {limit : Nat} {text : List Char} {forest : List Datum}
    (h : Reference limit text (.ok forest)) : ∀ d ∈ forest, Readable limit d := by
  cases h with
  | forest hnone hdescribes =>
    have hrow : ((tokens 0 text).map Prod.snd) = (row ((tokens 0 text).map Prod.snd)).map Prod.snd := by
      simp [row, Function.comp_def]
    have hfault : firstFault limit 0 0 (row ((tokens 0 text).map Prod.snd)) = none :=
      firstFault_eq_none_congr hrow hnone
    rw [← List.append_nil ((tokens 0 text).map Prod.snd)] at hfault
    exact (hdescribes.readable (fun _ => isWord_of_mem_tokens) (Nat.zero_le limit) hfault).1

/-! ## Written forms -/

/-- The text is a written form of the datum, and at most `depth` lists are nested in it. -/
inductive Written : Nat → List Char → Datum → Prop where
  | word {depth : Nat} {letters : List Char} (h : IsWord letters) :
      Written depth letters (ofWord letters)
  | list {depth : Nat} {parts : List (List Char × Datum)}
      (h : ∀ part ∈ parts, Written depth part.1 part.2) :
      Written (depth + 1) ('(' :: ([' '].intercalate (parts.map Prod.fst) ++ [')']))
        (.list (parts.map Prod.snd))

/-- Texts that are put one after the other, each behind a space, are texts with one space between
them. -/
theorem toList_spaced {α : Type} {text : α → String} {rest : List α → String} (hnil : rest [] = "")
    (hcons : ∀ a as, rest (a :: as) = " " ++ text a ++ rest as) (a : α) (as : List α) :
    (text a).toList ++ (rest as).toList =
      [' '].intercalate ((a :: as).map fun b => (text b).toList) := by
  induction as generalizing a with
  | nil => simp [hnil]
  | cons b as ih =>
    have hjoin : [' '].intercalate ((a :: b :: as).map fun c => (text c).toList) =
        (text a).toList ++ ' ' :: [' '].intercalate ((b :: as).map fun c => (text c).toList) := by
      simp [List.intercalate]
    rw [hcons, hjoin, ← ih b]
    simp

namespace Passes

variable {limit depth offset : Nat} {text rest : List Char}

/-- A separator is passed as no datum. -/
theorem separator {c : Char} (hc : isSeparator c = true) (limit depth offset : Nat)
    (text : List Char) : Passes limit depth offset (c :: text) text [] := by
  refine ⟨[c], [], rfl, ?_, .nil, fun _ _ => rfl⟩
  rw [tokens_separator offset hc, List.nil_append, byteLength_cons]
  rfl

/-- Texts with one space between them are passed one after the other. -/
theorem spaced {parts : List (List Char × Datum)} (hrest : EndsWord rest)
    (h : ∀ part ∈ parts, ∀ rest, EndsWord rest → ∀ offset,
      Passes limit depth offset (part.1 ++ rest) rest [part.2]) (offset : Nat) :
    Passes limit depth offset ([' '].intercalate (parts.map Prod.fst) ++ rest) rest
      (parts.map Prod.snd) := by
  induction parts generalizing offset with
  | nil => exact .refl ..
  | cons part parts ih =>
    have hlater := ih fun p hp => h p (List.mem_cons_of_mem part hp)
    cases parts with
    | nil =>
      have hlast := h part List.mem_cons_self rest hrest offset
      simpa using hlast
    | cons next parts =>
      have hspace : EndsWord (' ' :: ([' '].intercalate ((next :: parts).map Prod.fst) ++ rest)) :=
        .cons rfl _
      have hjoin : [' '].intercalate ((part :: next :: parts).map Prod.fst) ++ rest =
          part.1 ++ ' ' :: ([' '].intercalate ((next :: parts).map Prod.fst) ++ rest) := by
        simp [List.intercalate]
      rw [hjoin, List.map_cons]
      have hfirst := h part List.mem_cons_self _ hspace offset
      exact hfirst.trans fun _ => (separator rfl ..).trans hlater

end Passes

/-- A written form is passed as its datum where its lists may still be opened. -/
theorem Written.passes {limit depth n : Nat} {text rest : List Char} {d : Datum} (h : Written n text d)
    (hdepth : depth + n ≤ limit) (hrest : EndsWord rest) (offset : Nat) :
    Passes limit depth offset (text ++ rest) rest [d] := by
  induction h generalizing depth rest offset with
  | @word n letters h =>
    obtain ⟨c, cs, rfl⟩ := List.exists_cons_of_ne_nil h.nonempty
    obtain ⟨htake, hdrop⟩ := h.cut hrest
    have hword := Passes.word limit depth offset (h.solid c List.mem_cons_self) (cs ++ rest)
    rw [htake, hdrop] at hword
    exact hword
  | @list n parts _ ih =>
    have hclose : EndsWord (')' :: rest) := .cons rfl rest
    have hopen : depth ≠ limit := by omega
    have hinside : depth + 1 + n ≤ limit := by omega
    have hitems := Passes.spaced hclose fun part hpart rest hrest offset =>
      ih part hpart hinside hrest offset
    have hlist : Passes limit depth offset
        ('(' :: ([' '].intercalate (parts.map Prod.fst) ++ ')' :: rest)) rest
        [.list (parts.map Prod.snd)] := .list hopen hitems rfl
    simpa using hlist

/-- A written form is read as its datum. -/
theorem Written.reference {limit : Nat} {text : List Char} {d : Datum} (h : Written limit text d) :
    Reference limit text (.ok [d]) := by
  have hpasses := h.passes (Nat.le_of_eq (Nat.zero_add limit)) .nil 0
  rw [List.append_nil] at hpasses
  obtain ⟨front, ts, _, htokens, hforest, hfault⟩ := hpasses
  rw [tokens_nil, List.append_nil] at htokens
  refine .forest ?_ ?_
  · rw [htokens, ← List.append_nil ts, hfault]
    rfl
  · rw [htokens]
    exact hforest

end MiniLisp.Datum
