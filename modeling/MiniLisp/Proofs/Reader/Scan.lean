import MiniLisp.Program
import Mathlib.Tactic.Set
import MiniLisp.Proofs.Reader.Bracketing

/-!
# The reader finds the bracketing

The descent of `readDatum` and `readItems` through a text is compared with the one scan of
`firstFault`.  What a descent reads are whole data: their tokens describe them and leave the counter of
open lists where it was (`Passes`).  A descent that halts does so at the first fault (`HaltsAt`).  Both
are shown at once by the induction that follows the descent, and give `readChars_reference`: the reader
gives the answer that `Reference` describes, for every text and every limit.
-/

namespace MiniLisp.Datum

/-! ## Separators -/

theorem tokens_skipSeparators (offset : Nat) (text : List Char) :
    ∃ skipped, text = skipped ++ skipSeparators text ∧
      tokens offset text = tokens (offset + byteLength skipped) (skipSeparators text) := by
  induction text generalizing offset with
  | nil => exact ⟨[], rfl, rfl⟩
  | cons c cs ih =>
    by_cases hc : isSeparator c = true
    · obtain ⟨skipped, htext, htokens⟩ := ih (offset + c.utf8Size)
      refine ⟨c :: skipped, ?_, ?_⟩
      · rw [skipSeparators, List.dropWhile_cons_of_pos hc, List.cons_append]
        exact congrArg (c :: ·) htext
      · rw [tokens_separator offset hc, htokens, skipSeparators, skipSeparators,
          List.dropWhile_cons_of_pos hc, byteLength_cons, Nat.add_assoc]
    · refine ⟨[], ?_, ?_⟩
      · rw [skipSeparators, List.dropWhile_cons_of_neg hc, List.nil_append]
      · rw [skipSeparators, List.dropWhile_cons_of_neg hc, byteLength_nil, Nat.add_zero]

theorem isSeparator_of_skipSeparators_eq_cons {text cs : List Char} {c : Char}
    (h : skipSeparators text = c :: cs) : isSeparator c = false := by
  have hne : text.dropWhile isSeparator ≠ [] := by
    rw [show text.dropWhile isSeparator = c :: cs from h]
    exact List.cons_ne_nil c cs
  have hhead := List.head_dropWhile_not isSeparator hne
  simpa only [show text.dropWhile isSeparator = c :: cs from h, List.head_cons] using hhead

/-! ## What a descent does to the counter -/

/-- Between `text` and its end `rest` stand the whole data `forest`; `text` starts at a byte offset
and behind `depth` open lists. -/
def Passes (limit depth offset : Nat) (text rest : List Char) (forest : List Datum) : Prop :=
  ∃ front ts, text = front ++ rest ∧
    tokens offset text = ts ++ tokens (offset + byteLength front) rest ∧
    Describes (ts.map Prod.snd) forest ∧
    ∀ size tail, firstFault limit size depth (ts ++ tail) = firstFault limit size depth tail

/-- A descent that halts in `text` does so at the first fault of the scan. -/
def HaltsAt (limit depth offset : Nat) (text : List Char) : Halt → Prop
  | .tooDeep =>
    firstFault limit (offset + byteLength text) depth (tokens offset text) = some (.tooDeep limit)
  | .unclosed rest => rest = [] ∧
    firstFault limit (offset + byteLength text) depth (tokens offset text) =
      some (.unclosed (offset + byteLength text))

namespace Passes

variable {limit depth offset : Nat} {text rest : List Char} {forest : List Datum}

theorem skip (limit depth offset : Nat) (text : List Char) :
    Passes limit depth offset text (skipSeparators text) [] := by
  obtain ⟨skipped, htext, htokens⟩ := tokens_skipSeparators offset text
  exact ⟨skipped, [], htext, htokens, .nil, fun _ _ => rfl⟩

theorem refl (limit depth offset : Nat) (text : List Char) :
    Passes limit depth offset text text [] :=
  ⟨[], [], rfl, by simp, .nil, fun _ _ => rfl⟩

/-- Data behind data: the second part starts where the first one ends. -/
theorem trans {rest' : List Char} {forest' : List Datum}
    (h : Passes limit depth offset text rest forest)
    (h' : ∀ offset, Passes limit depth offset rest rest' forest') :
    Passes limit depth offset text rest' (forest ++ forest') := by
  obtain ⟨front, ts, htext, htokens, hforest, hfault⟩ := h
  obtain ⟨front', ts', htext', htokens', hforest', hfault'⟩ := h' (offset + byteLength front)
  refine ⟨front ++ front', ts ++ ts', ?_, ?_, ?_, ?_⟩
  · rw [htext, htext', List.append_assoc]
  · rw [htokens, htokens', byteLength_append, Nat.add_assoc, List.append_assoc]
  · rw [List.map_append]
    exact hforest.append hforest'
  · intro size tail
    rw [List.append_assoc, hfault, hfault']

/-- The word in front of a text is passed as one atom. -/
theorem word (limit depth offset : Nat) {c : Char} (hc : isDelimiter c = false) (cs : List Char) :
    Passes limit depth offset (c :: cs) (cs.dropWhile (!isDelimiter ·))
      [ofWord (c :: cs.takeWhile (!isDelimiter ·))] := by
  set letters := c :: cs.takeWhile (!isDelimiter ·) with hletters
  refine ⟨letters, [(offset, .word letters)], ?_, ?_, ?_, ?_⟩
  · rw [hletters, List.cons_append, List.takeWhile_append_dropWhile]
  · exact tokens_word offset hc cs
  · exact .word letters .nil
  · intro size tail
    exact firstFault_word ..

/-- The tokens of a list within the limit are passed as one datum. -/
theorem list {inside behind : List Char} (hdepth : depth ≠ limit)
    (h : ∀ offset, Passes limit (depth + 1) offset inside rest forest)
    (hclose : skipSeparators rest = ')' :: behind) :
    Passes limit depth offset ('(' :: inside) behind [.list forest] := by
  have hitems : Passes limit (depth + 1) (offset + 1) inside (')' :: behind) forest := by
    rw [← hclose, ← List.append_nil forest]
    exact (h _).trans fun _ => skip ..
  obtain ⟨front, ts, htext, htokens, hforest, hfault⟩ := hitems
  refine ⟨'(' :: front ++ [')'],
    (offset, .opening) :: (ts ++ [(offset + 1 + byteLength front, .closing)]), ?_, ?_, ?_, ?_⟩
  · rw [htext]
    simp
  · rw [tokens_opening, htokens, tokens_closing]
    simp [show '('.utf8Size = 1 from rfl, show ')'.utf8Size = 1 from rfl, Nat.add_assoc]
  · simpa using Describes.list hforest .nil
  · intro size tail
    simp only [List.cons_append, List.append_assoc, firstFault_opening, if_neg hdepth, hfault,
      List.nil_append, firstFault_closing_succ]

/-- A fault behind passed data is a fault of the whole. -/
theorem haltsAt {halt : Halt} (h : Passes limit depth offset text rest forest)
    (h' : ∀ offset, HaltsAt limit depth offset rest halt) : HaltsAt limit depth offset text halt := by
  obtain ⟨front, ts, rfl, htokens, -, hfault⟩ := h
  have hrest := h' (offset + byteLength front)
  cases halt with
  | tooDeep =>
    simp only [HaltsAt] at hrest ⊢
    rw [htokens, hfault, byteLength_append, ← Nat.add_assoc, hrest]
  | unclosed left =>
    simp only [HaltsAt] at hrest ⊢
    rw [htokens, hfault, byteLength_append, ← Nat.add_assoc]
    exact hrest

end Passes

/-- A fault inside a list is a fault of the text in front of which the list opens. -/
theorem HaltsAt.opening {limit depth offset : Nat} {inside : List Char} {halt : Halt}
    (hdepth : depth ≠ limit) (h : HaltsAt limit (depth + 1) (offset + 1) inside halt) :
    HaltsAt limit depth offset ('(' :: inside) halt := by
  have hsize : offset + byteLength ('(' :: inside) = offset + 1 + byteLength inside := by
    rw [byteLength_cons, show '('.utf8Size = 1 from rfl, Nat.add_assoc]
  cases halt with
  | tooDeep =>
    simp only [HaltsAt] at h ⊢
    rw [hsize, tokens_opening, firstFault_opening, if_neg hdepth, h]
  | unclosed left =>
    simp only [HaltsAt] at h ⊢
    rw [hsize, tokens_opening, firstFault_opening, if_neg hdepth]
    exact h

/-- The items of an open list may run into the end of the text. -/
theorem HaltsAt.endOfText (limit depth offset : Nat) :
    HaltsAt limit (depth + 1) offset [] (.unclosed []) := by
  simp [HaltsAt, firstFault]

/-! ## The descent -/

/-- No datum starts in front of a text: it is empty, or a delimiter other than an opening parenthesis
stands there. -/
def NoDatum (text : List Char) : Prop :=
  ∀ c cs, text = c :: cs → isDelimiter c = true ∧ c ≠ '('

theorem NoDatum.ends {text : List Char} (h : NoDatum (skipSeparators text)) :
    skipSeparators text = [] ∨ ∃ cs, skipSeparators text = ')' :: cs := by
  cases hskip : skipSeparators text with
  | nil => exact .inl rfl
  | cons c cs =>
    obtain ⟨hdelimiter, hopen⟩ := h c cs hskip
    have hseparator := isSeparator_of_skipSeparators_eq_cons hskip
    have hc : c = ')' := by simpa [isDelimiter, hseparator, hopen] using hdelimiter
    exact .inr ⟨cs, by rw [hc]⟩

/-- What `readDatum` owes. -/
def DatumOwed (limit depth : Nat) (text : List Char) : Except Halt (Option (Front text)) → Prop
  | .error halt => ∀ offset, HaltsAt limit depth offset text halt
  | .ok none => NoDatum text
  | .ok (some front) => ∀ offset, Passes limit depth offset text front.rest [front.datum]

/-- What `readItems` owes behind the data `before`. -/
def ItemsOwed (limit depth : Nat) {whole : List Char} (text : List Char) (before : List Datum) :
    Except Halt (Items whole) → Prop
  | .error halt => ∀ offset, HaltsAt limit depth offset text halt
  | .ok items => NoDatum (skipSeparators items.rest) ∧ ∃ forest,
    items.newestFirst = forest.reverse ++ before ∧
      ∀ offset, Passes limit depth offset text items.rest forest

theorem readWord_owed (limit depth : Nat) (text : List Char)
    (hopen : ∀ inside, text = '(' :: inside → False) :
    DatumOwed limit depth text (.ok (readWord text)) := by
  cases text with
  | nil =>
    intro c cs hnil
    cases hnil
  | cons c cs =>
    cases hc : isDelimiter c with
    | true =>
      rw [readWord, if_pos hc]
      intro c' cs' hcons
      cases hcons
      exact ⟨hc, fun hc' => hopen cs (by rw [hc'])⟩
    | false =>
      rw [readWord, if_neg (by simp [hc])]
      exact fun offset => Passes.word limit depth offset hc cs

theorem readDatum_list_owed {limit depth : Nat} {inside : List Char} (hdepth : depth < limit)
    (h : ItemsOwed limit (depth + 1) inside []
      (readItems limit (depth + 1) inside inside (Nat.le_refl _) [])) :
    DatumOwed limit depth ('(' :: inside) (readDatum limit depth ('(' :: inside)) := by
  rw [readDatum, if_neg (by omega)]
  cases hitems : readItems limit (depth + 1) inside inside (Nat.le_refl _) [] with
  | error halt =>
    rw [hitems] at h
    exact fun offset => (h (offset + 1)).opening (by omega)
  | ok items =>
    rw [hitems] at h
    obtain ⟨hends, forest, hforest, hpasses⟩ := h
    have hlist : items.newestFirst.reverse = forest := by simp [hforest]
    dsimp only
    split
    · rename_i behind hclose
      rw [hlist]
      exact fun offset => .list (by omega) hpasses hclose
    · rename_i hopen
      -- the items end where no datum starts, which here can only be the end of the text
      have hskip : skipSeparators items.rest = [] := by
        rcases hends.ends with hnil | ⟨cs, hcs⟩
        · exact hnil
        · exact (hopen cs hcs).elim
      intro offset
      refine HaltsAt.opening (by omega) ((hpasses _).haltsAt fun offset => ?_)
      refine (Passes.skip ..).haltsAt fun offset => ?_
      rw [hskip]
      exact .endOfText ..

/-- Inside at most `limit` open lists the descent gives what it owes.  The induction follows the
descent: into a list with one more list open, and from each datum to the text behind it. -/
theorem read_owed (limit : Nat) :
    (∀ depth text, depth ≤ limit → DatumOwed limit depth text (readDatum limit depth text)) ∧
    (∀ depth whole text within before, depth ≤ limit →
      ItemsOwed limit depth text before (readItems limit depth whole text within before)) := by
  -- the offset is left to the relations, as the reader only knows the rest of the text
  refine readDatum.mutual_induct limit
    (fun depth text => depth ≤ limit → DatumOwed limit depth text (readDatum limit depth text))
    (fun depth whole text within before => depth ≤ limit →
      ItemsOwed limit depth text before (readItems limit depth whole text within before))
    ?tooDeep ?listHalts ?listCloses ?listOpen ?noList ?halts ?noDatum ?datum
  case tooDeep =>
    intro depth inside hlimit hdepth
    have hreached : depth = limit := Nat.le_antisymm hdepth hlimit
    rw [readDatum, if_pos hlimit]
    intro offset
    simp [HaltsAt, hreached]
  case listHalts =>
    intro depth inside hlimit halt _ ih hdepth
    exact readDatum_list_owed (by omega) (ih (by omega))
  case listCloses =>
    intro depth inside hlimit items _ behind _ ih hdepth
    exact readDatum_list_owed (by omega) (ih (by omega))
  case listOpen =>
    intro depth inside hlimit items _ _ ih hdepth
    exact readDatum_list_owed (by omega) (ih (by omega))
  case noList =>
    intro depth text hopen _
    rw [readDatum.eq_2 _ _ _ hopen]
    exact readWord_owed limit depth text hopen
  case halts =>
    intro depth whole text within before halt hdatum ih hdepth
    rw [readItems, hdatum]
    have howed := ih hdepth
    rw [hdatum] at howed
    exact fun offset => (Passes.skip ..).haltsAt howed
  case noDatum =>
    intro depth whole text within before hdatum ih hdepth
    rw [readItems, hdatum]
    have howed := ih hdepth
    rw [hdatum] at howed
    exact ⟨howed, [], rfl, fun offset => .refl ..⟩
  case datum =>
    intro depth whole text within before front hdatum shorter ihDatum ihItems hdepth
    have hfront := ihDatum hdepth
    have howed := ihItems hdepth
    rw [hdatum] at hfront
    rw [readItems, hdatum]
    dsimp only
    have hpasses : ∀ offset, Passes limit depth offset text front.rest [front.datum] :=
      fun offset => (Passes.skip ..).trans hfront
    cases hitems : readItems limit depth whole front.rest
        (Nat.le_trans (Nat.le_of_lt shorter) within) (front.datum :: before) with
    | error halt =>
      rw [hitems] at howed
      exact fun offset => (hpasses offset).haltsAt howed
    | ok items =>
      rw [hitems] at howed
      obtain ⟨hends, forest, hforest, hrest⟩ := howed
      refine ⟨hends, front.datum :: forest, ?_, fun offset => (hpasses offset).trans hrest⟩
      rw [hforest, List.reverse_cons, List.append_assoc, List.singleton_append]

/-! ## The whole text -/

/-- The reader gives the answer owed. -/
theorem readChars_reference (limit : Nat) (text : List Char) :
    Reference limit text (readChars limit text) := by
  have howed := (read_owed limit).2 0 text text (Nat.le_refl _) [] (Nat.zero_le _)
  rw [readChars]
  cases hitems : readItems limit 0 text text (Nat.le_refl _) [] with
  | error halt =>
    rw [hitems] at howed
    have hhalt := howed 0
    cases halt with
    | tooDeep =>
      simp only [HaltsAt, Nat.zero_add] at hhalt
      exact .fault hhalt
    | unclosed rest =>
      simp only [HaltsAt, Nat.zero_add] at hhalt
      obtain ⟨rfl, hfault⟩ := hhalt
      exact .fault hfault
  | ok items =>
    rw [hitems] at howed
    obtain ⟨hends, forest, hforest, hpasses⟩ := howed
    rw [List.append_nil] at hforest
    -- separators at the end belong to the text as well
    have hwhole : Passes limit 0 0 text (skipSeparators items.rest) forest := by
      rw [← List.append_nil forest]
      exact (hpasses 0).trans fun _ => .skip ..
    obtain ⟨front, ts, htext, htokens, hdescribes, hfault⟩ := hwhole
    rcases hends.ends with hnil | ⟨behind, hclose⟩
    · simp only [hnil, hforest, List.reverse_reverse]
      rw [hnil, tokens_nil, List.append_nil] at htokens
      refine .forest ?_ ?_
      · rw [htokens, ← List.append_nil ts, hfault]
        rfl
      · rw [htokens]
        exact hdescribes
    · simp only [hclose]
      have hoffset : byteLength text - byteLength (')' :: behind) = byteLength front := by
        rw [htext, hclose, byteLength_append, Nat.add_sub_cancel]
      refine .fault ?_
      rw [htokens, hfault, hclose, tokens_closing, hoffset, Nat.zero_add]
      rfl

/-- The scan reports the limit that it was given and the end of the whole text. -/
theorem eq_of_firstFault {limit size depth : Nat} {ts : List (Nat × Token)} {fault : ReadFault}
    (h : firstFault limit size depth ts = some fault) :
    (∀ reported, fault = .tooDeep reported → reported = limit) ∧
      ∀ reported, fault = .unclosed reported → reported = size := by
  fun_induction firstFault limit size depth ts with
  | case1 => cases h
  | case2 =>
    obtain rfl := Option.some.inj h
    exact ⟨nofun, fun _ hreported => (ReadFault.unclosed.inj hreported).symm⟩
  | case3 =>
    obtain rfl := Option.some.inj h
    exact ⟨fun _ hreported => (ReadFault.tooDeep.inj hreported).symm, nofun⟩
  | case5 =>
    obtain rfl := Option.some.inj h
    exact ⟨nofun, nofun⟩
  | case4 _ _ _ _ ih | case6 _ _ _ ih | case7 _ _ _ _ ih => exact ih h

/-- The text behind a fault that ends the scan has no say. -/
theorem firstFault_append {limit size size' depth offset : Nat} {text : List Char}
    {fault : ReadFault} (behind : List Char)
    (h : firstFault limit size depth (tokens offset text) = some fault)
    (hfault : ∀ offset, fault ≠ .unclosed offset) :
    firstFault limit size' depth (tokens offset (text ++ behind)) = some fault := by
  have hrunsOut : ∀ {depth : Nat}, firstFault limit size depth [] ≠ some fault := by
    intro depth hend
    cases depth with
    | zero => cases hend
    | succ depth =>
      cases hend
      exact hfault size rfl
  induction offset, text using tokens.induct generalizing depth with
  | case1 offset =>
    rw [tokens_nil] at h
    exact (hrunsOut h).elim
  | case2 offset cs ih =>
    rw [tokens_opening, firstFault_opening] at h
    rw [List.cons_append, tokens_opening, firstFault_opening]
    by_cases hdepth : depth = limit
    · rw [if_pos hdepth] at h ⊢
      exact h
    · rw [if_neg hdepth] at h ⊢
      exact ih h
  | case3 offset cs _ ih =>
    rw [tokens_closing] at h
    rw [List.cons_append, tokens_closing]
    cases depth with
    | zero => exact h
    | succ depth => exact ih h
  | case4 offset c cs _ _ hseparator ih =>
    rw [tokens_separator offset hseparator] at h
    rw [List.cons_append, tokens_separator offset hseparator]
    exact ih h
  | case5 offset c cs hopen hclose hseparator word =>
    rename_i ih
    have hc : isDelimiter c = false := by simp [isDelimiter, hopen, hclose, hseparator]
    rw [tokens_word offset hc, firstFault_word] at h
    rw [List.cons_append, tokens_word offset hc, firstFault_word]
    -- The last word of `text` may go on behind it, but then no fault of `text` is left.
    have hgoesOn : cs.dropWhile (!isDelimiter ·) ≠ [] := by
      intro hnil
      rw [hnil, tokens_nil] at h
      exact hrunsOut h
    have hshort : (cs.takeWhile (!isDelimiter ·)).length ≠ cs.length := by
      intro hlength
      refine hgoesOn (List.length_eq_zero_iff.1 ?_)
      have hsum := congrArg List.length
        (List.takeWhile_append_dropWhile (p := (!isDelimiter ·)) (l := cs))
      rw [List.length_append] at hsum
      omega
    rw [List.takeWhile_append, if_neg hshort, List.dropWhile_append,
      if_neg (by simpa using hgoesOn)]
    exact ih h

end MiniLisp.Datum

namespace MiniLisp.Interpreter

/-- The reader of an interpreter gives the answer owed, with the fault as an error of the text. -/
theorem read_of_reference (ip : Interpreter) {text : String}
    {answer : Except Datum.ReadFault (List Datum)}
    (h : Datum.Reference ip.limits.read text.toList answer) :
    ip.read text = answer.mapError (Error.ofReadFault text) := by
  rw [read, Datum.read, (Datum.readChars_reference ..).unique h]
  cases answer <;> rfl

/-- A fault that ends the scan is the answer to every longer text too. -/
theorem reference_append (ip : Interpreter) {text : String} {fault : Datum.ReadFault}
    (h : Datum.Reference ip.limits.read text.toList (.error fault))
    (hends : ∀ offset, fault ≠ .unclosed offset) (behind : String) :
    Datum.Reference ip.limits.read (text ++ behind).toList (.error fault) := by
  cases h with
  | fault hfirst =>
    refine .fault ?_
    rw [String.toList_append]
    exact Datum.firstFault_append behind.toList hfirst hends

/-- Reading is scanning: for every text and every limit there is exactly one answer that the tokens of
the text call for, and the reader gives it.  An opening parenthesis at the limit is an error that names
the limit, a closing parenthesis without a list one with its byte offset, and lists that are open at the
end one with the length of the text.  Behind a fault that ends the scan the text may go on in any way. -/
theorem read_eq_reference (ip : Interpreter) (text : String) :
    ∃ answer : Except Datum.ReadFault (List Datum),
      (∀ other, Datum.Reference ip.limits.read text.toList other ↔ other = answer) ∧
      match answer with
      | .ok forms => ip.read text = .ok forms
      | .error (.tooDeep _) =>
        ip.read text = .error (.tooDeep ip.limits.read) ∧
          ∀ behind, ip.read (text ++ behind) = .error (.tooDeep ip.limits.read)
      | .error (.unexpectedClose offset) =>
        ip.read text = .error (.unbalanced .unexpectedClose offset
            (String.ofList (Snippet.around text.toList offset))) ∧
          ∀ behind, ip.read (text ++ behind) = .error (.unbalanced .unexpectedClose offset
            (String.ofList (Snippet.around (text ++ behind).toList offset)))
      | .error (.unclosed _) =>
        ip.read text = .error (.unbalanced .unclosed text.utf8ByteSize
          (String.ofList (Snippet.around text.toList text.utf8ByteSize))) := by
  have hanswer := Datum.readChars_reference ip.limits.read text.toList
  refine ⟨Datum.readChars ip.limits.read text.toList, fun other => ⟨fun hother => ?_, ?_⟩, ?_⟩
  · exact hother.unique hanswer
  · rintro rfl
    exact hanswer
  generalize Datum.readChars ip.limits.read text.toList = answer at hanswer
  cases answer with
  | ok forms => exact ip.read_of_reference hanswer
  | error fault =>
    have hfirst : Datum.firstFault ip.limits.read (Datum.byteLength text.toList) 0
        (Datum.tokens 0 text.toList) = some fault := by
      cases hanswer with
      | fault hfirst => exact hfirst
    -- so the limit is that of the interpreter, and an open list is reported at the end of the text
    obtain ⟨hlimit, hsize⟩ := Datum.eq_of_firstFault hfirst
    cases fault with
    | tooDeep limit =>
      obtain rfl := hlimit limit rfl
      exact ⟨ip.read_of_reference hanswer,
        fun behind => ip.read_of_reference (ip.reference_append hanswer nofun behind)⟩
    | unexpectedClose offset =>
      exact ⟨ip.read_of_reference hanswer,
        fun behind => ip.read_of_reference (ip.reference_append hanswer nofun behind)⟩
    | unclosed offset =>
      have hoffset : offset = text.utf8ByteSize := by
        rw [hsize offset rfl, Datum.byteLength, String.ofList_toList]
      subst hoffset
      exact ip.read_of_reference hanswer

end MiniLisp.Interpreter
