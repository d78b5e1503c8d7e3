import MiniLisp.Error.Basic
import MiniLisp.Proofs.Reader.Bracketing

/-!
# What an excerpt shows

The excerpt in a message about an unreadable text begins and ends at boundaries of characters, whatever
the byte offset is, and the offset lies within it if it lies within the text.  An offset inside a
character or behind the end of the text only moves the beginning of the excerpt back, by less than the
length of a character (`splitAtByte_near`).
-/

namespace MiniLisp

namespace Snippet

open Datum (byteLength)

variable {bytes : Nat} {text front rest : List Char} {c : Char}

/-! ## Splitting at a byte -/

theorem splitAtByte_cons_of_le (h : c.utf8Size ≤ bytes) :
    splitAtByte bytes (c :: text) =
      (c :: (splitAtByte (bytes - c.utf8Size) text).1, (splitAtByte (bytes - c.utf8Size) text).2) := by
  rw [splitAtByte, if_pos h]

theorem splitAtByte_cons_of_lt (h : bytes < c.utf8Size) :
    splitAtByte bytes (c :: text) = ([], c :: text) := by
  rw [splitAtByte, if_neg (Nat.not_le_of_lt h)]

/-- No more is split off than was asked for. -/
theorem byteLength_splitAtByte_le (bytes : Nat) (text : List Char) :
    byteLength (splitAtByte bytes text).1 ≤ bytes := by
  induction text generalizing bytes with
  | nil => exact Nat.zero_le bytes
  | cons c text ih =>
    by_cases h : c.utf8Size ≤ bytes
    · rw [splitAtByte_cons_of_le h, Datum.byteLength_cons]
      have hrest := ih (bytes - c.utf8Size)
      omega
    · rw [splitAtByte_cons_of_lt (Nat.lt_of_not_le h)]
      exact Nat.zero_le bytes

/-- No longer beginning of the text fits. -/
theorem byteLength_le_splitAtByte (h : byteLength front ≤ bytes) (rest : List Char) :
    byteLength front ≤ byteLength (splitAtByte bytes (front ++ rest)).1 := by
  induction front generalizing bytes with
  | nil => exact Nat.zero_le _
  | cons c front ih =>
    rw [Datum.byteLength_cons] at h
    have hfits : c.utf8Size ≤ bytes := Nat.le_trans (Nat.le_add_right _ _) h
    have hrest := ih (Nat.le_sub_of_add_le' h)
    rw [List.cons_append, splitAtByte_cons_of_le hfits, Datum.byteLength_cons, Datum.byteLength_cons]
    exact Nat.add_le_add_left hrest _

/-- Where a text is split before its end, less than a character is missing. -/
theorem splitAtByte_near (bytes : Nat) (text : List Char) :
    (splitAtByte bytes text).2 = [] ∨ bytes < byteLength (splitAtByte bytes text).1 + 4 := by
  induction text generalizing bytes with
  | nil => exact .inl rfl
  | cons c text ih =>
    by_cases h : c.utf8Size ≤ bytes
    · rw [splitAtByte_cons_of_le h, Datum.byteLength_cons]
      refine (ih (bytes - c.utf8Size)).imp_right fun hnear => ?_
      omega
    · have hlt := Nat.lt_of_not_le h
      rw [splitAtByte_cons_of_lt hlt]
      exact .inr (Nat.lt_of_lt_of_le hlt (Nat.le_trans c.utf8Size_le_four (Nat.le_add_left _ _)))

/-! ## Lengths -/

/-- A character has at least one byte. -/
theorem length_le_byteLength (cs : List Char) : cs.length ≤ byteLength cs := by
  induction cs with
  | nil => exact Nat.le_refl 0
  | cons c cs ih =>
    have hpos := c.utf8Size_pos
    rw [List.length_cons, Datum.byteLength_cons]
    omega

theorem byteLength_eq_zero_iff {cs : List Char} : byteLength cs = 0 ↔ cs = [] := by
  constructor
  · intro h
    have hlength := length_le_byteLength cs
    rw [h] at hlength
    exact List.eq_nil_of_length_eq_zero (Nat.le_zero.mp hlength)
  · rintro rfl
    rfl

theorem byteLength_toList (text : String) : byteLength text.toList = text.utf8ByteSize := by
  rw [byteLength, String.ofList_toList]

/-- The boundaries of characters are where a text can be cut in two. -/
theorem isValid_iff {text : String} {i : Nat} :
    String.Pos.Raw.IsValid text ⟨i⟩ ↔ ∃ front rest, text.toList = front ++ rest ∧ i = byteLength front := by
  rw [String.Pos.Raw.isValid_iff_exists_append]
  constructor
  · rintro ⟨front, rest, rfl, hi⟩
    refine ⟨front.toList, rest.toList, String.toList_append, ?_⟩
    rw [byteLength_toList]
    exact congrArg String.Pos.Raw.byteIdx hi
  · rintro ⟨front, rest, htext, rfl⟩
    refine ⟨.ofList front, .ofList rest, ?_, rfl⟩
    rw [← String.ofList_append, ← htext, String.ofList_toList]

/-! ## One line -/

/-- Writing a text on one line is replacing its line feeds and then deleting its carriage returns. -/
theorem flatMap_onOneLine (text : List Char) :
    text.flatMap onOneLine =
      (text.flatMap fun c => if c = '\n' then ['\\', 'n'] else [c]).filter (· ≠ '\r') := by
  rw [List.filter_flatMap]
  refine congrArg (text.flatMap ·) (funext fun c => ?_)
  unfold onOneLine
  split
  · rfl
  · by_cases hreturn : c = '\r'
    · simp [hreturn]
    · simp [hreturn]

theorem not_mem_flatMap_onOneLine (text : List Char) :
    '\n' ∉ text.flatMap onOneLine ∧ '\r' ∉ text.flatMap onOneLine := by
  constructor
  · intro h
    obtain ⟨c, _, hc⟩ := List.mem_flatMap.mp h
    unfold onOneLine at hc
    split at hc
    · simp at hc
    · split at hc
      · cases hc
      · rename_i hfeed _
        exact hfeed (List.mem_singleton.mp hc).symm
  · rw [flatMap_onOneLine]
    intro h
    simpa using (List.mem_filter.mp h).2

/-! ## The excerpt -/

/-- The text that is shown before it is written on one line. -/
theorem around_of_split {offset : Nat} (h : splitAtByte (offset - lead) text = (front, rest)) :
    around text offset =
      ((if front = [] then [] else ellipsis) ++ rest.take size ++
        (if rest.length ≤ size then [] else ellipsis)).flatMap onOneLine := by
  rw [around, h]

/-- An offset within the text lies within the excerpt. -/
theorem offset_le_excerpt {offset : Nat} (h : offset ≤ byteLength text) :
    offset ≤ byteLength (splitAtByte (offset - lead) text).1 +
      byteLength ((splitAtByte (offset - lead) text).2.take size) := by
  have hwhole := congrArg byteLength (splitAtByte_append (offset - lead) text)
  rw [Datum.byteLength_append] at hwhole
  rcases splitAtByte_near (offset - lead) text with hnone | hnear
  · rw [hnone, Datum.byteLength_nil] at hwhole
    omega
  · by_cases hshort : (splitAtByte (offset - lead) text).2.length ≤ size
    · rw [List.take_of_length_le hshort]
      omega
    · have hlength := length_le_byteLength ((splitAtByte (offset - lead) text).2.take size)
      rw [List.length_take_of_le (Nat.le_of_not_le hshort)] at hlength
      simp only [lead, size] at hnear hlength ⊢
      omega

end Snippet

/-- The error for a text out of balance keeps the kind and the offset.  Its context shows an excerpt that
starts at the greatest character boundary that is at least twenty bytes before the offset, or at the
beginning of the text, and holds the next hundred characters or as many as there are.  Dots stand in front
if the excerpt does not start at the beginning, and behind it if it does not reach the end.  In this text
line feeds are replaced and then carriage returns deleted, so that neither is left.  The excerpt ends at a
character boundary too, and holds every offset that lies within the text. -/
theorem Error.unbalancedAt_excerpt (imbalance : Imbalance) (text : String) (offset : Nat) :
    ∃ before excerpt behind context : String,
      let start := before.utf8ByteSize
      let stop := start + excerpt.utf8ByteSize
      let shown := (if 0 < start then "[...]" else "") ++ excerpt ++
        (if stop < text.utf8ByteSize then "[...]" else "")
      unbalancedAt imbalance text offset = unbalanced imbalance offset context ∧
      text = before ++ excerpt ++ behind ∧
      (String.Pos.Raw.IsValid text ⟨start⟩ ∧ start ≤ offset - 20 ∧
        ∀ i, String.Pos.Raw.IsValid text ⟨i⟩ → i ≤ offset - 20 → i ≤ start) ∧
      (String.Pos.Raw.IsValid text ⟨stop⟩ ∧ excerpt.length = min 100 (excerpt ++ behind).length) ∧
      context.toList =
        (shown.toList.flatMap fun c => if c = '\n' then ['\\', 'n'] else [c]).filter (· ≠ '\r') ∧
      ('\n' ∉ context.toList ∧ '\r' ∉ context.toList) ∧
      (offset ≤ text.utf8ByteSize → start ≤ offset ∧ offset ≤ stop) := by
  -- the excerpt begins where the text is cut twenty bytes before the offset
  obtain ⟨front, rest, hcut⟩ : ∃ front rest, Snippet.splitAtByte (offset - 20) text.toList = (front, rest) :=
    ⟨_, _, rfl⟩
  have happend : front ++ rest = text.toList := by
    have hwhole := Snippet.splitAtByte_append (offset - 20) text.toList
    rwa [hcut] at hwhole
  have htext : text = .ofList front ++ .ofList (rest.take 100) ++ .ofList (rest.drop 100) := by
    rw [← String.ofList_append, ← String.ofList_append, List.append_assoc, List.take_append_drop,
      happend, String.ofList_toList]
  refine ⟨.ofList front, .ofList (rest.take 100), .ofList (rest.drop 100),
    .ofList (Snippet.around text.toList offset), rfl, htext, ⟨?_, ?_, ?_⟩, ⟨?_, ?_⟩, ?_, ?_, ?_⟩
  · exact Snippet.isValid_iff.mpr ⟨front, rest, happend.symm, rfl⟩
  · have hle := Snippet.byteLength_splitAtByte_le (offset - 20) text.toList
    rwa [hcut] at hle
  · intro i hi hle
    -- any other boundary is a cut too, and the one taken is the longest that fits
    obtain ⟨front', rest', htext', rfl⟩ := Snippet.isValid_iff.mp hi
    have hlongest := Snippet.byteLength_le_splitAtByte hle rest'
    rwa [← htext', hcut] at hlongest
  · refine Snippet.isValid_iff.mpr ⟨front ++ rest.take 100, rest.drop 100, ?_, ?_⟩
    · rw [List.append_assoc, List.take_append_drop, happend]
    · rw [Datum.byteLength_append]
      rfl
  · rw [← String.ofList_append, List.take_append_drop, String.length_ofList, String.length_ofList,
      List.length_take]
  · rw [String.toList_ofList, Snippet.around_of_split hcut, Snippet.flatMap_onOneLine]
    have hfront : 0 < (String.ofList front).utf8ByteSize ↔ ¬ front = [] := by
      rw [Nat.pos_iff_ne_zero]
      exact not_congr Snippet.byteLength_eq_zero_iff
    have hbehind : (String.ofList front).utf8ByteSize + (String.ofList (rest.take 100)).utf8ByteSize <
        text.utf8ByteSize ↔ ¬ rest.length ≤ 100 := by
      rw [← List.drop_eq_nil_iff, ← Snippet.byteLength_eq_zero_iff, htext]
      simp only [String.utf8ByteSize_append, Datum.byteLength]
      omega
    have hdots : "[...]".toList = Snippet.ellipsis := rfl
    simp only [String.toList_append, apply_ite String.toList, hfront, hbehind, ite_not, hdots,
      String.toList_ofList, String.toList_empty]
    rfl
  · rw [String.toList_ofList, Snippet.around_of_split hcut]
    exact Snippet.not_mem_flatMap_onOneLine _
  · intro hwithin
    rw [← Snippet.byteLength_toList] at hwithin
    have hend := Snippet.offset_le_excerpt hwithin
    have hstart := Snippet.byteLength_splitAtByte_le (offset - 20) text.toList
    rw [show Snippet.lead = 20 from rfl, hcut] at hend
    rw [hcut] at hstart
    exact ⟨Nat.le_trans hstart (Nat.sub_le _ _), hend⟩

end MiniLisp
