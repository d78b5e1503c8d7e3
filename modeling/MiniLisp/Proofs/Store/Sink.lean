import MiniLisp.Proofs.Store.Effects

/-!
# Sinks that fail

A sink that may fail is compared with one that takes everything: as long as no write has failed both
hold the same text, and from then on the bytes that the first one holds are the beginning of those that
the second one holds.
-/

namespace MiniLisp

/-! ## Lines -/

/-- The line that a value is written as. -/
def Value.line : Value → String
  | .str text => text ++ "\n"
  | v => v.text ++ "\n"

/-- The lines of values. -/
def Value.lines (vs : List Value) : String := String.join (vs.map line)

theorem Value.lines_append (vs ws : List Value) : lines (vs ++ ws) = lines vs ++ lines ws := by
  rw [lines, List.map_append, String.join_append]
  rfl

namespace Sink

/-- Writes values, each on a line of its own. -/
def writeLines (sink : Sink) (vs : List Value) : Sink := vs.foldl writeLine sink

theorem writeLines_append (sink : Sink) (vs ws : List Value) :
    sink.writeLines (vs ++ ws) = (sink.writeLines vs).writeLines ws := List.foldl_append

variable {sink short full : Sink}

/-! ## Sinks that take everything -/

/-- A sink on which no write fails. -/
structure Unfailing (sink : Sink) : Prop where
  takes : sink.takes = everything
  unbroken : sink.broken = none

theorem unfailing_unlimited : unlimited.Unfailing := ⟨rfl, rfl⟩

theorem Unfailing.put_eq (h : sink.Unfailing) (piece : String) :
    sink.put piece = { sink with text := sink.text ++ piece } := by
  have hfits : piece.utf8ByteSize ≤ sink.takes sink.text piece := by
    rw [h.takes]
    exact Nat.le_refl _
  unfold put
  rw [h.unbroken]
  exact if_pos hfits

theorem Unfailing.put (h : sink.Unfailing) (piece : String) : (sink.put piece).Unfailing := by
  rw [h.put_eq piece]
  exact ⟨h.takes, h.unbroken⟩

theorem Unfailing.text_put (h : sink.Unfailing) (piece : String) :
    (sink.put piece).text = sink.text ++ piece := by
  rw [h.put_eq]

/-- Two pieces are written like one. -/
theorem Unfailing.put_put (h : sink.Unfailing) (first second : String) :
    (sink.put first).put second = sink.put (first ++ second) := by
  rw [(h.put first).put_eq, h.put_eq, h.put_eq, String.append_assoc]

theorem Unfailing.put_empty (h : sink.Unfailing) : sink.put "" = sink := by
  rw [h.put_eq, String.append_empty]

theorem Unfailing.writeLine (h : sink.Unfailing) (v : Value) : (sink.writeLine v).Unfailing := by
  refine writeLine_rel (fun _ later => later.Unfailing) ?_ (a := sink) h v
  intro _ later piece hlater
  exact hlater.put piece

/-- A value is written as one piece would be. -/
theorem Unfailing.writeLine_eq (h : sink.Unfailing) (v : Value) :
    sink.writeLine v = sink.put v.line := by
  -- the pieces of a value add up to its text, whatever was written before
  have hspell : v.spell Sink.put sink = sink.put v.text :=
    Value.spell_rel (fun later text => later = sink.put text)
      (fun piece hput => by rw [hput, h.put_put]) h.put_empty.symm v
  have hspelled : (v.spell Sink.put sink).put "\n" = sink.put (v.text ++ "\n") := by
    rw [hspell, h.put_put]
  cases v with
  | str text => exact h.put_put text "\n"
  | _ => exact hspelled

theorem Unfailing.writeLines_eq (h : sink.Unfailing) (vs : List Value) :
    sink.writeLines vs = sink.put (Value.lines vs) := by
  induction vs generalizing sink with
  | nil => exact h.put_empty.symm
  | cons v vs ih =>
    have hfirst : sink.writeLines (v :: vs) = (sink.writeLine v).writeLines vs := rfl
    rw [hfirst, ih (h.writeLine v), h.writeLine_eq, h.put_put, Value.lines, Value.lines, List.map_cons,
      String.join_cons]

theorem Unfailing.bytes_put (h : sink.Unfailing) (piece : String) :
    (sink.put piece).bytes = sink.bytes ++ piece.toList.flatMap String.utf8EncodeChar := by
  rw [h.put_eq, bytes, bytes, h.unbroken, String.toList_append, List.flatMap_append,
    Option.getD_none, List.append_nil, List.append_nil]

/-! ## Sinks that may fail -/

/-- The sink with the same text that takes everything. -/
def whole (sink : Sink) : Sink := ⟨sink.text, everything, none⟩

theorem unfailing_whole (sink : Sink) : sink.whole.Unfailing := ⟨rfl, rfl⟩

theorem bytes_whole (h : sink.broken = none) : sink.whole.bytes = sink.bytes := by
  rw [bytes, bytes, h]
  rfl

/-- What fits of a piece is its beginning, byte by byte. -/
theorem beginning_cut (room : Nat) (cs : List Char) :
    (cut room cs).1.flatMap String.utf8EncodeChar ++ (cut room cs).2 <+:
      cs.flatMap String.utf8EncodeChar := by
  induction cs generalizing room with
  | nil => exact List.prefix_refl _
  | cons c cs ih =>
    unfold cut
    split
    · rw [List.flatMap_cons, List.flatMap_cons, List.append_assoc]
      exact (List.prefix_append_right_inj _).mpr (ih (room - c.utf8Size))
    · rw [List.flatMap_cons]
      exact (List.take_prefix _ _).trans (List.prefix_append _ _)

theorem put_of_broken {torn : List UInt8} (h : sink.broken = some torn) (piece : String) :
    sink.put piece = sink := by
  unfold put
  rw [h]

/-- A first write is complete, or it fails and leaves the beginning of its piece behind. -/
theorem put_cases (h : sink.broken = none) (piece : String) :
    ((sink.put piece).broken = none ∧ (sink.put piece).whole = sink.whole.put piece) ∨
      (sink.put piece).broken ≠ none ∧ (sink.put piece).bytes <+: (sink.whole.put piece).bytes := by
  have hheld : sink.bytes = sink.text.toList.flatMap String.utf8EncodeChar := by
    rw [bytes, h, Option.getD_none, List.append_nil]
  rw [sink.unfailing_whole.bytes_put, bytes_whole h, hheld, sink.unfailing_whole.put_eq]
  unfold put
  rw [h]
  dsimp only
  split
  · exact .inl ⟨rfl, rfl⟩
  · refine .inr ⟨nofun, ?_⟩
    rw [bytes, String.toList_append, String.toList_ofList, List.flatMap_append, List.append_assoc]
    exact (List.prefix_append_right_inj _).mpr (beginning_cut _ _)

/-- The first sink was written to like the second one, which takes everything. -/
structure Cuts (short full : Sink) : Prop where
  unfailing : full.Unfailing
  same : short.broken = none → full = short.whole
  beginning : short.bytes <+: full.bytes

theorem cuts_whole (h : sink.broken = none) : sink.Cuts sink.whole where
  unfailing := sink.unfailing_whole
  same _ := rfl
  beginning := ⟨[], by rw [bytes_whole h, List.append_nil]⟩

theorem Cuts.put (h : short.Cuts full) (piece : String) :
    (short.put piece).Cuts (full.put piece) := by
  have hfull := h.unfailing.put piece
  -- once it is broken the sink keeps what it has, and the other one only grows
  cases hbroken : short.broken with
  | some torn =>
    have hgrown := h.beginning.trans (List.prefix_append _ (piece.toList.flatMap String.utf8EncodeChar))
    rw [put_of_broken hbroken]
    rw [← h.unfailing.bytes_put piece] at hgrown
    exact ⟨hfull, fun hunbroken => absurd (hbroken.symm.trans hunbroken) nofun, hgrown⟩
  | none =>
    obtain rfl := h.same hbroken
    rcases put_cases hbroken piece with ⟨hunbroken, hsame⟩ | ⟨hfailed, hbeginning⟩
    · rw [← hsame]
      exact cuts_whole hunbroken
    · exact ⟨hfull, fun hunbroken => absurd hunbroken hfailed, hbeginning⟩

theorem Cuts.writeLine (h : short.Cuts full) (v : Value) :
    (short.writeLine v).Cuts (full.writeLine v) :=
  writeLine_rel Cuts (fun piece hcuts => hcuts.put piece) h v

end Sink

end MiniLisp
