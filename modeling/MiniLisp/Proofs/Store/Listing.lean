import Mathlib.Data.List.Sort
import MiniLisp.Proofs.Store.Search

/-!
# Listing a scope

The bindings of a scope are listed by laying those of each frame over those of the frames around it.
The listing has the value that looking up a name finds (`get?_allBindings`), and the part of it that
comes from the innermost frame is the listing of this frame (`entries_localBindings`).
-/

namespace MiniLisp

namespace Bindings

variable {α : Type} {b c : Bindings α} {x : String} {v : α}

/-- No name is bound twice. -/
theorem nodup_names (b : Bindings α) : (b.entries.map (·.1)).Nodup := by
  rw [List.nodup_iff_pairwise_ne, List.pairwise_map]
  refine b.ascending.imp fun {first second} hlt heq => ?_
  rw [heq] at hlt
  exact String.lt_irrefl second.1 hlt

/-- The entries are what is found by their names. -/
theorem mem_entries_iff : (x, v) ∈ b.entries ↔ b.get? x = some v :=
  ⟨lookup_of_mem b.nodup_names, mem_of_lookup⟩

theorem mem_names_iff : x ∈ b.names ↔ (b.get? x).isSome = true := by
  rw [names, List.mem_map, Option.isSome_iff_exists]
  constructor
  · rintro ⟨⟨y, v⟩, hmem, rfl⟩
    exact ⟨v, mem_entries_iff.mp hmem⟩
  · rintro ⟨v, hv⟩
    exact ⟨(x, v), mem_entries_iff.mpr hv, rfl⟩

/-- What is laid over other bindings is found first. -/
theorem get?_insertAll_entries (b c : Bindings α) (x : String) :
    (b.insertAll c.entries).get? x = (c.get? x).or (b.get? x) := by
  have hreverse : c.entries.reverse.lookup x = c.get? x := by
    refine Option.ext fun v => ?_
    rw [← mem_entries_iff, ← List.mem_reverse]
    refine ⟨mem_of_lookup, lookup_of_mem ?_⟩
    rw [List.map_reverse]
    exact List.nodup_reverse.mpr c.nodup_names
  rw [get?_insertAll, hreverse]

/-- Entries in order are told by their members. -/
theorem eq_of_mem_iff {entries entries' : List (String × α)}
    (h : entries.Pairwise fun a b => a.1 < b.1) (h' : entries'.Pairwise fun a b => a.1 < b.1)
    (hmem : ∀ x v, (x, v) ∈ entries ↔ (x, v) ∈ entries') : entries = entries' := by
  -- the order on names is strict, so it leaves one place for each entry
  have hirrefl : Std.Irrefl fun a b : String × α => a.1 < b.1 := ⟨fun a => String.lt_irrefl a.1⟩
  have hantisymm : Std.Antisymm fun a b : String × α => a.1 < b.1 :=
    ⟨fun _ _ hab hba => absurd hba (String.lt_asymm hab)⟩
  exact h.eq_of_mem_iff h' fun entry => hmem entry.1 entry.2

end Bindings

namespace Store

variable {σ : Store} {f : FrameId} {x : String} {v : Value}

/-- The listing of a scope is that of its innermost frame over that of the scope around it. -/
theorem allBindings_eq (hσ : σ.ParentsOlder) (f : FrameId) :
    σ.allBindings f =
      ((σ.parent? f).elim .empty σ.allBindings).insertAll (σ.localBindings f).entries := by
  rw [allBindings]
  by_cases hf : f < σ.frames.size
  · rw [chain_of_lt hσ hf]
    cases σ.parent? f <;> rfl
  · rw [Nat.not_lt] at hf
    rw [chain_of_size_le hf, parent?_of_size_le hf, localBindings_of_size_le hf]
    rfl

/-- What is listed for a name is what looking it up finds. -/
theorem get?_allBindings (hσ : σ.ParentsOlder) (f : FrameId) (x : String) :
    (σ.allBindings f).get? x = σ.lookup? f x := by
  -- on the frame, since its parent is older
  induction f using Nat.strongRecOn with
  | ind f ih =>
    rw [allBindings_eq hσ, Bindings.get?_insertAll_entries, lookup?_eq hσ]
    cases hp : σ.parent? f with
    | none => rfl
    | some p => exact congrArg _ (ih p (hσ f p hp))

/-- The search for a name ends in the innermost frame if this frame binds it. -/
theorem home?_eq_self_iff (hσ : σ.ParentsOlder) :
    σ.home? f x = some f ↔ ((σ.localBindings f).get? x).isSome = true := by
  rw [home?_eq_some_iff hσ, ← binds_iff_isSome]
  constructor
  · exact fun h => h.binds
  · rintro ⟨w, hw⟩
    exact ⟨.here hw.lt_size, w, hw⟩

/-- The bindings of the innermost frame are the part of the listing that comes from this frame. -/
theorem entries_localBindings (hσ : σ.ParentsOlder) (f : FrameId) :
    (σ.localBindings f).entries =
      (σ.allBindings f).entries.filter fun entry => σ.home? f entry.1 = some f := by
  refine Bindings.eq_of_mem_iff (σ.localBindings f).ascending ((σ.allBindings f).ascending.filter _) ?_
  intro x v
  rw [List.mem_filter, decide_eq_true_iff, home?_eq_self_iff hσ, Bindings.mem_entries_iff,
    Bindings.mem_entries_iff, get?_allBindings hσ, lookup?_eq hσ]
  cases (σ.localBindings f).get? x with
  | none => simp
  | some w => simp

/-- An entry of the listing is one of the innermost frame, or one of the scope around it whose name the
innermost frame does not bind. -/
theorem mem_allBindings_iff (hσ : σ.ParentsOlder) :
    (x, v) ∈ (σ.allBindings f).entries ↔ (x, v) ∈ (σ.localBindings f).entries ∨
      x ∉ (σ.localBindings f).names ∧
        ∃ p, σ.parent? f = some p ∧ (x, v) ∈ (σ.allBindings p).entries := by
  simp only [Bindings.mem_entries_iff, Bindings.mem_names_iff, get?_allBindings hσ]
  rw [lookup?_eq hσ, Option.or_eq_some_iff, Option.bind_eq_some_iff, Option.not_isSome_iff_eq_none]

end Store

end MiniLisp
