/-!
# Finite maps from names

Bindings are kept in ascending order of their names, each name once, so listing them in order needs
no sorting and equal bindings are equal lists.  Names are ordered by code point, which is the order
of their UTF-8 bytes.
-/

namespace MiniLisp

/-- A finite map from names to `α`, in order of the names. -/
structure Bindings (α : Type) where
  entries : List (String × α)
  ascending : entries.Pairwise fun a b => a.1 < b.1

namespace Bindings

variable {α : Type}

/-! ## Operations -/

/-- No name is bound. -/
def empty : Bindings α := ⟨[], .nil⟩

instance : Inhabited (Bindings α) := ⟨empty⟩

/-- What a name is bound to. -/
def get? (b : Bindings α) (name : String) : Option α := b.entries.lookup name

/-- Puts an entry at its place, instead of the entry of the same name if there is one. -/
def insertEntry (name : String) (value : α) : List (String × α) → List (String × α)
  | [] => [(name, value)]
  | (other, old) :: rest =>
    if name < other then (name, value) :: (other, old) :: rest
    else if name = other then (name, value) :: rest
    else (other, old) :: insertEntry name value rest

/-- The names of an insertion are the inserted one and those before it. -/
theorem eq_or_mem_of_mem_insertEntry {name : String} {value : α} {entries : List (String × α)}
    {entry : String × α} (h : entry ∈ insertEntry name value entries) :
    entry = (name, value) ∨ entry ∈ entries := by
  induction entries with
  | nil => simpa [insertEntry] using h
  | cons head rest ih =>
    obtain ⟨other, old⟩ := head
    unfold insertEntry at h
    split at h
    · simpa using h
    · split at h
      · rcases List.mem_cons.1 h with h | h
        · exact .inl h
        · exact .inr (List.mem_cons_of_mem _ h)
      · rcases List.mem_cons.1 h with h | h
        · exact .inr (h ▸ List.mem_cons_self)
        · exact (ih h).imp_right (List.mem_cons_of_mem _)

theorem ascending_insertEntry (name : String) (value : α) {entries : List (String × α)}
    (h : entries.Pairwise fun a b => a.1 < b.1) :
    (insertEntry name value entries).Pairwise fun a b => a.1 < b.1 := by
  induction entries with
  | nil => simp [insertEntry]
  | cons head rest ih =>
    obtain ⟨other, old⟩ := head
    obtain ⟨habove, hrest⟩ := List.pairwise_cons.1 h
    unfold insertEntry
    split
    · rename_i hbelow
      refine List.pairwise_cons.2 ⟨fun entry hentry => ?_, h⟩
      rcases List.mem_cons.1 hentry with rfl | hentry
      · exact hbelow
      · exact String.lt_trans hbelow (habove entry hentry)
    · split
      · rename_i hsame
        subst hsame
        exact List.pairwise_cons.2 ⟨habove, hrest⟩
      · rename_i hnotBelow hnotSame
        refine List.pairwise_cons.2 ⟨fun entry hentry => ?_, ih hrest⟩
        rcases eq_or_mem_of_mem_insertEntry hentry with rfl | hentry
        · rcases Std.lt_trichotomy name other with hlt | heq | hgt
          · exact absurd hlt hnotBelow
          · exact absurd heq hnotSame
          · exact hgt
        · exact habove entry hentry

/-- Binds a name, whatever it was bound to before. -/
def insert (b : Bindings α) (name : String) (value : α) : Bindings α :=
  ⟨insertEntry name value b.entries, ascending_insertEntry name value b.ascending⟩

/-- Binds names one after the other, so the last entry of a name wins. -/
def insertAll (b : Bindings α) (entries : List (String × α)) : Bindings α :=
  entries.foldl (fun b entry => b.insert entry.1 entry.2) b

/-- The bindings of a list of entries, of which the last one of a name wins. -/
def ofList (entries : List (String × α)) : Bindings α := empty.insertAll entries

/-- The bound names, in order. -/
def names (b : Bindings α) : List String := b.entries.map (·.1)

/-- The same names, bound to what a function makes of their values. -/
def map {β : Type} (f : α → β) (b : Bindings α) : Bindings β :=
  ⟨b.entries.map fun entry => (entry.1, f entry.2), List.pairwise_map.2 b.ascending⟩

/-! ## Looking up after an insertion -/

@[simp] theorem get?_empty (name : String) : (empty : Bindings α).get? name = none := rfl

/-- An insertion is seen under its own name and under no other. -/
theorem lookup_insertEntry (name key : String) (value : α) (entries : List (String × α)) :
    (insertEntry name value entries).lookup key =
      if key = name then some value else entries.lookup key := by
  induction entries with
  | nil =>
    by_cases hsame : key = name
    · simp [insertEntry, hsame]
    · simp [insertEntry, List.lookup_cons, hsame, beq_eq_false_iff_ne.2 hsame]
  | cons head rest ih =>
    obtain ⟨other, old⟩ := head
    unfold insertEntry
    split
    · by_cases hsame : key = name
      · simp [hsame]
      · simp [List.lookup_cons, hsame, beq_eq_false_iff_ne.2 hsame]
    · split
      · rename_i hreplaced
        subst hreplaced
        by_cases hsame : key = name
        · simp [hsame]
        · simp [List.lookup_cons, hsame, beq_eq_false_iff_ne.2 hsame]
      · rename_i hapart
        by_cases hfound : key = other
        · subst hfound
          simp [Ne.symm hapart]
        · simp [List.lookup_cons, beq_eq_false_iff_ne.2 hfound, ih]

@[simp] theorem get?_insert (b : Bindings α) (name key : String) (value : α) :
    (b.insert name value).get? key = if key = name then some value else b.get? key :=
  lookup_insertEntry name key value b.entries

@[simp] theorem get?_map {β : Type} (f : α → β) (b : Bindings α) (name : String) :
    (b.map f).get? name = (b.get? name).map f := by
  obtain ⟨entries, hascending⟩ := b
  simp only [map, get?]
  clear hascending
  induction entries with
  | nil => rfl
  | cons head rest ih =>
    obtain ⟨other, value⟩ := head
    by_cases hfound : name = other
    · simp [hfound]
    · simp [List.lookup_cons, beq_eq_false_iff_ne.2 hfound, ih]

end Bindings

end MiniLisp
