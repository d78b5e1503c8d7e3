import MiniLisp.Proofs.Store.Heap

/-!
# Searching a scope

A name is searched from the frame of a scope outwards, and the nearest frame that binds it decides.
Many scopes share their outer frames, so a write into one frame may be seen from any of them.
`Store.Seeks` says to which frames a search comes, and `lookup?_define_of_seeks` with
`lookup?_define_of_not_seeks` tell from which scopes a definition is seen.  An assignment is a
definition in the frame where the search for its name ends (`assign_of_nearest`).
-/

namespace MiniLisp.Store

variable {σ : Store} {f g p : FrameId} {x y : String} {v : Value}

/-- Every frame is younger than its parent. -/
def ParentsOlder (σ : Store) : Prop := ∀ f p, σ.parent? f = some p → p < f

theorem ParentsOlder.define (hσ : σ.ParentsOlder) : (σ.define f x v).ParentsOlder := by
  intro g p hp
  rw [parent?_define] at hp
  exact hσ g p hp

/-! ## One frame outwards -/

/-- A scope is its innermost frame and the scope of the parent. -/
theorem chain_of_lt (hσ : σ.ParentsOlder) (hf : f < σ.frames.size) :
    σ.chain f = f :: (σ.parent? f).elim [] σ.chain := by
  rw [chain_eq, if_pos hf]
  cases hp : σ.parent? f with
  | none => rfl
  | some p => exact congrArg (f :: ·) (if_pos (hσ f p hp))

theorem chain_of_size_le (hf : σ.frames.size ≤ f) : σ.chain f = [] := by
  rw [chain_eq, if_neg (Nat.not_lt_of_le hf)]

theorem parent?_of_size_le (hf : σ.frames.size ≤ f) : σ.parent? f = none := by
  rw [parent?, Array.getElem?_eq_none hf]
  rfl

theorem localBindings_of_size_le (hf : σ.frames.size ≤ f) : σ.localBindings f = .empty := by
  rw [localBindings, Array.getElem?_eq_none hf]

/-- What a name is bound to is said by the frame or, if it does not bind the name, by the parent. -/
theorem lookup?_eq (hσ : σ.ParentsOlder) (f : FrameId) (x : String) :
    σ.lookup? f x =
      ((σ.localBindings f).get? x).or ((σ.parent? f).bind fun p => σ.lookup? p x) := by
  rw [lookup?]
  by_cases hf : f < σ.frames.size
  · rw [chain_of_lt hσ hf, List.findSome?_cons]
    cases (σ.localBindings f).get? x with
    | some v => rfl
    | none => cases σ.parent? f <;> rfl
  · rw [Nat.not_lt] at hf
    rw [chain_of_size_le hf, parent?_of_size_le hf, localBindings_of_size_le hf]
    rfl

/-- The nearest frame that binds a name is the frame itself or the nearest one from its parent. -/
theorem home?_eq (hσ : σ.ParentsOlder) (f : FrameId) (x : String) :
    σ.home? f x = if ((σ.localBindings f).get? x).isSome then some f
      else (σ.parent? f).bind fun p => σ.home? p x := by
  rw [home?]
  by_cases hf : f < σ.frames.size
  · rw [chain_of_lt hσ hf, List.find?_cons]
    cases (σ.localBindings f).get? x with
    | some v => rfl
    | none => cases σ.parent? f <;> rfl
  · rw [Nat.not_lt] at hf
    rw [chain_of_size_le hf, parent?_of_size_le hf, localBindings_of_size_le hf]
    rfl

/-- A name is visible if the search for it ends in some frame. -/
theorem contains_eq_isSome_home? (σ : Store) (f : FrameId) (x : String) :
    σ.contains f x = (σ.home? f x).isSome := by
  rw [contains, home?, List.isSome_find?]

/-- A name is visible if it has a value. -/
theorem contains_eq_isSome_lookup? (σ : Store) (f : FrameId) (x : String) :
    σ.contains f x = (σ.lookup? f x).isSome := by
  rw [contains, lookup?, List.isSome_findSome?]

/-- Looking a name up gives its value, or says that there is none. -/
theorem lookupName_fst (f : FrameId) (x : String) (σ : Store) :
    (lookupName f x σ).1 = (σ.lookup? f x).elim (.error (.nameNotFound x)) .ok := by
  unfold lookupName
  cases σ.lookup? f x <;> rfl

theorem lookupName_eq_ok_iff : (lookupName f x σ).1 = .ok v ↔ σ.lookup? f x = some v := by
  rw [lookupName_fst]
  cases σ.lookup? f x with
  | none => exact ⟨nofun, nofun⟩
  | some w => exact ⟨fun h => congrArg some (Except.ok.inj h), fun h => congrArg _ (Option.some.inj h)⟩

/-! ## Searches -/

/-- The search for a name from frame `f` outwards comes to frame `g`: from parent to parent, and past
frames that do not bind the name. -/
inductive Seeks (σ : Store) (x : String) : FrameId → FrameId → Prop
  | here {g : FrameId} (hg : g < σ.frames.size) : Seeks σ x g g
  | outward {f p g : FrameId} (hfree : ∀ w, ¬ σ.Binds f x w) (hp : σ.parent? f = some p)
      (hsought : Seeks σ x p g) : Seeks σ x f g

/-- The search for a name from frame `f` ends in frame `g`, which binds it. -/
structure Nearest (σ : Store) (x : String) (f g : FrameId) : Prop where
  seeks : σ.Seeks x f g
  binds : ∃ w, σ.Binds g x w

theorem binds_iff_isSome : (∃ w, σ.Binds f x w) ↔ ((σ.localBindings f).get? x).isSome = true :=
  Option.isSome_iff_exists.symm

theorem home?_eq_some_iff (hσ : σ.ParentsOlder) : σ.home? f x = some g ↔ σ.Nearest x f g := by
  constructor
  · intro hhome
    -- on the frame, since its parent is older
    induction f using Nat.strongRecOn with
    | ind f ih =>
      rw [home?_eq hσ] at hhome
      by_cases hbound : ((σ.localBindings f).get? x).isSome = true
      · rw [if_pos hbound] at hhome
        obtain rfl := Option.some.inj hhome
        obtain ⟨w, hw⟩ := binds_iff_isSome.mpr hbound
        exact ⟨.here hw.lt_size, w, hw⟩
      · rw [if_neg hbound] at hhome
        obtain ⟨p, hp, hhome⟩ := Option.bind_eq_some_iff.mp hhome
        obtain ⟨hseeks, hbinds⟩ := ih p (hσ f p hp) hhome
        exact ⟨.outward (fun w hw => hbound (binds_iff_isSome.mp ⟨w, hw⟩)) hp hseeks, hbinds⟩
  · rintro ⟨hseeks, hbinds⟩
    induction hseeks with
    | here hg => rw [home?_eq hσ, if_pos (binds_iff_isSome.mp hbinds)]
    | @outward f p g hfree hp _ ih =>
      have hunbound : ¬ ((σ.localBindings f).get? x).isSome = true := by
        intro hbound
        obtain ⟨w, hw⟩ := binds_iff_isSome.mpr hbound
        exact hfree w hw
      rw [home?_eq hσ, if_neg hunbound, hp]
      exact ih hbinds

/-- A search ends in one frame only. -/
theorem Nearest.unique (hσ : σ.ParentsOlder) {g' : FrameId} (h : σ.Nearest x f g)
    (h' : σ.Nearest x f g') : g = g' := by
  have hhome := (home?_eq_some_iff hσ).mpr h
  rw [(home?_eq_some_iff hσ).mpr h'] at hhome
  exact (Option.some.inj hhome).symm

/-! ## Writes -/

theorem lookup?_define_self (hf : f < σ.frames.size) : (σ.define f x v).lookup? f x = some v := by
  refine Binds.lookup? ?_
  rw [Binds, localBindings_define_self hf, Bindings.get?_insert, if_pos rfl]

/-- A definition changes nothing for other names. -/
theorem lookup?_define_of_ne (h : y ≠ x) : (σ.define f x v).lookup? g y = σ.lookup? g y := by
  have hchain : (σ.define f x v).chain g = σ.chain g :=
    chain_congr size_define (fun _ => parent?_define) g
  have hlocal : (fun g => ((σ.define f x v).localBindings g).get? y) =
      fun g => (σ.localBindings g).get? y := funext fun g => get?_define_of_ne fun hsame => h hsame.2
  rw [lookup?, lookup?, hchain, hlocal]

/-- A definition is seen from every scope whose search for the name comes to its frame. -/
theorem lookup?_define_of_seeks (hσ : σ.ParentsOlder) (h : σ.Seeks x g f) :
    (σ.define f x v).lookup? g x = some v := by
  induction h with
  | @here f hf =>
    rw [lookup?_eq hσ.define, localBindings_define_self hf, Bindings.get?_insert, if_pos rfl]
    rfl
  | @outward g p f hfree hp _ ih =>
    by_cases hsame : f = g
    · subst hsame
      rw [lookup?_eq hσ.define, localBindings_define_self (lt_size_of_parent? hp),
        Bindings.get?_insert, if_pos rfl]
      rfl
    · have hnone : (σ.localBindings g).get? x = none := Option.eq_none_iff_forall_ne_some.mpr hfree
      rw [lookup?_eq hσ.define, localBindings_define_ne hsame, hnone, parent?_define, hp]
      exact ih

/-- From every other scope, and for every other name, everything is as before. -/
theorem lookup?_define_of_not_seeks (hσ : σ.ParentsOlder) (h : ¬ (y = x ∧ σ.Seeks x g f)) :
    (σ.define f x v).lookup? g y = σ.lookup? g y := by
  induction g using Nat.strongRecOn with
  | ind g ih =>
    have hlocal : ((σ.define f x v).localBindings g).get? y = (σ.localBindings g).get? y := by
      by_cases hsame : f = g ∧ y = x
      · obtain ⟨rfl, rfl⟩ := hsame
        have hsize : σ.frames.size ≤ f := Nat.le_of_not_lt fun hf => h ⟨rfl, .here hf⟩
        rw [define_of_size_le hsize]
      · exact get?_define_of_ne hsame
    rw [lookup?_eq hσ.define, lookup?_eq hσ, hlocal, parent?_define]
    cases hbound : (σ.localBindings g).get? y with
    | some w => rfl
    | none =>
      cases hp : σ.parent? g with
      | none => rfl
      | some p =>
        refine ih p (hσ g p hp) ?_
        rintro ⟨rfl, hseeks⟩
        exact h ⟨rfl, .outward (Option.eq_none_iff_forall_ne_some.mp hbound) hp hseeks⟩

/-- An assignment defines its name where the search for it ends. -/
theorem assign_of_nearest (hσ : σ.ParentsOlder) (h : σ.Nearest x f g) :
    σ.assign f x v = (true, σ.define g x v) := by
  rw [assign, (home?_eq_some_iff hσ).mpr h]

/-- An assignment succeeds if its name is visible. -/
theorem assign_eq_contains (σ : Store) (f : FrameId) (x : String) (v : Value) :
    (σ.assign f x v).1 = σ.contains f x := by
  rw [contains_eq_isSome_home?, assign]
  cases σ.home? f x <;> rfl

/-- An assignment that does not succeed changes nothing. -/
theorem assign_of_not_contains (h : σ.contains f x = false) : σ.assign f x v = (false, σ) := by
  rw [contains_eq_isSome_home?, Option.isSome_eq_false_iff, Option.isNone_iff_eq_none] at h
  rw [assign, h]

/-- If a name is visible, the search for it ends somewhere. -/
theorem exists_nearest (hσ : σ.ParentsOlder) (h : σ.contains f x = true) :
    ∃ g, σ.Nearest x f g := by
  rw [contains_eq_isSome_home?, Option.isSome_iff_exists] at h
  obtain ⟨g, hg⟩ := h
  exact ⟨g, (home?_eq_some_iff hσ).mp hg⟩

end MiniLisp.Store
