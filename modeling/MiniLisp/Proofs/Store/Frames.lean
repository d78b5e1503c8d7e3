import MiniLisp.Eval

/-!
# Reading frames

What the frames, parents and bindings of a store are after each operation on it, which frames a scope
consists of, and on what looking a name up depends.
-/

namespace MiniLisp

/-! ## Entries -/

namespace Bindings

variable {α : Type}

/-- The last entry of a name wins. -/
theorem get?_insertAll (b : Bindings α) (entries : List (String × α)) (x : String) :
    (b.insertAll entries).get? x = (entries.reverse.lookup x).or (b.get? x) := by
  induction entries generalizing b with
  | nil => rfl
  | cons entry rest ih =>
    obtain ⟨y, w⟩ := entry
    have hrest : (b.insertAll ((y, w) :: rest)).get? x = ((b.insert y w).insertAll rest).get? x := rfl
    rw [hrest, ih, get?_insert, List.reverse_cons, List.lookup_append, Option.or_assoc]
    by_cases hxy : x = y
    · simp [hxy]
    · simp [hxy, List.lookup_cons, beq_eq_false_iff_ne.mpr hxy]

theorem get?_ofList (entries : List (String × α)) (x : String) :
    (ofList entries).get? x = entries.reverse.lookup x := by
  rw [ofList, get?_insertAll, get?_empty, Option.or_none]

/-- Among entries of distinct names every entry is found. -/
theorem lookup_of_mem {entries : List (String × α)} (h : (entries.map (·.1)).Nodup) {x : String}
    {v : α} (hmem : (x, v) ∈ entries) : entries.lookup x = some v := by
  induction entries with
  | nil => cases hmem
  | cons entry rest ih =>
    obtain ⟨hfresh, hrest⟩ := List.nodup_cons.mp h
    rcases List.mem_cons.mp hmem with rfl | hmem
    · exact List.lookup_cons_self
    · have hne : x ≠ entry.1 := by
        rintro rfl
        exact hfresh (List.mem_map.mpr ⟨_, hmem, rfl⟩)
      rw [List.lookup_cons, beq_eq_false_iff_ne.mpr hne]
      exact ih hrest hmem

theorem mem_of_lookup {entries : List (String × α)} {x : String} {v : α}
    (h : entries.lookup x = some v) : (x, v) ∈ entries := by
  obtain ⟨before, after, rfl, _⟩ := List.lookup_eq_some_iff.mp h
  exact List.mem_append_right _ List.mem_cons_self

/-- What a list of entries binds stands among them. -/
theorem mem_of_get?_ofList {entries : List (String × α)} {x : String} {v : α}
    (h : (ofList entries).get? x = some v) : (x, v) ∈ entries := by
  rw [get?_ofList] at h
  exact List.mem_reverse.mp (mem_of_lookup h)

end Bindings

/-- A parameter is bound to an argument or, without one, to the unspecified value. -/
theorem mem_bindArguments {parameters : List String} {args : List Value} {x : String} {v : Value}
    (h : (x, v) ∈ bindArguments parameters args) : v ∈ args ∨ v = .unspecified := by
  induction parameters generalizing args with
  | nil => cases h
  | cons p ps ih =>
    cases args with
    | nil =>
      rcases List.mem_cons.mp h with heq | h
      · exact .inr (Prod.ext_iff.mp heq).2
      · rcases ih h with hmem | hv
        · cases hmem
        · exact .inr hv
    | cons w ws =>
      rcases List.mem_cons.mp h with heq | h
      · obtain rfl : v = w := (Prod.ext_iff.mp heq).2
        exact .inl List.mem_cons_self
      · rcases ih h with hmem | hv
        · exact .inl (List.mem_cons_of_mem w hmem)
        · exact .inr hv

/-- The names that a call binds are parameters. -/
theorem name_mem_of_mem_bindArguments {parameters : List String} {args : List Value}
    {entry : String × Value} (h : entry ∈ bindArguments parameters args) : entry.1 ∈ parameters := by
  induction parameters generalizing args with
  | nil => cases h
  | cons p ps ih =>
    cases args with
    | nil =>
      rcases List.mem_cons.mp h with rfl | h
      · exact List.mem_cons_self
      · exact List.mem_cons_of_mem p (ih h)
    | cons w ws =>
      rcases List.mem_cons.mp h with rfl | h
      · exact List.mem_cons_self
      · exact List.mem_cons_of_mem p (ih h)

namespace Store

variable {σ τ : Store} {f g p : FrameId} {x y : String} {v : Value}

/-- A frame binds a name to a value. -/
def Binds (σ : Store) (f : FrameId) (x : String) (v : Value) : Prop :=
  (σ.localBindings f).get? x = some v

theorem localBindings_congr (h : τ.frames[f]? = σ.frames[f]?) :
    τ.localBindings f = σ.localBindings f := by
  unfold localBindings
  rw [h]

theorem parent?_congr (h : τ.frames[f]? = σ.frames[f]?) : τ.parent? f = σ.parent? f := by
  unfold parent?
  rw [h]

/-! ## Frames after a step -/

@[simp] theorem size_define : (σ.define f x v).frames.size = σ.frames.size :=
  Array.size_modify

theorem frames_define :
    (σ.define f x v).frames[g]? =
      if f = g then σ.frames[g]?.map fun frame =>
        { frame with bindings := frame.bindings.insert x v }
      else σ.frames[g]? :=
  Array.getElem?_modify

@[simp] theorem parent?_define : (σ.define f x v).parent? g = σ.parent? g := by
  unfold parent?
  rw [frames_define]
  split
  · cases σ.frames[g]? <;> rfl
  · rfl

theorem localBindings_define_ne (h : f ≠ g) :
    (σ.define f x v).localBindings g = σ.localBindings g :=
  localBindings_congr (by rw [frames_define, if_neg h])

theorem localBindings_define_self (h : f < σ.frames.size) :
    (σ.define f x v).localBindings f = (σ.localBindings f).insert x v := by
  unfold localBindings
  rw [frames_define, if_pos rfl, Array.getElem?_eq_getElem h]
  rfl

/-- Definitions in frames that do not exist are lost. -/
theorem define_of_size_le (h : σ.frames.size ≤ f) : σ.define f x v = σ := by
  have hframes : (σ.define f x v).frames = σ.frames := by
    refine Array.ext_getElem? fun g => ?_
    rw [frames_define]
    split
    · rename_i hfg
      rw [← hfg, Array.getElem?_eq_none h]
      rfl
    · rfl
  calc σ.define f x v = { σ with frames := (σ.define f x v).frames } := rfl
    _ = σ := by rw [hframes]

/-- After a definition a frame binds what it bound before, or it is the frame of the definition and
binds the new value. -/
theorem Binds.of_define {w : Value} (h : (σ.define f x v).Binds g y w) :
    (f = g ∧ y = x ∧ w = v) ∨ σ.Binds g y w := by
  unfold Binds at *
  by_cases hfg : f = g
  · subst hfg
    by_cases hf : f < σ.frames.size
    · rw [localBindings_define_self hf, Bindings.get?_insert] at h
      split at h
      · rename_i hyx
        exact .inl ⟨rfl, hyx, (Option.some.inj h).symm⟩
      · exact .inr h
    · rw [define_of_size_le (Nat.le_of_not_lt hf)] at h
      exact .inr h
  · rw [localBindings_define_ne hfg] at h
    exact .inr h

/-- Only the defined name changes, and only in the frame of the definition. -/
theorem get?_define_of_ne (h : ¬ (f = g ∧ y = x)) :
    ((σ.define f x v).localBindings g).get? y = (σ.localBindings g).get? y := by
  by_cases hfg : f = g
  · subst hfg
    have hyx : y ≠ x := fun hyx => h ⟨rfl, hyx⟩
    by_cases hf : f < σ.frames.size
    · rw [localBindings_define_self hf, Bindings.get?_insert, if_neg hyx]
    · rw [define_of_size_le (Nat.le_of_not_lt hf)]
  · rw [localBindings_define_ne hfg]

/-- A definition keeps every name bound. -/
theorem Binds.define {w : Value} (h : σ.Binds g y w) : ∃ w', (σ.define f x v).Binds g y w' := by
  by_cases hsame : f = g ∧ y = x
  · obtain ⟨rfl, rfl⟩ := hsame
    by_cases hf : f < σ.frames.size
    · refine ⟨v, ?_⟩
      unfold Binds
      rw [localBindings_define_self hf, Bindings.get?_insert, if_pos rfl]
    · rw [define_of_size_le (Nat.le_of_not_lt hf)]
      exact ⟨w, h⟩
  · refine ⟨w, ?_⟩
    unfold Binds
    rw [get?_define_of_ne hsame]
    exact h

section addFrame

variable {entries : List (String × Value)} {parent : Option FrameId}

theorem frames_addFrame :
    (σ.addFrame parent entries).2.frames[g]? =
      if g = σ.frames.size then some ⟨parent, .ofList entries⟩ else σ.frames[g]? :=
  Array.getElem?_push

@[simp] theorem size_addFrame : (σ.addFrame parent entries).2.frames.size = σ.frames.size + 1 :=
  Array.size_push _

theorem frames_addFrame_of_lt (h : g < σ.frames.size) :
    (σ.addFrame parent entries).2.frames[g]? = σ.frames[g]? := by
  rw [frames_addFrame, if_neg (Nat.ne_of_lt h)]

theorem parent?_addFrame :
    (σ.addFrame parent entries).2.parent? g =
      if g = σ.frames.size then parent else σ.parent? g := by
  unfold parent?
  rw [frames_addFrame]
  split <;> rfl

theorem localBindings_addFrame :
    (σ.addFrame parent entries).2.localBindings g =
      if g = σ.frames.size then .ofList entries else σ.localBindings g := by
  unfold localBindings
  rw [frames_addFrame]
  by_cases hg : g = σ.frames.size
  · rw [if_pos hg, if_pos hg]
  · rw [if_neg hg, if_neg hg]

/-- After a frame was made, what is bound is one of its entries or was bound before. -/
theorem Binds.of_addFrame (h : (σ.addFrame parent entries).2.Binds g x v) :
    (x, v) ∈ entries ∨ σ.Binds g x v := by
  rw [Binds, localBindings_addFrame] at h
  split at h
  · exact .inl (Bindings.mem_of_get?_ofList h)
  · exact .inr h

end addFrame

theorem closures_addClosure {c : Closure} {id : ClosureId} :
    (σ.addClosure c).2.closures[id]? = if id = σ.closures.size then some c else σ.closures[id]? :=
  Array.getElem?_push

/-- After a closure was made, a closure is the new one or was made before. -/
theorem closure_of_addClosure {c d : Closure} {id : ClosureId}
    (h : (σ.addClosure c).2.closures[id]? = some d) : d = c ∨ σ.closures[id]? = some d := by
  rw [closures_addClosure] at h
  split at h
  · exact .inl (Option.some.inj h).symm
  · exact .inr h

/-! ## Scopes -/

theorem chain_eq (σ : Store) (f : FrameId) :
    σ.chain f =
      if f < σ.frames.size then
        f :: match σ.parent? f with
          | some p => if p < f then σ.chain p else []
          | none => []
      else [] := by
  rw [chain]
  unfold parent?
  by_cases hf : f < σ.frames.size
  · rw [if_pos hf, Array.getElem?_eq_getElem hf]
    dsimp only [Option.bind_some]
    cases σ.frames[f].parent with
    | none => rfl
    | some p => exact (apply_ite (f :: ·) (p < f) (σ.chain p) []).symm
  · rw [if_neg hf, Array.getElem?_eq_none (Nat.le_of_not_lt hf)]

/-- A set of frames that holds the parents of its frames holds the whole scopes of its frames. -/
theorem chain_subset {P : FrameId → Prop} (hparent : ∀ f p, P f → σ.parent? f = some p → P p)
    (hf : P f) : ∀ g ∈ σ.chain f, P g := by
  intro g hg
  induction f using Nat.strongRecOn with
  | ind f ih =>
    rw [chain_eq] at hg
    split at hg
    · rcases List.mem_cons.mp hg with rfl | hg
      · exact hf
      · split at hg
        · rename_i p hp
          split at hg
          · rename_i hlt
            exact ih p hlt (hparent f p hf hp) hg
          · cases hg
        · cases hg
    · cases hg

/-- Scopes are made of parent links alone. -/
theorem chain_congr (hsize : τ.frames.size = σ.frames.size) (hparent : ∀ f, τ.parent? f = σ.parent? f)
    (f : FrameId) : τ.chain f = σ.chain f := by
  induction f using Nat.strongRecOn with
  | ind f ih =>
    rw [chain_eq, chain_eq, hsize, hparent f]
    cases σ.parent? f with
    | none => rfl
    | some p =>
      dsimp only
      by_cases hlt : p < f
      · rw [ih p hlt]
      · rw [if_neg hlt, if_neg hlt]

theorem exists_binds_of_lookup? (h : σ.lookup? f x = some v) : ∃ g ∈ σ.chain f, σ.Binds g x v :=
  List.exists_of_findSome?_eq_some h

theorem exists_binds_of_home? (h : σ.home? f x = some g) : g ∈ σ.chain f ∧ ∃ v, σ.Binds g x v := by
  have hbound := List.find?_some (p := fun g => ((σ.localBindings g).get? x).isSome) h
  exact ⟨List.mem_of_find?_eq_some h, Option.isSome_iff_exists.mp hbound⟩

/-- A value is looked up in the frames of the scope alone. -/
theorem lookup?_congr (hchain : τ.chain f = σ.chain f)
    (hbindings : ∀ g ∈ σ.chain f, τ.localBindings g = σ.localBindings g) :
    τ.lookup? f x = σ.lookup? f x := by
  unfold lookup?
  rw [hchain]
  generalize σ.chain f = frames at hbindings
  induction frames with
  | nil => rfl
  | cons g rest ih =>
    rw [List.findSome?_cons, List.findSome?_cons, hbindings g List.mem_cons_self]
    rw [ih fun g' hg' => hbindings g' (List.mem_cons_of_mem g hg')]

theorem lookup?_of_frames (h : τ.frames = σ.frames) (f : FrameId) (x : String) :
    τ.lookup? f x = σ.lookup? f x := by
  have hchain : τ.chain f = σ.chain f :=
    chain_congr (by rw [h]) (fun g => parent?_congr (by rw [h])) f
  exact lookup?_congr hchain fun g _ => localBindings_congr (by rw [h])

/-- The frame of a name is found in the frames of the scope alone. -/
theorem home?_congr (hchain : τ.chain f = σ.chain f)
    (hbindings : ∀ g ∈ σ.chain f, τ.localBindings g = σ.localBindings g) :
    τ.home? f x = σ.home? f x := by
  unfold home?
  rw [hchain]
  generalize σ.chain f = frames at hbindings
  induction frames with
  | nil => rfl
  | cons g rest ih =>
    rw [List.find?_cons, List.find?_cons, hbindings g List.mem_cons_self]
    rw [ih fun g' hg' => hbindings g' (List.mem_cons_of_mem g hg')]

/-- An assignment changes nothing, or it defines a name in a frame of the scope that binds it. -/
theorem assign_cases (σ : Store) (f : FrameId) (x : String) (v : Value) :
    (σ.assign f x v).2 = σ ∨
      ∃ g ∈ σ.chain f, (∃ w, σ.Binds g x w) ∧ (σ.assign f x v).2 = σ.define g x v := by
  unfold assign
  split
  · rename_i g hg
    obtain ⟨hmem, hbound⟩ := exists_binds_of_home? hg
    exact .inr ⟨g, hmem, hbound, rfl⟩
  · exact .inl rfl

/-- An assignment binds no name anew and unbinds none. -/
theorem exists_binds_assign (σ : Store) (f : FrameId) (x : String) (v : Value) (g : FrameId)
    (y : String) : (∃ w, (σ.assign f x v).2.Binds g y w) ↔ ∃ w, σ.Binds g y w := by
  rcases σ.assign_cases f x v with hsame | ⟨home, _, hbound, hdefine⟩
  · rw [hsame]
  · rw [hdefine]
    constructor
    · rintro ⟨w, hw⟩
      rcases hw.of_define with ⟨rfl, rfl, rfl⟩ | hw
      · exact hbound
      · exact ⟨w, hw⟩
    · rintro ⟨w, hw⟩
      exact hw.define

end Store

end MiniLisp
