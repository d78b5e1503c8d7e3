import MiniLisp.Proofs.Eval.Reach

/-!
# Well-formed stores

Frames and closures refer to each other by number.  A store is well formed if every number refers to
something that was made, and if the parent of a frame is an older frame.  Then the scope of every frame
is a chain of parent links that ends at a frame without parent (`WellFormed.walks`).  A later store has
the frames, the parent links, the closures and the bound names of an earlier one (`Extends`).
-/

namespace MiniLisp

namespace Store

variable {σ τ υ : Store} {f g p : FrameId} {id : ClosureId} {x : String} {v : Value}
variable {entries : List (String × Value)}

/-- Only frames that were made bind names. -/
theorem Binds.lt_size (h : σ.Binds f x v) : f < σ.frames.size := by
  refine Nat.lt_of_not_le fun hge => ?_
  rw [Binds, localBindings, Array.getElem?_eq_none hge] at h
  cases h

/-- A name that a frame binds is looked up in this frame. -/
theorem Binds.lookup? (h : σ.Binds f x v) : σ.lookup? f x = some v := by
  rw [Store.lookup?, chain_eq, if_pos h.lt_size, List.findSome?_cons, h]

/-- Only frames that were made have a parent. -/
theorem lt_size_of_parent? (h : σ.parent? f = some p) : f < σ.frames.size := by
  refine Nat.lt_of_not_le fun hge => ?_
  rw [parent?, Array.getElem?_eq_none hge] at h
  cases h

/-! ## Later stores -/

/-- The second store is a later one: nothing was removed, no frame got another parent, and every name
that was bound in a frame is bound there. -/
structure Extends (σ τ : Store) : Prop where
  frames : σ.frames.size ≤ τ.frames.size
  parent : ∀ f < σ.frames.size, τ.parent? f = σ.parent? f
  closures : ∀ (id : ClosureId) (c : Closure), σ.closures[id]? = some c → τ.closures[id]? = some c
  kept : ∀ f x v, σ.Binds f x v → ∃ w, τ.Binds f x w

namespace Extends

theorem refl (σ : Store) : σ.Extends σ where
  frames := Nat.le_refl _
  parent _ _ := rfl
  closures _ _ h := h
  kept _ _ v h := ⟨v, h⟩

theorem trans (hfirst : σ.Extends τ) (hrest : τ.Extends υ) : σ.Extends υ where
  frames := Nat.le_trans hfirst.frames hrest.frames
  parent f hf :=
    (hrest.parent f (Nat.lt_of_lt_of_le hf hfirst.frames)).trans (hfirst.parent f hf)
  closures id c h := hrest.closures id c (hfirst.closures id c h)
  kept f x v h := by
    obtain ⟨w, hw⟩ := hfirst.kept f x v h
    exact hrest.kept f x w hw

theorem of_eq (hframes : τ.frames = σ.frames) (hclosures : τ.closures = σ.closures) :
    σ.Extends τ where
  frames := Nat.le_of_eq (by rw [hframes])
  parent f _ := parent?_congr (by rw [hframes])
  closures id c h := by rw [hclosures]; exact h
  kept f x v h := by
    have hsame : τ.frames[f]? = σ.frames[f]? := by rw [hframes]
    refine ⟨v, ?_⟩
    rw [Binds, localBindings_congr hsame]
    exact h

theorem define (σ : Store) (f : FrameId) (x : String) (v : Value) : σ.Extends (σ.define f x v) where
  frames := Nat.le_of_eq size_define.symm
  parent _ _ := parent?_define
  closures _ _ h := h
  kept _ _ _ h := h.define

theorem addClosure (σ : Store) (c : Closure) : σ.Extends (σ.addClosure c).2 where
  frames := Nat.le_refl _
  parent _ _ := rfl
  closures id d h := by
    have hlt : id < σ.closures.size := (Array.getElem?_eq_some_iff.mp h).1
    rw [closures_addClosure, if_neg (Nat.ne_of_lt hlt)]
    exact h
  kept _ _ v h := ⟨v, h⟩

theorem addFrame (σ : Store) (parent : Option FrameId) (entries : List (String × Value)) :
    σ.Extends (σ.addFrame parent entries).2 where
  frames := by simp
  parent f hf := by rw [parent?_addFrame, if_neg (Nat.ne_of_lt hf)]
  closures _ _ h := h
  kept f x v h := by
    refine ⟨v, ?_⟩
    rw [Binds, localBindings_addFrame, if_neg (Nat.ne_of_lt h.lt_size)]
    exact h

end Extends

/-! ## Well-formed stores -/

/-- The closure was made, and so was the frame that it captures. -/
def Made (σ : Store) (id : ClosureId) : Prop :=
  ∃ c : Closure, σ.closures[id]? = some c ∧ c.scope < σ.frames.size

/-- All closures that the value holds were made. -/
def Knows (σ : Store) (v : Value) : Prop := ∀ id, v.Holds id → σ.Made id

theorem Made.mono (hextends : σ.Extends τ) (h : σ.Made id) : τ.Made id := by
  obtain ⟨c, hc, hscope⟩ := h
  exact ⟨c, hextends.closures id c hc, Nat.lt_of_lt_of_le hscope hextends.frames⟩

theorem Knows.mono (hextends : σ.Extends τ) (h : σ.Knows v) : τ.Knows v :=
  fun id hid => (h id hid).mono hextends

theorem Knows.of_plain (hv : v.Plain) : σ.Knows v := fun id hid => absurd hid (hv id)

/-- Everything that the store refers to was made, and a frame is younger than its parent. -/
structure WellFormed (σ : Store) : Prop where
  parent : ∀ f p, σ.parent? f = some p → p < f
  bound : ∀ f x v, σ.Binds f x v → σ.Knows v
  closure : ∀ (id : ClosureId) (c : Closure), σ.closures[id]? = some c → c.scope < σ.frames.size
  analysed : σ.Analysed

namespace WellFormed

theorem made (h : σ.WellFormed) (hid : id < σ.closures.size) : σ.Made id :=
  ⟨σ.closures[id], Array.getElem?_eq_getElem hid, h.closure id _ (Array.getElem?_eq_getElem hid)⟩

/-- The parent of a frame was made. -/
theorem parent_lt_size (h : σ.WellFormed) (hp : σ.parent? f = some p) : p < σ.frames.size :=
  Nat.lt_trans (h.parent f p hp) (lt_size_of_parent? hp)

theorem lookup (h : σ.WellFormed) (hv : σ.lookup? f x = some v) : σ.Knows v := by
  obtain ⟨g, _, hbinds⟩ := exists_binds_of_lookup? hv
  exact h.bound g x v hbinds

theorem congr (h : σ.WellFormed) (hframes : τ.frames = σ.frames) (hclosures : τ.closures = σ.closures) :
    τ.WellFormed := by
  obtain ⟨frames, closures, stamp, sink⟩ := τ
  obtain rfl : frames = σ.frames := hframes
  obtain rfl : closures = σ.closures := hclosures
  exact ⟨h.parent, h.bound, h.closure, h.analysed⟩

theorem define (h : σ.WellFormed) (hv : σ.Knows v) : (σ.define f x v).WellFormed where
  parent g p hp := by
    rw [parent?_define] at hp
    exact h.parent g p hp
  bound g y w hw := by
    have hextends := Extends.define σ f x v
    rcases hw.of_define with ⟨_, _, rfl⟩ | hw
    · exact hv.mono hextends
    · exact (h.bound g y w hw).mono hextends
  closure id c hc := by
    rw [size_define]
    exact h.closure id c hc
  analysed := h.analysed

theorem assign (h : σ.WellFormed) (hv : σ.Knows v) :
    (σ.assign f x v).2.WellFormed ∧ σ.Extends (σ.assign f x v).2 := by
  rcases σ.assign_cases f x v with hsame | ⟨g, _, _, hdefine⟩
  · rw [hsame]
    exact ⟨h, .refl σ⟩
  · rw [hdefine]
    exact ⟨h.define hv, .define σ g x v⟩

theorem addClosure {c : Closure} (h : σ.WellFormed) (hscope : c.scope < σ.frames.size)
    (hbody : c.body.Plain) : (σ.addClosure c).2.WellFormed where
  parent := h.parent
  bound g x v hv := (h.bound g x v hv).mono (.addClosure σ c)
  closure id d hd := by
    rcases closure_of_addClosure hd with rfl | hd
    · exact hscope
    · exact h.closure id d hd
  analysed id d hd := by
    rcases closure_of_addClosure hd with rfl | hd
    · exact hbody
    · exact h.analysed id d hd

theorem addFrame {parent : Option FrameId} (h : σ.WellFormed)
    (hparent : ∀ p, parent = some p → p < σ.frames.size)
    (hentries : ∀ x v, (x, v) ∈ entries → σ.Knows v) : (σ.addFrame parent entries).2.WellFormed where
  parent g p hp := by
    rw [parent?_addFrame] at hp
    split at hp
    · rename_i hnew
      rw [hnew]
      exact hparent p hp
    · exact h.parent g p hp
  bound g x v hv := by
    have hextends := Extends.addFrame σ parent entries
    rcases hv.of_addFrame with hmem | hv
    · exact (hentries x v hmem).mono hextends
    · exact (h.bound g x v hv).mono hextends
  closure id c hc := by
    rw [size_addFrame]
    exact Nat.lt_succ_of_lt (h.closure id c hc)
  analysed := h.analysed

/-- The values of a bundle are known if those that the bundle gives away are. -/
theorem knows_make {bundle : Bundle} (h : σ.WellFormed)
    (hbundle : ∀ entry ∈ bundle, ∀ id, entry.2.Holds id → σ.Made id)
    (hmem : (x, v) ∈ (bundle.make σ).1) : σ.Knows v := by
  intro id hid
  obtain ⟨entry, hentry, hholds | ⟨g, _, name, w, hlookup, hw⟩⟩ := Bundle.holds_make hmem hid
  · exact hbundle entry hentry id hholds
  · exact h.lookup hlookup id hw

end WellFormed

/-! ## Scopes -/

/-- The frames from `f` outwards: each one is the parent of the one before it, and the last one has no
parent. -/
inductive Outward (σ : Store) : FrameId → List FrameId → Prop where
  | last {f : FrameId} (hf : f < σ.frames.size) (hnone : σ.parent? f = none) : Outward σ f [f]
  | inside {f p : FrameId} {frames : List FrameId} (hp : σ.parent? f = some p)
      (h : Outward σ p frames) : Outward σ f (f :: frames)

/-- Names are looked up, assigned and listed along these frames, which are all frames from `f` outwards
to one without parent, none of them twice. -/
structure Walks (σ : Store) (f : FrameId) (frames : List FrameId) : Prop where
  outward : σ.Outward f frames
  descending : frames.Pairwise (· > ·)
  lookup : ∀ x, σ.lookup? f x = frames.findSome? fun g => (σ.localBindings g).get? x
  contains : ∀ x, σ.contains f x = frames.any fun g => ((σ.localBindings g).get? x).isSome
  assign : ∀ x v, σ.assign f x v =
    match frames.find? fun g => ((σ.localBindings g).get? x).isSome with
    | some g => (true, σ.define g x v)
    | none => (false, σ)
  allBindings : σ.allBindings f =
    frames.foldr (fun g outer => outer.insertAll (σ.localBindings g).entries) .empty

/-- A scope goes from younger frames to older ones. -/
theorem chain_descending (σ : Store) (f : FrameId) :
    (σ.chain f).Pairwise (· > ·) ∧ ∀ g ∈ σ.chain f, g ≤ f := by
  induction f using Nat.strongRecOn with
  | ind f ih =>
    rw [chain_eq]
    split
    · cases hp : σ.parent? f with
      | none => simp
      | some p =>
        dsimp only
        split
        · rename_i hlt
          obtain ⟨hpairwise, hle⟩ := ih p hlt
          refine ⟨List.pairwise_cons.mpr ⟨?_, hpairwise⟩, ?_⟩
          · intro g hg
            exact Nat.lt_of_le_of_lt (hle g hg) hlt
          · intro g hg
            rcases List.mem_cons.mp hg with rfl | hg
            · exact Nat.le_refl g
            · exact Nat.le_of_lt (Nat.lt_of_le_of_lt (hle g hg) hlt)
        · simp
    · simp

namespace WellFormed

/-- The scope of a frame reaches a frame without parent. -/
theorem outward_chain (h : σ.WellFormed) (hf : f < σ.frames.size) : σ.Outward f (σ.chain f) := by
  induction f using Nat.strongRecOn with
  | ind f ih =>
    rw [chain_eq, if_pos hf]
    cases hp : σ.parent? f with
    | none => exact .last hf hp
    | some p =>
      have hlt : p < f := h.parent f p hp
      dsimp only
      rw [if_pos hlt]
      exact .inside hp (ih p hlt (h.parent_lt_size hp))

theorem walks (h : σ.WellFormed) (hf : f < σ.frames.size) : σ.Walks f (σ.chain f) where
  outward := h.outward_chain hf
  descending := (σ.chain_descending f).1
  lookup _ := rfl
  contains _ := rfl
  assign _ _ := rfl
  allBindings := rfl

end WellFormed

end Store

end MiniLisp
