import MiniLisp.Proofs.Session.Heap
import MiniLisp.Proofs.Session.Visits
import MiniLisp.Proofs.Store.Listing
import MiniLisp.Proofs.Text.ByteOrder

/-!
# The scopes of a session

In every store to which a session comes parents are older than their children, so that a scope is
searched frame by frame up to one without parent.  Hence it is known from which scopes a write is seen
(`Session.writes_observed`), and the listing of a scope agrees with what is looked up in it
(`Session.listing_agrees`).
-/

namespace MiniLisp

namespace Session

variable {host : Host} {steps : List Step} {σ : Store} {given : Value → Prop}

theorem parentsOlder_of_comes
    (hcomes : (host.session.reportAll steps).2.Comes (host.session.reportAll steps).1 σ given) :
    σ.ParentsOlder := by
  obtain ⟨⟨hheap, _⟩, _, _⟩ := HostInvariant.comes host.holds_heap steps hcomes
  exact hheap.parent

/-- Wherever a session comes to, an assignment from scope `f` answers whether its name is visible there,
and changes nothing if it is not.  If it is, the assigned value is what scope `g` finds if the search for
the name ends in the same frame from both scopes.  A definition in the frame of scope `f` is what scope
`g` finds if its search comes to this frame and past no frame that binds the name.  Everything else that
is looked up, in any scope, is as it was before. -/
theorem writes_observed
    (hcomes : (host.session.reportAll steps).2.Comes (host.session.reportAll steps).1 σ given)
    (f g : FrameId) (x y : String) (v : Value) :
    let assigned := σ.assign f x v
    let defined := σ.define f x v
    let sharesHome := ∃ home, σ.Nearest x f home ∧ σ.Nearest x g home
    (assigned.1 = true ↔ σ.contains f x = true) ∧
    (assigned.1 = false → assigned.2 = σ) ∧
    (assigned.1 = true →
      (y = x ∧ sharesHome → (lookupName g y assigned.2).1 = .ok v) ∧
      (¬ (y = x ∧ sharesHome) → (lookupName g y assigned.2).1 = (lookupName g y σ).1)) ∧
    (y = x ∧ σ.Seeks x g f → (lookupName g y defined).1 = .ok v) ∧
    (¬ (y = x ∧ σ.Seeks x g f) → (lookupName g y defined).1 = (lookupName g y σ).1) := by
  intro assigned defined sharesHome
  have hσ := parentsOlder_of_comes hcomes
  have hanswer : assigned.1 = σ.contains f x := σ.assign_eq_contains f x v
  refine ⟨by rw [hanswer], ?_, ?_, ?_, ?_⟩
  · intro hfailed
    rw [hanswer] at hfailed
    exact congrArg Prod.snd (Store.assign_of_not_contains hfailed)
  · intro hdone
    rw [hanswer] at hdone
    obtain ⟨home, hhome⟩ := Store.exists_nearest hσ hdone
    -- an assignment is a definition in the home of the name, so both parts are about definitions
    have hassigned : assigned.2 = σ.define home x v :=
      congrArg Prod.snd (Store.assign_of_nearest hσ hhome)
    rw [hassigned, Store.lookupName_eq_ok_iff]
    constructor
    · rintro ⟨rfl, home', hf, hg⟩
      obtain rfl := hhome.unique hσ hf
      exact Store.lookup?_define_of_seeks hσ hg.seeks
    · intro hunseen
      -- a scope that seeks as far as the home without finding the name shares that home
      have hhidden : ¬ (y = x ∧ σ.Seeks x g home) :=
        fun ⟨hyx, hseeks⟩ => hunseen ⟨hyx, home, hhome, hseeks, hhome.binds⟩
      rw [Store.lookupName_fst, Store.lookupName_fst, Store.lookup?_define_of_not_seeks hσ hhidden]
  · rintro ⟨rfl, hseeks⟩
    exact Store.lookupName_eq_ok_iff.mpr (Store.lookup?_define_of_seeks hσ hseeks)
  · intro hhidden
    rw [Store.lookupName_fst, Store.lookupName_fst, Store.lookup?_define_of_not_seeks hσ hhidden]

/-- Two scopes, one inside the other, and the root scope around both, which binds the name too: an
assignment from the inner one is seen from the outer one and not from the root scope. -/
theorem writes_observed_nested :
    let host : Host := ⟨⟨20, 5⟩, .registered [], .unlimited, false⟩
    let steps := [Step.childScope 0, .childScope 1, .define 0 "x" (.str "a"), .define 1 "x" (.str "b")]
    let s := (host.session.reportAll steps).2
    let τ := (s.store.assign 2 "x" (.str "c")).2
    s.Comes (host.session.reportAll steps).1 s.store (Shown (host.session.reportAll steps).1) ∧
      (s.store.assign 2 "x" (.str "c")).1 = true ∧ s.store.Nearest "x" 2 1 ∧
      (lookupName 1 "x" τ).1 = .ok (.str "c") ∧ (lookupName 0 "x" τ).1 = .ok (.str "a") := by
  intro host steps
  have hobserved := @writes_observed host steps _ _ .between 2
  have hσ := @parentsOlder_of_comes host steps _ _ .between
  have hinner : (host.session.reportAll steps).2.store.home? 2 "x" = some 1 := by
    decide +kernel
  have houter : (host.session.reportAll steps).2.store.home? 1 "x" = some 1 := by
    decide +kernel
  have hroot : (host.session.reportAll steps).2.store.home? 0 "x" = some 0 := by
    decide +kernel
  have hbefore : (host.session.reportAll steps).2.store.lookup? 0 "x" = some (.str "a") :=
    Store.Binds.lookup? rfl
  have hcontains : (host.session.reportAll steps).2.store.contains 2 "x" = true := by
    decide +kernel
  -- how the steps have come to this does not matter any more
  generalize host.session.reportAll steps = outcome at *
  intro s τ
  rw [Store.home?_eq_some_iff hσ] at hinner houter hroot
  have hdone := (hobserved 0 "x" "x" (.str "c")).1.mpr hcontains
  have hseen := ((hobserved 1 "x" "x" (.str "c")).2.2.1 hdone).1 ⟨rfl, 1, hinner, houter⟩
  have hapart : ¬ ("x" = "x" ∧ ∃ home, s.store.Nearest "x" 2 home ∧ s.store.Nearest "x" 0 home) := by
    rintro ⟨_, home, hf, hg⟩
    obtain rfl := hinner.unique hσ hf
    exact absurd (hroot.unique hσ hg) (by decide)
  have hunseen := ((hobserved 0 "x" "x" (.str "c")).2.2.1 hdone).2 hapart
  refine ⟨.between, hdone, hinner, hseen, ?_⟩
  rw [hunseen]
  exact Store.lookupName_eq_ok_iff.mpr hbefore

/-- Wherever a session comes to, a name is visible in a scope if it can be looked up there, and if it is
listed; the value that is listed is the one that is looked up.  The listing is in strictly ascending order
of the bytes of the names, and so is that of the innermost frame, which is the part of the listing whose
names are found in this frame.  The listing is this part laid over the listing of the scope around it. -/
theorem listing_agrees
    (hcomes : (host.session.reportAll steps).2.Comes (host.session.reportAll steps).1 σ given)
    (f : FrameId) :
    let all := σ.allBindings f
    let own := σ.localBindings f
    (∀ x, (σ.contains f x = true ↔ ∃ v, (lookupName f x σ).1 = .ok v) ∧
      (σ.contains f x = true ↔ x ∈ all.names) ∧
      ∀ v, (x, v) ∈ all.entries ↔ (lookupName f x σ).1 = .ok v) ∧
    (all.entries.Pairwise fun a b => Text.utf8 a.1 < Text.utf8 b.1) ∧
    (own.entries.Pairwise fun a b => Text.utf8 a.1 < Text.utf8 b.1) ∧
    (own.entries = all.entries.filter fun entry => σ.home? f entry.1 = some f) ∧
    ∀ x v, (x, v) ∈ all.entries ↔ (x, v) ∈ own.entries ∨
      x ∉ own.names ∧ ∃ p, σ.parent? f = some p ∧ (x, v) ∈ (σ.allBindings p).entries := by
  intro all own
  have hσ := parentsOlder_of_comes hcomes
  refine ⟨fun x => ⟨?_, ?_, fun v => ?_⟩, ?_, ?_, ?_, fun x v => ?_⟩
  · simp only [Store.lookupName_eq_ok_iff]
    rw [Store.contains_eq_isSome_lookup?, Option.isSome_iff_exists]
  · rw [Bindings.mem_names_iff, Store.get?_allBindings hσ, Store.contains_eq_isSome_lookup?]
  · rw [Bindings.mem_entries_iff, Store.get?_allBindings hσ, Store.lookupName_eq_ok_iff]
  · exact all.ascending.imp Text.utf8_lt_utf8
  · exact own.ascending.imp Text.utf8_lt_utf8
  · exact Store.entries_localBindings hσ f
  · exact Store.mem_allBindings_iff hσ

/-- A scope inside the root scope that binds a name of its own and one that the root scope binds too. -/
theorem listing_agrees_nested :
    let host : Host := ⟨⟨20, 5⟩, .registered [], .unlimited, false⟩
    let steps := [Step.childScope 0, .define 0 "é" (.str "a"), .define 1 "é" (.str "b"),
      .define 1 "z" (.str "c")]
    let s := (host.session.reportAll steps).2
    s.Comes (host.session.reportAll steps).1 s.store (Shown (host.session.reportAll steps).1) ∧
      (s.store.localBindings 1).entries = [("z", .str "c"), ("é", .str "b")] ∧
      ("é", .str "b") ∈ (s.store.allBindings 1).entries ∧
      ("é", .str "a") ∉ (s.store.allBindings 1).entries ∧ "log" ∈ (s.store.allBindings 1).names := by
  intro host steps
  have hagrees := (@listing_agrees host steps _ _ .between 1).1
  have hown : ((host.session.reportAll steps).2.store.localBindings 1).entries =
      [("z", .str "c"), ("é", .str "b")] := rfl
  have hfound : (host.session.reportAll steps).2.store.lookup? 1 "é" = some (.str "b") :=
    Store.Binds.lookup? rfl
  have hlog : (host.session.reportAll steps).2.store.contains 1 "log" = true := by
    decide +kernel
  -- how the steps have come to this does not matter any more
  generalize host.session.reportAll steps = outcome at *
  intro s
  have hlisted := (hagrees "é").2.2
  refine ⟨.between, hown, ?_, ?_, (hagrees "log").2.1.mp hlog⟩
  · exact (hlisted _).mpr (Store.lookupName_eq_ok_iff.mpr hfound)
  · intro hmem
    have hother := Store.lookupName_eq_ok_iff.mp ((hlisted _).mp hmem)
    rw [hfound] at hother
    exact absurd (Value.str.inj (Option.some.inj hother)) (by decide)

end Session

end MiniLisp
