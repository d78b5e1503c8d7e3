import Mathlib.Data.List.Induction
import MiniLisp.Cli.Options

/-!
# Command lines that are accepted

Arguments are cut from left to right into the option `--stdlib` with the argument behind it, and single
arguments (`items`).  The first one at fault decides on the error, and a command line without faults says
what its units say (`Options.ofArgs_language`).  Of these the order does not matter, but that of the paths
for the standard unit: the last one counts.
-/

namespace MiniLisp.Cli

/-! ## Units -/

/-- A unit of a command line. -/
inductive Item where
  /-- The option `--stdlib` with the argument behind it. -/
  | stdlib (path : String)
  /-- The option `--stdlib` as the last argument. -/
  | bare
  /-- Any other argument that is no path. -/
  | plain (arg : String)
deriving DecidableEq

/-- The arguments of a unit. -/
def Item.args : Item → List String
  | stdlib path => ["--stdlib", path]
  | bare => ["--stdlib"]
  | plain arg => [arg]

/-- Cuts a command line into its units. -/
def items : List String → List Item
  | [] => []
  | arg :: rest =>
    if arg = "--stdlib" then
      match rest with
      | [] => [.bare]
      | path :: rest => .stdlib path :: items rest
    else .plain arg :: items rest

/-- An argument that names a script. -/
def IsScript (arg : String) : Prop := arg ≠ "-h" ∧ arg ≠ "--help" ∧ ¬ "--".toList <+: arg.toList

instance (arg : String) : Decidable (IsScript arg) :=
  inferInstanceAs (Decidable (_ ∧ _ ∧ _))

/-- The path of a unit for the standard unit. -/
def Item.path? : Item → Option String
  | stdlib path => some path
  | _ => none

/-- The script that a unit names. -/
def Item.script? : Item → Option String
  | plain arg => if IsScript arg then some arg else none
  | _ => none

/-- What is wrong with a unit that stands behind others. -/
inductive Fault (before : List Item) : Item → UsageFault → Prop where
  | help {arg : String} (h : arg = "-h" ∨ arg = "--help") : Fault before (.plain arg) .helpAsked
  | unknown {arg : String} (hdashes : "--".toList <+: arg.toList) (hhelp : arg ≠ "--help")
      (hflag : arg ≠ "--all-forms") : Fault before (.plain arg) (.unknownOption arg)
  | bare : Fault before .bare .pathMissing
  | second {first arg : String} (hfirst : .plain first ∈ before) (hscript : IsScript first)
      (hother : IsScript arg) : Fault before (.plain arg) .secondScript

/-- No unit is at fault. -/
def NoFault (us : List Item) : Prop :=
  ∀ before item after, us = before ++ item :: after → ∀ fault, ¬ Fault before item fault

/-- The first unit at fault has this fault. -/
def FirstFault (us : List Item) (fault : UsageFault) : Prop :=
  ∃ before item after, us = before ++ item :: after ∧ NoFault before ∧ Fault before item fault

/-- What units say together: the last path, whether all forms count, and the script. -/
def Options.ofItems (us : List Item) : Options where
  stdlib := (us.filterMap Item.path?).getLast?
  allForms := .plain "--all-forms" ∈ us
  script := (us.filterMap Item.script?).head?

variable {us before after : List Item} {item : Item} {arg path : String} {args : List String}
variable {fault fault' : UsageFault}

theorem items_stdlib (path : String) (rest : List String) :
    items ("--stdlib" :: path :: rest) = .stdlib path :: items rest := by
  rw [items.eq_def]
  exact if_pos rfl

theorem items_plain (h : arg ≠ "--stdlib") (rest : List String) :
    items (arg :: rest) = .plain arg :: items rest := by
  rw [items.eq_def]
  exact if_neg h

/-- Nothing of a command line is lost in its units. -/
theorem flatMap_items (args : List String) : (items args).flatMap Item.args = args := by
  induction args using items.induct with
  | case1 => rfl
  | case2 => rfl
  | case3 path rest ih =>
    rw [items_stdlib, List.flatMap_cons, ih]
    rfl
  | case4 arg rest harg ih =>
    rw [items_plain harg, List.flatMap_cons, ih]
    rfl

/-! ## Faults -/

theorem isOption_iff : Options.isOption arg = true ↔ "--".toList <+: arg.toList := by
  unfold Options.isOption
  split
  · rename_i rest h
    rw [h]
    exact iff_of_true rfl (List.prefix_append ['-', '-'] rest)
  · rename_i h
    refine iff_of_false nofun ?_
    rintro ⟨rest, hrest⟩
    exact h rest hrest.symm

theorem IsScript.not_help (h : IsScript arg) : ¬ (arg = "-h" ∨ arg = "--help") :=
  not_or.mpr ⟨h.1, h.2.1⟩

/-- The option `-h` has one dash only. -/
theorem not_help_of_dashes (hdashes : "--".toList <+: arg.toList) (hhelp : arg ≠ "--help") :
    ¬ (arg = "-h" ∨ arg = "--help") := by
  rintro (rfl | rfl)
  · exact absurd hdashes (by decide)
  · exact hhelp rfl

/-- A unit has at most one fault. -/
theorem Fault.unique (h : Fault before item fault) (h' : Fault before item fault') : fault = fault' := by
  cases h with
  | bare => cases h' with
    | bare => rfl
  | help hask => cases h' with
    | help => rfl
    | unknown hdashes hhelp => exact absurd hask (not_help_of_dashes hdashes hhelp)
    | second _ _ hscript => exact absurd hask hscript.not_help
  | unknown hdashes hhelp => cases h' with
    | help hask => exact absurd hask (not_help_of_dashes hdashes hhelp)
    | unknown => rfl
    | second _ _ hscript => exact absurd hdashes hscript.2.2
  | second _ _ hscript => cases h' with
    | help hask => exact absurd hask hscript.not_help
    | unknown hdashes => exact absurd hdashes hscript.2.2
    | second => rfl

theorem noFault_nil : NoFault [] := by
  intro before item after h
  cases before <;> cases h

theorem noFault_concat :
    NoFault (before ++ [item]) ↔ NoFault before ∧ ∀ fault, ¬ Fault before item fault := by
  constructor
  · intro h
    refine ⟨fun front unit back hbefore fault => ?_, h before item [] rfl⟩
    refine h front unit (back ++ [item]) ?_ fault
    rw [hbefore, List.append_assoc, List.cons_append]
  · rintro ⟨hbefore, hitem⟩ front unit back h
    rcases List.eq_nil_or_concat back with rfl | ⟨back, last, rfl⟩
    · obtain ⟨rfl, hunit⟩ := List.append_inj' h rfl
      obtain rfl := List.singleton_inj.mp hunit
      exact hitem
    · rw [List.concat_eq_append, ← List.cons_append, ← List.append_assoc] at h
      exact hbefore front unit back (List.append_inj' h rfl).1

theorem FirstFault.not_noFault (h : FirstFault us fault) : ¬ NoFault us := by
  obtain ⟨before, item, after, hus, -, hfault⟩ := h
  exact fun hnone => hnone before item after hus fault hfault

/-- Units without a fault do not reach past a unit at fault. -/
theorem NoFault.length_le {front back : List Item} (h : NoFault front) (hfault : Fault before item fault)
    (heq : before ++ item :: after = front ++ back) : front.length ≤ before.length := by
  rcases List.append_eq_append_iff.mp heq with ⟨between, rfl, hrest⟩ | ⟨between, rfl, -⟩
  · cases between with
    | nil => simp
    | cons unit between =>
      obtain ⟨rfl, -⟩ := List.cons.inj hrest
      exact absurd hfault (h before item between rfl fault)
  · rw [List.length_append]
    exact Nat.le_add_right ..

/-- There is at most one first fault. -/
theorem FirstFault.unique (h : FirstFault us fault) (h' : FirstFault us fault') : fault = fault' := by
  obtain ⟨before, item, after, rfl, hnone, hfault⟩ := h
  obtain ⟨before', item', after', heq, hnone', hfault'⟩ := h'
  have hlength := Nat.le_antisymm (hnone.length_le hfault' heq.symm) (hnone'.length_le hfault heq)
  obtain ⟨rfl, hrest⟩ := List.append_inj heq hlength
  obtain ⟨rfl, -⟩ := List.cons.inj hrest
  exact hfault.unique hfault'

/-! ## Reading -/

theorem ofItems_stdlib (before : List Item) (path : String) :
    Options.ofItems (before ++ [.stdlib path]) =
      { Options.ofItems before with stdlib := some path } := by
  simp [Options.ofItems, Item.path?, Item.script?]

theorem ofItems_allForms (before : List Item) :
    Options.ofItems (before ++ [.plain "--all-forms"]) =
      { Options.ofItems before with allForms := true } := by
  have hscript : ¬ IsScript "--all-forms" := by decide
  simp [Options.ofItems, Item.path?, Item.script?, hscript]

theorem ofItems_script (hscript : IsScript arg) (hfirst : (Options.ofItems before).script = none) :
    Options.ofItems (before ++ [.plain arg]) = { Options.ofItems before with script := some arg } := by
  have hnone : before.filterMap Item.script? = [] := List.head?_eq_none_iff.mp hfirst
  have hflag : "--all-forms" ≠ arg := by
    rintro rfl
    exact absurd hscript (by decide)
  simp [Options.ofItems, Item.path?, Item.script?, hscript, hnone, hflag]

theorem script?_eq_some_iff {item : Item} : item.script? = some arg ↔ item = .plain arg ∧ IsScript arg := by
  cases item with
  | plain other =>
    by_cases h : IsScript other
    · rw [Item.script?, if_pos h, Option.some.injEq, Item.plain.injEq]
      exact ⟨fun heq => ⟨heq, heq ▸ h⟩, And.left⟩
    · rw [Item.script?, if_neg h]
      refine iff_of_false nofun ?_
      rintro ⟨⟨⟩, hscript⟩
      exact h hscript
  | stdlib path => exact iff_of_false nofun fun h => nomatch h.1
  | bare => exact iff_of_false nofun fun h => nomatch h.1

/-- A script is known once there was one. -/
theorem script_isSome_iff : (Options.ofItems before).script.isSome = true ↔
    ∃ first, .plain first ∈ before ∧ IsScript first := by
  constructor
  · intro h
    obtain ⟨first, hfirst⟩ := Option.isSome_iff_exists.mp h
    obtain ⟨item, hmem, hitem⟩ := List.mem_filterMap.mp (List.mem_of_head? hfirst)
    obtain ⟨rfl, hscript⟩ := script?_eq_some_iff.mp hitem
    exact ⟨first, hmem, hscript⟩
  · rintro ⟨first, hmem, hscript⟩
    have hfirst := List.mem_filterMap.mpr ⟨_, hmem, script?_eq_some_iff.mpr ⟨rfl, hscript⟩⟩
    rw [Option.isSome_iff_ne_none, Ne, Options.ofItems, List.head?_eq_none_iff]
    exact List.ne_nil_of_mem hfirst

/-- An argument in the place of an option is at fault, or counts with those before it. -/
theorem readFrom_plain (harg : arg ≠ "--stdlib") (before : List Item) (rest : List String) :
    (∃ fault, Fault before (.plain arg) fault ∧
      Options.readFrom (.ofItems before) (arg :: rest) = .error fault) ∨
    (∀ fault, ¬ Fault before (.plain arg) fault) ∧
      Options.readFrom (.ofItems before) (arg :: rest) =
        Options.readFrom (.ofItems (before ++ [.plain arg])) rest := by
  rw [Options.readFrom.eq_def]
  dsimp only
  rw [if_neg harg]
  -- the tests of `readFrom` in their order; a fault has to fail all tests before its own
  by_cases hflag : arg = "--all-forms"
  · subst hflag
    rw [if_pos rfl, ofItems_allForms]
    refine .inr ⟨fun fault hfault => ?_, rfl⟩
    cases hfault with
    | help hask => exact absurd hask (by decide)
    | unknown _ _ hflag => exact hflag rfl
    | second _ _ hscript => exact absurd hscript (by decide)
  rw [if_neg hflag]
  by_cases hask : arg = "-h" ∨ arg = "--help"
  · rw [if_pos hask]
    exact .inl ⟨.helpAsked, .help hask, rfl⟩
  rw [if_neg hask]
  obtain ⟨hshort, hhelp⟩ := not_or.mp hask
  by_cases hdashes : "--".toList <+: arg.toList
  · rw [if_pos (isOption_iff.mpr hdashes)]
    exact .inl ⟨.unknownOption arg, .unknown hdashes hhelp hflag, rfl⟩
  rw [if_neg (mt isOption_iff.mp hdashes)]
  have hscript : IsScript arg := ⟨hshort, hhelp, hdashes⟩
  by_cases hfirst : (Options.ofItems before).script.isSome = true
  · rw [if_pos hfirst]
    obtain ⟨first, hmem, hother⟩ := script_isSome_iff.mp hfirst
    exact .inl ⟨.secondScript, .second hmem hother hscript, rfl⟩
  · rw [if_neg hfirst, ofItems_script hscript (Option.not_isSome_iff_eq_none.mp hfirst)]
    refine .inr ⟨fun fault hfault => ?_, rfl⟩
    cases hfault with
    | help hask' => exact hask hask'
    | unknown hdashes' => exact hdashes hdashes'
    | second hmem hother => exact hfirst (script_isSome_iff.mpr ⟨_, hmem, hother⟩)

/-- The options read so far are what the units before say. -/
theorem readFrom_ofItems (hbefore : NoFault before) (args : List String) :
    match Options.readFrom (.ofItems before) args with
    | .ok options => NoFault (before ++ items args) ∧ options = .ofItems (before ++ items args)
    | .error fault => FirstFault (before ++ items args) fault := by
  -- by the units of the command line, since `--stdlib` takes two arguments at once
  induction args using items.induct generalizing before with
  | case1 =>
    rw [items, List.append_nil]
    exact ⟨hbefore, rfl⟩
  | case2 => exact ⟨before, .bare, [], rfl, hbefore, .bare⟩
  | case3 path rest ih =>
    have hnext := noFault_concat.mpr ⟨hbefore, fun fault (h : Fault before (.stdlib path) fault) => nomatch h⟩
    rw [Options.readFrom.eq_def, items_stdlib, List.append_cons before (.stdlib path)]
    dsimp only
    rw [if_pos rfl, ← ofItems_stdlib]
    exact ih hnext
  | case4 arg rest harg ih =>
    rw [items_plain harg]
    rcases readFrom_plain harg before rest with ⟨fault, hfault, hread⟩ | ⟨hnone, hread⟩
    · rw [hread]
      exact ⟨before, .plain arg, items rest, rfl, hbefore, hfault⟩
    · rw [List.append_cons before, hread]
      exact ih (noFault_concat.mpr ⟨hbefore, hnone⟩)

/-! ## Order -/

/-- The unit can stand in an accepted command line. -/
def Item.Sound (item : Item) : Prop := ∀ fault, ¬ Fault [] item fault

/-- What stands before a unit only matters to a script. -/
theorem not_fault_iff : (∀ fault, ¬ Fault before item fault) ↔
    item.Sound ∧ ∀ arg, item.script? = some arg → before.filterMap Item.script? = [] := by
  constructor
  · intro h
    refine ⟨fun fault hfault => ?_, fun arg harg => ?_⟩
    · cases hfault with
      | help hask => exact h _ (.help hask)
      | unknown hdashes hhelp hflag => exact h _ (.unknown hdashes hhelp hflag)
      | bare => exact h _ .bare
      | second hmem => cases hmem
    -- a script before this one would make it the second
    · obtain ⟨rfl, hscript⟩ := script?_eq_some_iff.mp harg
      refine List.eq_nil_iff_forall_not_mem.mpr fun first hfirst => ?_
      obtain ⟨unit, hmem, hunit⟩ := List.mem_filterMap.mp hfirst
      obtain ⟨rfl, hother⟩ := script?_eq_some_iff.mp hunit
      exact h _ (.second hmem hother hscript)
  · rintro ⟨hsound, hfirst⟩ fault hfault
    cases hfault with
    | help hask => exact hsound _ (.help hask)
    | unknown hdashes hhelp hflag => exact hsound _ (.unknown hdashes hhelp hflag)
    | bare => exact hsound _ .bare
    | second hmem hother hscript =>
      have hnone := hfirst _ (script?_eq_some_iff.mpr ⟨rfl, hscript⟩)
      have hsome := List.mem_filterMap.mpr ⟨_, hmem, script?_eq_some_iff.mpr ⟨rfl, hother⟩⟩
      exact List.ne_nil_of_mem hsome hnone

/-- Without their order: units are without a fault if each of them is and one at most is a script. -/
theorem noFault_iff : NoFault us ↔
    (∀ item ∈ us, item.Sound) ∧ (us.filterMap Item.script?).length ≤ 1 := by
  -- from the end, as a fault speaks of the units before it
  induction us using List.reverseRecOn with
  | nil => exact iff_of_true noFault_nil ⟨nofun, Nat.zero_le 1⟩
  | append_singleton us item ih =>
    have hlength : ((us ++ [item]).filterMap Item.script?).length ≤ 1 ↔
        (us.filterMap Item.script?).length ≤ 1 ∧
          ∀ arg, item.script? = some arg → us.filterMap Item.script? = [] := by
      rw [List.filterMap_append, List.length_append, ← List.length_eq_zero_iff]
      generalize (us.filterMap Item.script?).length = n
      cases hitem : item.script? with
      | none => simp [hitem]
      | some arg =>
        simp [hitem]
        omega
    rw [noFault_concat, ih, not_fault_iff, List.forall_mem_append, List.forall_mem_singleton, hlength,
      and_and_and_comm]

theorem items_flatMap (h : ∀ item ∈ us, item.Sound) : items (us.flatMap Item.args) = us := by
  induction us with
  | nil => rfl
  | cons item us ih =>
    obtain ⟨hitem, hus⟩ := List.forall_mem_cons.mp h
    rw [List.flatMap_cons]
    cases item with
    | stdlib path => exact (items_stdlib path _).trans (congrArg _ (ih hus))
    | bare => exact absurd .bare (hitem .pathMissing)
    | plain arg =>
      have harg : arg ≠ "--stdlib" := by
        rintro rfl
        exact hitem _ (.unknown (by decide) (by decide) (by decide))
      exact (items_plain harg _).trans (congrArg _ (ih hus))

theorem ofItems_perm {us' : List Item} (hperm : us'.Perm us) (hone : (us.filterMap Item.script?).length ≤ 1)
    (hpaths : us'.filterMap Item.path? = us.filterMap Item.path?) :
    Options.ofItems us' = Options.ofItems us := by
  have hscripts : us'.filterMap Item.script? = us.filterMap Item.script? := by
    have h := hperm.filterMap Item.script?
    rcases Nat.le_one_iff_eq_zero_or_eq_one.mp hone with hnone | hsingle
    · rw [List.length_eq_zero_iff.mp hnone] at h ⊢
      exact h.eq_nil
    · obtain ⟨script, hscript⟩ := List.length_eq_one_iff.mp hsingle
      rw [hscript] at h ⊢
      exact List.perm_singleton.mp h
  rw [Options.ofItems, Options.ofItems, hpaths, hscripts, Options.mk.injEq]
  exact ⟨rfl, decide_eq_decide.mpr hperm.mem_iff, rfl⟩

/-! ## Command lines -/

namespace Options

theorem ofArgs_cases (args : List String) :
    (∃ options, ofArgs args = .ok options ∧ NoFault (items args) ∧ options = ofItems (items args)) ∨
      ∃ fault, ofArgs args = .error fault ∧ FirstFault (items args) fault := by
  have h := readFrom_ofItems noFault_nil args
  have hstart : readFrom (ofItems []) args = ofArgs args := rfl
  rw [hstart] at h
  cases hread : ofArgs args with
  | ok options =>
    rw [hread] at h
    exact .inl ⟨options, rfl, h⟩
  | error fault =>
    rw [hread] at h
    exact .inr ⟨fault, rfl, h⟩

theorem ofArgs_ok_iff {options : Options} :
    ofArgs args = .ok options ↔ NoFault (items args) ∧ options = ofItems (items args) := by
  rcases ofArgs_cases args with ⟨read, hread, hnone, rfl⟩ | ⟨fault, hread, hfirst⟩
  · rw [hread, Except.ok.injEq, and_iff_right hnone, eq_comm]
  · rw [hread]
    exact iff_of_false nofun fun h => hfirst.not_noFault h.1

theorem ofArgs_error_iff : ofArgs args = .error fault ↔ FirstFault (items args) fault := by
  rcases ofArgs_cases args with ⟨read, hread, hnone, rfl⟩ | ⟨first, hread, hfirst⟩
  · rw [hread]
    exact iff_of_false nofun fun h => h.not_noFault hnone
  · rw [hread, Except.error.injEq]
    constructor
    · rintro rfl
      exact hfirst
    · exact hfirst.unique

/-- A command line is accepted if no unit is at fault, and says what its units say; otherwise the first
unit at fault tells why not.  The units of an accepted command line can be put into any other order that
keeps that of the paths. -/
theorem ofArgs_language (args : List String) :
    (items args).flatMap Item.args = args ∧
      (∀ options, ofArgs args = .ok options ↔
        NoFault (items args) ∧ options = ofItems (items args)) ∧
      (∀ fault, ofArgs args = .error fault ↔ FirstFault (items args) fault) ∧
      ∀ options (us : List Item), ofArgs args = .ok options → us.Perm (items args) →
        us.filterMap Item.path? = (items args).filterMap Item.path? →
        ofArgs (us.flatMap Item.args) = .ok options := by
  refine ⟨flatMap_items args, fun _ => ofArgs_ok_iff, fun _ => ofArgs_error_iff, ?_⟩
  intro options us hread hperm hpaths
  obtain ⟨hnone, rfl⟩ := ofArgs_ok_iff.mp hread
  obtain ⟨hsound, hone⟩ := noFault_iff.mp hnone
  have hsound' : ∀ item ∈ us, item.Sound := fun item hmem => hsound item (hperm.mem_iff.mp hmem)
  have hone' : (us.filterMap Item.script?).length ≤ 1 := by
    rwa [(hperm.filterMap Item.script?).length_eq]
  rw [ofArgs_ok_iff, items_flatMap hsound', ofItems_perm hperm hone hpaths]
  exact ⟨noFault_iff.mpr ⟨hsound', hone'⟩, rfl⟩

/-- A path that looks like an option, and a script that comes to the end. -/
theorem ofArgs_language_reordered :
    let given := ["--stdlib", "--help", "main.ji", "--all-forms", "--stdlib", "lib.ji"]
    let sorted := ["--all-forms", "--stdlib", "--help", "--stdlib", "lib.ji", "main.ji"]
    ofArgs given = .ok ⟨some "lib.ji", true, some "main.ji"⟩ ∧
      ofArgs sorted = .ok ⟨some "lib.ji", true, some "main.ji"⟩ := by
  intro given sorted
  have hread : ofArgs given = .ok ⟨some "lib.ji", true, some "main.ji"⟩ := by decide
  let us : List Item := [.plain "--all-forms", .stdlib "--help", .stdlib "lib.ji", .plain "main.ji"]
  exact ⟨hread, (ofArgs_language given).2.2.2 _ us hread (by decide) (by decide)⟩

end Options

end MiniLisp.Cli
