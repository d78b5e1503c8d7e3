import Mathlib.Data.List.Nodup
import MiniLisp.Prelude
import MiniLisp.Proofs.Expr.Source
import MiniLisp.Proofs.Program.Composition
import MiniLisp.Proofs.Reader.OnePass
import MiniLisp.Proofs.Session.Start
import MiniLisp.Proofs.Store.Growth

/-!
# The functions of the standard unit

The text of the standard unit is read as a sequence of definitions, one for each function
(`Interpreter.loadPrelude_eq`).  Loading it into a scope that has the constants and the standard
primitives gives the scope these functions (`Interpreter.standard_loadPrelude`); their bodies find the
names that they use in the scope they were made in.
-/

namespace MiniLisp

/-! ## The unit as definitions -/

namespace Prelude

/-- A function of the standard unit. -/
structure Function where
  name : String
  parameters : List String
  body : Expr

/-- A call by name. -/
def call (callee : String) (arguments : List Expr) : Expr := .application (.name callee) arguments

/-- The empty list. -/
def emptyList : Expr := .quote (.list [])

def first : Expr := call "car" [.name "xs"]

def rest : Expr := call "cdr" [.name "xs"]

/-- The test with which all functions on lists begin. -/
def atEnd : Expr := call "null?" [.name "xs"]

def not : Function where
  name := "not"
  parameters := ["x"]
  body := .ifElse (.name "x") (.name "False") (.name "True")

def isNull : Function where
  name := "null?"
  parameters := ["xs"]
  body := .ifElse (call "=" [.name "xs", .name "Nil"]) (.name "True") (call "=" [.name "xs", emptyList])

def atMost : Function where
  name := "<="
  parameters := ["a", "b"]
  body := call "not" [call ">" [.name "a", .name "b"]]

def atLeast : Function where
  name := ">="
  parameters := ["a", "b"]
  body := call "not" [call "<" [.name "a", .name "b"]]

def abs : Function where
  name := "abs"
  parameters := ["n"]
  body := .ifElse (call "<" [.name "n", .literal (.num 0)]) (call "-" [.literal (.num 0), .name "n"])
    (.name "n")

def length : Function where
  name := "length"
  parameters := ["xs"]
  body := .ifElse atEnd (.literal (.num 0)) (call "+" [.literal (.num 1), call "length" [rest]])

def map : Function where
  name := "map"
  parameters := ["f", "xs"]
  body := .ifElse atEnd emptyList (call "cons" [call "f" [first], call "map" [.name "f", rest]])

def filter : Function where
  name := "filter"
  parameters := ["keep?", "xs"]
  body := .ifElse atEnd emptyList
    (.ifElse (call "keep?" [first]) (call "cons" [first, call "filter" [.name "keep?", rest]])
      (call "filter" [.name "keep?", rest]))

def reduce : Function where
  name := "reduce"
  parameters := ["f", "acc", "xs"]
  body := .ifElse atEnd (.name "acc")
    (call "reduce" [.name "f", call "f" [.name "acc", first], rest])

/-- All functions, in the order of their definitions. -/
def functions : List Function :=
  [not, isNull, atMost, atLeast, abs, length, map, filter, reduce]

/-- The form that defines a function. -/
def Function.definition (fn : Function) : Expr := .define fn.name (.lambda fn.parameters fn.body)

/-- The one form of the unit. -/
def form : Expr := .sequence (functions.map Function.definition)

theorem names_distinct : (functions.map Function.name).Nodup := by decide

/-- No function takes the name of a constant or of a standard primitive. -/
theorem names_fresh : ∀ fn ∈ functions, fn.name ∉ rootNames := by decide

set_option maxRecDepth 8000 in
theorem assembled : ∃ letters, prelude = String.ofList letters ∧
    Datum.forest? [] [] (Datum.scan [] letters) = some [form.source] :=
  ⟨_, rfl, rfl⟩

theorem ofDatum_source : Expr.ofDatum form.source = .ok form := rfl

end Prelude

namespace Interpreter

variable {ip : Interpreter} {scope : FrameId}

theorem read_prelude (hread : 8 ≤ ip.limits.read) : ip.read prelude = .ok [Prelude.form.source] := by
  obtain ⟨letters, hletters, hforms⟩ := Prelude.assembled
  refine read_of_scan hletters hforms ?_
  intro d hd
  obtain rfl := List.mem_singleton.mp hd
  exact hread

/-- Loading the unit is evaluating its form, where lists may nest as deep as it nests them. -/
theorem loadPrelude_eq (hread : 8 ≤ ip.limits.read) :
    ip.loadPrelude scope = ip.evaluate Prelude.form scope := by
  rw [loadPrelude, loadUnit_of_read_ok (read_prelude hread), Prelude.ofDatum_source]
  rfl

end Interpreter

/-! ## Scopes with the functions -/

namespace Store

variable {σ τ : Store} {home : FrameId} {fn : Prelude.Function} {id : ClosureId}

/-- The scope has the constants and the standard primitives under their names. -/
structure Equipped (σ : Store) (home : FrameId) : Prop where
  constants : ∀ x v, (x, v) ∈ constants → σ.lookup? home x = some v
  operations : ∀ op ∈ Operation.standard,
    ∃ stamp, σ.lookup? home op.name = some (.primitive ⟨stamp, op.name, op.arity, op⟩)

/-- The scope has the function under its name, made in this scope. -/
structure Provides (σ : Store) (home : FrameId) (fn : Prelude.Function) (id : ClosureId) : Prop where
  named : σ.lookup? home fn.name = some (.closure id)
  made : σ.closures[id]? = some ⟨fn.parameters, fn.body, home⟩

/-- The scope has what the root scope binds and the functions of the standard unit. -/
structure Standard (σ : Store) (home : FrameId) : Prop extends σ.Equipped home where
  functions : ∀ fn ∈ Prelude.functions, ∃ id, σ.Provides home fn id

theorem Equipped.lt_size (h : σ.Equipped home) : home < σ.frames.size :=
  lt_size_of_lookup? (h.constants "Nil" .nil (by simp [MiniLisp.constants]))

theorem Provides.mono (h : σ.Provides home fn id) (hretains : σ.Retains τ) : τ.Provides home fn id :=
  ⟨hretains.lookup? h.named, hretains.closures id _ h.made⟩

theorem Standard.mono (h : σ.Standard home) (hretains : σ.Retains τ) : τ.Standard home where
  constants x v hv := hretains.lookup? (h.constants x v hv)
  operations op hop := by
    obtain ⟨stamp, hlookup⟩ := h.operations op hop
    exact ⟨stamp, hretains.lookup? hlookup⟩
  functions fn hfn := by
    obtain ⟨id, hid⟩ := h.functions fn hfn
    exact ⟨id, hid.mono hretains⟩

/-! ### The root scope -/

theorem exists_mem_primitivesFrom {op : Operation} {ops : List Operation} (h : op ∈ ops) (stamp : Nat) :
    ∃ i, ⟨i, op.name, op.arity, op⟩ ∈ Operation.primitivesFrom stamp ops := by
  induction ops generalizing stamp with
  | nil => cases h
  | cons op' ops ih =>
    rcases List.mem_cons.mp h with rfl | h
    · exact ⟨stamp, List.mem_cons_self⟩
    · obtain ⟨i, hi⟩ := ih h (stamp + 1)
      exact ⟨i, List.mem_cons_of_mem _ hi⟩

theorem equipped_root (sink : Sink) : (Store.root sink).Equipped Store.rootFrame := by
  let entries := constants ++ (Operation.primitivesFrom 0 Operation.standard).map Primitive.binding
  have hnames : (entries.map (·.1)).Nodup := by decide
  have hlookup : ∀ x v, (x, v) ∈ entries → (Store.root sink).lookup? Store.rootFrame x = some v := by
    intro x v hv
    have hframe : (Store.root sink).localBindings Store.rootFrame = .ofList entries := rfl
    have hchain : (Store.root sink).chain Store.rootFrame = [Store.rootFrame] := by
      rw [chain_eq]
      rfl
    -- a name is bound once, so it does not matter that the last entry of a name counts
    have hreverse : (entries.reverse.map (·.1)).Nodup := by
      rw [List.map_reverse]
      exact List.nodup_reverse.mpr hnames
    rw [lookup?, hchain, List.findSome?_cons, hframe, Bindings.get?_ofList,
      Bindings.lookup_of_mem hreverse (List.mem_reverse.mpr hv)]
  constructor
  · exact fun x v hv => hlookup x v (List.mem_append_left _ hv)
  · intro op hop
    obtain ⟨i, hi⟩ := exists_mem_primitivesFrom hop 0
    exact ⟨i, hlookup _ _ (List.mem_append_right _ (List.mem_map.mpr ⟨_, hi, rfl⟩))⟩

/-! ### Loading -/

/-- Defines a function. -/
def addFunction (home : FrameId) (σ : Store) (fn : Prelude.Function) : Store :=
  ((σ.addClosure ⟨fn.parameters, fn.body, home⟩).2).define home fn.name (.closure σ.closures.size)

theorem lookup?_addFunction_of_ne {x : String} (h : x ≠ fn.name) (home f : FrameId) (σ : Store) :
    (σ.addFunction home fn).lookup? f x = σ.lookup? f x := by
  have hframes : (σ.addClosure ⟨fn.parameters, fn.body, home⟩).2.frames = σ.frames := rfl
  rw [addFunction, lookup?_define_of_ne h, lookup?_of_frames hframes]

theorem provides_addFunction (hhome : home < σ.frames.size) :
    (σ.addFunction home fn).Provides home fn σ.closures.size :=
  ⟨lookup?_define_self hhome, Array.getElem?_push_size⟩

theorem Provides.addFunction {fn' : Prelude.Function} (h : σ.Provides home fn id)
    (hne : fn.name ≠ fn'.name) : (σ.addFunction home fn').Provides home fn id := by
  have hlt := (Array.getElem?_eq_some_iff.mp h.made).1
  refine ⟨(lookup?_addFunction_of_ne hne ..).trans h.named, ?_⟩
  exact (Array.getElem?_push_lt hlt).trans ((Array.getElem?_eq_getElem hlt).symm.trans h.made)

/-- Definitions of functions with distinct names add these functions and nothing else. -/
theorem addFunctions {fns : List Prelude.Function} (hhome : home < σ.frames.size)
    (hnames : (fns.map (·.name)).Nodup) :
    (∀ fn ∈ fns, ∃ id, (fns.foldl (Store.addFunction home) σ).Provides home fn id) ∧
      (∀ fn id, σ.Provides home fn id → fn.name ∉ fns.map (·.name) →
        (fns.foldl (Store.addFunction home) σ).Provides home fn id) ∧
      ∀ x ∉ fns.map (·.name), (fns.foldl (Store.addFunction home) σ).lookup? home x = σ.lookup? home x := by
  induction fns generalizing σ with
  | nil => exact ⟨fun _ => nofun, fun _ _ h _ => h, fun _ _ => rfl⟩
  | cons fn fns ih =>
    obtain ⟨hfresh, hrest⟩ := List.nodup_cons.mp hnames
    have hhome' : home < (σ.addFunction home fn).frames.size := by
      simpa [Store.addFunction, Store.addClosure] using hhome
    -- the second part is what carries the first one past the definitions that follow
    obtain ⟨hadded, hkept, hothers⟩ := ih hhome' hrest
    refine ⟨List.forall_mem_cons.mpr ⟨?_, hadded⟩, ?_, ?_⟩
    · exact ⟨_, hkept fn _ (provides_addFunction hhome) hfresh⟩
    · intro fn' id hid hname
      obtain ⟨hne, hname⟩ := not_or.mp (mt List.mem_cons.mpr hname)
      exact hkept fn' id (hid.addFunction hne) hname
    · intro x hx
      obtain ⟨hne, hx⟩ := not_or.mp (mt List.mem_cons.mpr hx)
      exact (hothers x hx).trans (lookup?_addFunction_of_ne hne ..)

end Store

namespace Interpreter

variable {ip : Interpreter} {σ : Store} {home : FrameId}

theorem eval_definition (n : Nat) (fn : Prelude.Function) (home : FrameId) (σ : Store) :
    ip.eval (n + 2) fn.definition home σ = (.ok .unspecified, σ.addFunction home fn) := by
  rw [Prelude.Function.definition, eval, Action.bind_apply]
  rfl

theorem eval_definitions (n : Nat) (fns : List Prelude.Function) (v : Value) (home : FrameId) (σ : Store) :
    ∃ w, (fns.map Prelude.Function.definition).foldlM (fun _ step => ip.eval (n + 2) step home) v σ =
      (.ok w, fns.foldl (Store.addFunction home) σ) := by
  induction fns generalizing v σ with
  | nil => exact ⟨v, rfl⟩
  | cons fn fns ih =>
    rw [List.map_cons, List.foldlM_cons, Action.bind_apply, eval_definition]
    exact ih .unspecified (σ.addFunction home fn)

/-- The standard unit gives its functions to a scope with the constants and the standard primitives. -/
theorem standard_loadPrelude (hσ : σ.Equipped home) (hread : 8 ≤ ip.limits.read)
    (heval : 3 ≤ ip.limits.eval) :
    ∃ v τ, ip.loadPrelude home σ = (.ok v, τ) ∧ τ.Standard home := by
  obtain ⟨n, hn⟩ : ∃ n, ip.limits.eval = n + 3 := ⟨ip.limits.eval - 3, by omega⟩
  obtain ⟨v, hv⟩ := ip.eval_definitions n Prelude.functions .nil home σ
  refine ⟨v, Prelude.functions.foldl (Store.addFunction home) σ, ?_, ?_⟩
  · rw [loadPrelude_eq hread, evaluate, hn, Prelude.form, eval]
    exact hv
  · obtain ⟨hadded, -, hothers⟩ := Store.addFunctions hσ.lt_size Prelude.names_distinct
    have hroot : ∀ x ∈ rootNames, x ∉ Prelude.functions.map (·.name) := by
      intro x hx hmem
      obtain ⟨fn, hfn, rfl⟩ := List.mem_map.mp hmem
      exact Prelude.names_fresh fn hfn hx
    refine ⟨⟨fun x v hv => ?_, fun op hop => ?_⟩, hadded⟩
    · rw [hothers x (hroot x (List.mem_append_left _ (List.mem_map.mpr ⟨(x, v), hv, rfl⟩)))]
      exact hσ.constants x v hv
    · rw [hothers op.name (hroot _ (List.mem_append_right _ (List.mem_map.mpr ⟨op, hop, rfl⟩)))]
      exact hσ.operations op hop

end Interpreter

end MiniLisp
