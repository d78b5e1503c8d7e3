import MiniLisp.Primitive.Root
import MiniLisp.Proofs.Program.Output

/-!
# Output that fails

A program is run twice, on a sink that takes everything and on one that takes bytes up to some point
and then refuses every write.  The second run does what the first one does until a write fails, and
there it ends.
-/

namespace MiniLisp

/-- How the outcome on a sink that may fail and the outcome on one that does not belong together. -/
structure CutShort (short full : Except Error Value × Store) : Prop where
  /-- No write of the second run failed. -/
  unfailing : full.2.sink.Unfailing
  /-- If no write of the first run failed, both runs end in the same way. -/
  same : short.2.sink.broken = none → full = (short.1, short.2.onSink short.2.sink.whole)
  /-- If a write failed, the first run ends there: it reports the failure, and what it wrote is the
  beginning of what the second run wrote. -/
  failed : short.2.sink.broken ≠ none →
    short.1 = .error (.outputFailed Sink.refusal) ∧ short.2.sink.bytes <+: full.2.sink.bytes

/-- A sink that may fail beside one with the same text that takes everything. -/
def Sink.Comparison.cut : Sink.Comparison where
  rel short full := short.broken = none ∧ full = short.whole
  stopped short full := short.broken ≠ none ∧ short.Cuts full
  write := by
    rintro short _ v ⟨hunbroken, rfl⟩
    have hcuts := (cuts_whole hunbroken).writeLine v
    by_cases hwritten : (short.writeLine v).broken = none
    · exact .inl ⟨⟨hwritten, hcuts.same hwritten⟩, hwritten, hcuts.unfailing.unbroken⟩
    · exact .inr ⟨⟨hwritten, hcuts⟩, hwritten⟩
  write_stopped := by
    rintro short full v ⟨hfailed, hcuts⟩
    obtain ⟨torn, htorn⟩ := Option.ne_none_iff_exists'.mp hfailed
    refine ⟨hfailed, writeLine_rel (fun _ later => short.Cuts later) ?_ (a := full) hcuts v⟩
    intro _ later piece hlater
    have hput := hlater.put piece
    rwa [put_of_broken htorn] at hput

/-- Runs on the two sinks end as they should. -/
theorem Lockstep.Paired.cutShort {ip : Interpreter} {short full : Except Error Value × Store}
    (h : (Lockstep.onSinks ip .cut).Paired short full) : CutShort short full := by
  rcases h with ⟨hresult, _, ⟨hunbroken, rfl⟩, hstore⟩ | ⟨e, herror, rfl, hfailed, _, hcuts⟩
  · refine ⟨?_, fun _ => Prod.ext hresult hstore, fun hfailed => absurd hunbroken hfailed⟩
    rw [hstore]
    exact Sink.unfailing_whole _
  · exact ⟨hcuts.unfailing, fun hunbroken => absurd hunbroken hfailed,
      fun _ => ⟨herror, hcuts.beginning⟩⟩

/-- An output failure is never lost and only cuts a run short, for every program, scope and store. -/
theorem Interpreter.run_cutShort (ip : Interpreter) (text : String) (scope : FrameId) {σ : Store}
    (h : σ.sink.broken = none) :
    CutShort (ip.run text scope σ) (ip.run text scope (σ.onSink σ.sink.whole)) :=
  (ip.run_onSinks .cut text scope ⟨h, rfl⟩).cutShort

/-- A sink that takes two bytes gets the first letter of a line and half of the second one; the
definition before the output stays and the one behind it is not reached. -/
theorem Interpreter.run_cutShort_torn :
    let ip : Interpreter := ⟨⟨10, 10⟩, fun _ => none⟩
    let σ := Store.root ⟨"", fun written _ => 2 - written.utf8ByteSize, none⟩
    let text := "(define x 'a') (log 'hé') (define y 'b')"
    let short := ip.run text Store.rootFrame σ
    let full := ip.run text Store.rootFrame (σ.onSink σ.sink.whole)
    σ.sink.broken = none ∧ CutShort short full ∧
      short.1 = .error (.outputFailed Sink.refusal) ∧ short.2.sink.bytes = [104, 195] ∧
      full.2.sink.text = "hé\n" ∧
      short.2.contains Store.rootFrame "x" = true ∧ short.2.contains Store.rootFrame "y" = false := by
  intro ip σ text short full
  let forms : List Datum := [.list [.sym "define", .sym "x", .str "a"],
    .list [.sym "log", .str "hé"], .list [.sym "define", .sym "y", .str "b"]]
  let es : List Expr := [.define "x" (.literal (.str "a")),
    .application (.name "log") [.literal (.str "hé")], .define "y" (.literal (.str "b"))]
  have hread : ip.read text = .ok forms := read_of_scan rfl rfl (by decide)
  have hanalyze : ip.analyze text = .ok es := analyze_eq_ok hread
  have hrun : ip.run text Store.rootFrame = ip.evaluateAll es Store.rootFrame :=
    run_of_analyze_ok hanalyze
  have hshort : short = ip.evaluateAll es Store.rootFrame σ := congrFun hrun σ
  have hfull : full = ip.evaluateAll es Store.rootFrame (σ.onSink σ.sink.whole) := congrFun hrun _
  have hcut : CutShort short full := ip.run_cutShort text Store.rootFrame rfl
  rw [hshort, hfull] at hcut ⊢
  have hfailed : (ip.evaluateAll es Store.rootFrame σ).2.sink.broken ≠ none := by decide +kernel
  exact ⟨rfl, hcut, (hcut.failed hfailed).1, by decide +kernel, by decide +kernel, by decide +kernel,
    by decide +kernel⟩

end MiniLisp
