/-
# Passes keep a function in order

Tiling and parallelization take functions that the check accepts to functions that it accepts,
alone and one after the other.  So a run of the command that removes no copies never finds the
function malformed that its own passes have made: what it loads was accepted, and the passes in
between keep it so.
-/
import Dataflow.Command.Run
import Dataflow.Proofs.Acceptance
import Dataflow.Proofs.Replay
import Dataflow.Proofs.Tiling

namespace Dataflow

variable {f g : Func} {audience : Audience}

/-! ## 1. Passes -/

namespace Func

theorem tile_accepted (hf : f.verify = .ok ()) {sizes : List Nat} {changed : Bool}
    (hy : (f.tile sizes).Yields audience (g, changed)) : g.verify = .ok () :=
  verify_eq_ok_iff_tidy.mpr (tile_tidy (verify_eq_ok_iff_tidy.mp hf) hy)

theorem parallelize_accepted (hf : f.verify = .ok ()) {config : Config} {report : Report}
    (hy : (f.parallelize config).Yields audience (g, .ok report)) : g.verify = .ok () := by
  have htidy := verify_eq_ok_iff_tidy.mp hf
  exact verify_eq_ok_iff_tidy.mpr ((parallelize_replays htidy hy).tidy htidy)

/-- What is loaded was accepted. -/
theorem verify_of_load {text : String} (h : load text = .ok f) : f.verify = .ok () := by
  unfold load at h
  split at h
  · cases h
  · split at h
    · cases h
    · rename_i hverify
      cases h
      exact hverify

end Func

/-! ## 2. Runs of the command -/

namespace Command

theorem tileStep_accepted {o : Options} {s s' : Summary} (hf : f.verify = .ok ())
    (hy : (tileStep o f s).Yields audience (g, s')) : g.verify = .ok () := by
  unfold tileStep at hy
  split at hy
  · cases Traced.yields_pure.mp hy
    exact hf
  · obtain ⟨able, -, hy⟩ := Traced.yields_bind.mp hy
    cases able with
    | true =>
      obtain ⟨⟨g', tiled⟩, htile, hy⟩ := Traced.yields_bind.mp hy
      cases Traced.yields_pure.mp hy
      exact Func.tile_accepted hf htile
    | false =>
      obtain ⟨_, -, hy⟩ := Traced.yields_bind.mp hy
      cases Traced.yields_pure.mp hy
      exact hf

theorem parallelizeStep_accepted {o : Options} {s s' : Summary} (hf : f.verify = .ok ())
    (hy : (parallelizeStep o f s).Yields audience (.ok (g, s'))) : g.verify = .ok () := by
  unfold parallelizeStep at hy
  split at hy
  · cases Traced.yields_pure.mp hy
    exact hf
  · obtain ⟨_, -, hy⟩ := Traced.yields_bind.mp hy
    obtain ⟨⟨g', outcome⟩, hrun, hy⟩ := Traced.yields_bind.mp hy
    cases outcome with
    | ok report =>
      cases Traced.yields_pure.mp hy
      exact Func.parallelize_accepted hf hrun
    | error e =>
      obtain ⟨_, -, hy⟩ := Traced.yields_bind.mp hy
      cases Traced.yields_pure.mp hy

/-- A refusal of the parallelization does not read as if the function were malformed. -/
theorem parallelizeStep_chain_ne {o : Options} {s : Summary} {chain : List String}
    (hy : (parallelizeStep o f s).Yields audience (.error chain)) (d : Defect) :
    chain ≠ malformedChain d := by
  unfold parallelizeStep at hy
  split at hy
  · cases Traced.yields_pure.mp hy
  · obtain ⟨_, -, hy⟩ := Traced.yields_bind.mp hy
    obtain ⟨⟨g', outcome⟩, hrun, hy⟩ := Traced.yields_bind.mp hy
    cases outcome with
    | ok report => cases Traced.yields_pure.mp hy
    | error e =>
      obtain ⟨_, -, hy⟩ := Traced.yields_bind.mp hy
      cases Traced.yields_pure.mp hy
      cases e with
      | zeroFactor => simp [ParallelizeError.chain, malformedChain]
      | refused func reason =>
        intro h
        have hhead := congrArg (fun text => text.toList.head?) (List.cons.inj h).1
        simp [Pass.text] at hhead

/-- **The last check of a run without copy removal succeeds.** -/
theorem transform_not_malformed {o : Options} (hcopies : o.simplifyCopies = false)
    (hf : f.verify = .ok ()) {chain : List String}
    (hy : (transform o f).Yields audience (.error chain)) (d : Defect) :
    chain ≠ malformedChain d := by
  obtain ⟨_, -, hy⟩ := Traced.yields_bind.mp hy
  obtain ⟨⟨f₁, s₁⟩, htile, hy⟩ := Traced.yields_bind.mp hy
  have hf₁ : f₁.verify = .ok () := tileStep_accepted hf htile
  obtain ⟨outcome, hpar, hy⟩ := Traced.yields_bind.mp hy
  cases outcome with
  | error chain' =>
    cases Traced.yields_pure.mp hy
    exact parallelizeStep_chain_ne hpar d
  | ok result =>
    obtain ⟨f₂, s₂⟩ := result
    have hf₂ : f₂.verify = .ok () := parallelizeStep_accepted hf₁ hpar
    obtain ⟨⟨f₃, s₃⟩, hsimplify, hy⟩ := Traced.yields_bind.mp hy
    simp only [simplifyStep, hcopies, Bool.false_eq_true, if_false, Traced.yields_pure,
      Prod.mk.injEq] at hsimplify
    obtain ⟨rfl, rfl⟩ := hsimplify
    simp only [hf₂] at hy
    obtain ⟨_, -, hy⟩ := Traced.yields_bind.mp hy
    cases Traced.yields_pure.mp hy

/-- The same from the content of the input file on. -/
theorem process_not_malformed {o : Options} (hcopies : o.simplifyCopies = false)
    {source : Except String String} {chain : List String}
    (hy : (process o source).Yields audience (.error chain)) (d : Defect) :
    chain ≠ malformedChain d := by
  obtain ⟨_, -, hy⟩ := Traced.yields_bind.mp hy
  obtain ⟨_, -, hy⟩ := Traced.yields_bind.mp hy
  cases source with
  | error cause =>
    cases Traced.yields_pure.mp hy
    intro h
    have hhead := congrArg (fun text => text.toList.head?) (List.cons.inj h).1
    simp at hhead
  | ok text =>
    simp only at hy
    split at hy
    · cases Traced.yields_pure.mp hy
      intro h
      have hhead := congrArg (fun text => text.toList.head?) (List.cons.inj h).1
      simp at hhead
    · rename_i f hload
      exact transform_not_malformed hcopies (Func.verify_of_load hload) hy d

end Command

/-! ## 3. The passes together -/

namespace Func

/-- **Tiling and parallelization keep what the check accepts**, alone and one after the other, so
that no run without copy removal finds its function malformed. -/
theorem verify_kept_by_tiling_and_parallelization (audience : Audience) (f : Func)
    (hf : f.verify = .ok ()) :
    (∀ sizes g changed, (f.tile sizes).Yields audience (g, changed) → g.verify = .ok ()) ∧
    (∀ config g report, (f.parallelize config).Yields audience (g, .ok report) →
      g.verify = .ok ()) ∧
    (∀ sizes config g changed h report, (f.tile sizes).Yields audience (g, changed) →
      (g.parallelize config).Yields audience (h, .ok report) → h.verify = .ok ()) ∧
    ∀ o : Command.Options, o.simplifyCopies = false → ∀ d,
      ¬ (Command.transform o f).Yields audience (.error (Command.malformedChain d)) ∧
      ∀ source,
        ¬ (Command.process o source).Yields audience (.error (Command.malformedChain d)) := by
  refine ⟨fun sizes g changed hy => tile_accepted hf hy,
    fun config g report hy => parallelize_accepted hf hy,
    fun sizes config g changed h report htile hpar =>
      parallelize_accepted (tile_accepted hf htile) hpar,
    fun o ho d => ⟨fun hy => ?_, fun source hy => ?_⟩⟩
  · exact Command.transform_not_malformed ho hf hy d rfl
  · exact Command.process_not_malformed ho hy d rfl

/-- A node with one loop of four iterations around one store. -/
def singleLoop : Func where
  name := "f"
  arguments := [0]
  body := [0]
  ops := #[
    { id := 0, kind := .schedule { name := "top", increase := none, decrease := none },
      parent := none, body := [1], erased := false },
    { id := 1, kind := .node "n", parent := some 0, body := [2], erased := false },
    { id := 2, kind := .loop (.plain "i" 0 (some 4) 1), parent := some 1, body := [3],
      erased := false },
    { id := 3, kind := .compute { name := "s", reads := [], lanes := [],
                                  writes := [{ memref := 0, indices := [.iv 2] }] },
      parent := some 2, body := [], erased := false }]
  values := #[{ id := 0, name := "A", shape := [4], space := 0, definition := .argument 0 }]

/-- Both passes change the single loop, and leave it accepted. -/
theorem verify_kept_singleLoop : singleLoop.verify = .ok () ∧
    (∃ g, (singleLoop.tile [2]).Yields none (g, true) ∧ g ≠ singleLoop ∧ g.verify = .ok ()) ∧
    ∃ g report, (singleLoop.parallelize (Config.flat 2)).Yields none (g, .ok report) ∧
      report.applied ≠ [] ∧ g.verify = .ok () := by
  have hf : singleLoop.verify = .ok () := by decide
  have hkept := verify_kept_by_tiling_and_parallelization none singleLoop hf
  refine ⟨hf, ?_, ?_⟩
  · have hy : (singleLoop.tile [2]).Yields none (_, true) := ⟨_, rfl⟩
    exact ⟨_, hy, by decide, hkept.1 _ _ _ hy⟩
  · have hrun : (match (singleLoop.parallelize (Config.flat 2)).run none with
        | .ok ((_, .ok report), _) => !report.applied.isEmpty
        | _ => false) = true := by decide +kernel
    split at hrun
    case h_1 g report journal hrun' =>
      have hy : (singleLoop.parallelize (Config.flat 2)).Yields none (g, .ok report) :=
        ⟨journal, hrun'⟩
      exact ⟨g, report, hy, by simpa using hrun, hkept.2.1 _ _ _ hy⟩
    case h_2 => cases hrun

end Func

end Dataflow
