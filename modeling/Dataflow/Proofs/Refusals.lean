/-
# Refusals

A transformation that refuses hands back the function that it was given.  Every question is asked
before the first change is made: tiling plans all headers of a band, the removal of a copy finds
out which side can go and where its initial value is to go, unrolling collects its lanes,
vectorizing looks at every loop, and the parallelization shares out all budgets.

That would hold of transformations that never change anything.  So what is granted is looked at
too: it leaves a trace, or can be told from what was asked for (`Func.refusal_leaves_no_trace`).
-/
import Dataflow.Proofs.CopySites
import Dataflow.Proofs.Replay
import Dataflow.Proofs.Tiling

namespace Dataflow
namespace Func

variable {f g : Func} {audience : Audience}

/-! ## 1. Tiling -/

/-- **Tiling leaves the function alone exactly when it refuses**, or is asked for nothing. -/
theorem tileBand_eq_iff {band : Band} {sizes : List Nat} {outcome : Except Reason Band}
    (h : (f.tileBand band sizes).Yields audience (g, outcome)) :
    g = f ↔ band = [] ∨ ∃ reason, outcome = .error reason := by
  unfold tileBand at h
  split at h
  · rename_i hlast
    cases Traced.yields_pure.mp h
    exact iff_of_true rfl (.inl (List.getLast?_eq_none_iff.mp hlast))
  · rename_i innermost hlast
    obtain ⟨plan, hplan, h⟩ := Traced.yields_bind.mp h
    rw [Traced.yields_lift] at hplan
    cases plan with
    | error reason =>
      cases Traced.yields_pure.mp h
      exact iff_of_true rfl (.inr ⟨reason, rfl⟩)
    | ok headers =>
      obtain ⟨⟨g', points⟩, hsplit, h⟩ := Traced.yields_bind.mp h
      obtain ⟨_, -, h⟩ := Traced.yields_bind.mp h
      cases Traced.yields_pure.mp h
      rw [Traced.yields_lift] at hsplit
      have hne : band ≠ [] := by
        rintro rfl
        cases hlast
      -- There is a header for each loop of the band, so the table grew.
      obtain ⟨hlen, -, -, hheaders⟩ := tilingPlan_spec hplan
      have htiles : (band.zip headers).length = band.length := by
        rw [← List.length_map (f := Prod.fst), (mem_zip_headers hlen (tileHeaders_spec hheaders)).1]
      have hsize := (splitLoops_sortsKept hsplit).size
      have hpos := List.length_pos_of_ne_nil hne
      refine iff_of_false ?_ (not_or.mpr ⟨hne, ?_⟩)
      · rintro rfl
        omega
      · rintro ⟨reason, hreason⟩
        cases hreason

/-! ## 2. Removing a copy -/

/-- An edit that unflags nothing leaves nothing alive that was erased. -/
theorem isLive_of_edit {change : OpId → Op → Op}
    (hchange : ∀ i op, (change i op).erased = false → op.erased = false) {i : OpId}
    (h : (f.edit change).IsLive i) : f.IsLive i := by
  obtain ⟨op', hop', hlive⟩ := h
  rw [getElem?_ops_edit, Option.map_eq_some_iff] at hop'
  obtain ⟨op, hop, rfl⟩ := hop'
  exact ⟨op, hop, hchange i op hlive⟩

theorem isLive_of_modifyBlock {owner : Option OpId} {change : List OpId → List OpId}
    (h : f.modifyBlock owner change = .ok g) {i : OpId} (hi : g.IsLive i) : f.IsLive i := by
  cases owner with
  | none =>
    cases h
    exact hi
  | some id =>
    obtain ⟨-, rfl⟩ := modifyOp_eq_ok.mp h
    refine isLive_of_edit (fun j op hop => ?_) hi
    by_cases hj : j = id
    · rw [hj, changeAt_self] at hop
      exact hop
    · rwa [changeAt_of_ne hj] at hop

/-- A walk starts with the operation that it starts from. -/
theorem mem_walkFrom_self {id : OpId} {ids : List OpId} (h : f.walkFrom id = .ok ids) :
    id ∈ ids := by
  obtain ⟨es, hes, rfl⟩ := walkFrom_eq_ok.mp h
  obtain ⟨op, below, -, -, rfl⟩ := nest_eq_ok.mp hes
  exact List.mem_cons_self

/-- **What is erased is not alive afterwards**, and nothing comes back to life. -/
theorem isLive_of_erase {id : OpId} (h : f.erase id = .ok g) {i : OpId} (hi : g.IsLive i) :
    f.IsLive i ∧ i ≠ id := by
  obtain ⟨op, -, h⟩ := Checked.bind_eq_ok.mp h
  obtain ⟨detached, hdetached, h⟩ := Checked.bind_eq_ok.mp h
  obtain ⟨ids, hids, h⟩ := Checked.bind_eq_ok.mp h
  cases h
  rw [modifyOps_eq] at hi
  constructor
  · refine isLive_of_modifyBlock hdetached (isLive_of_edit (fun j op hop => ?_) hi)
    split at hop
    · cases hop
    · exact hop
  · rintro rfl
    obtain ⟨op', hop', hlive⟩ := hi
    rw [getElem?_ops_edit, Option.map_eq_some_iff] at hop'
    obtain ⟨op, -, rfl⟩ := hop'
    rw [if_pos (mem_walkFrom_self hids)] at hlive
    cases hlive

theorem isLive_of_redirectUses {old new : ValueId} (h : f.redirectUses old new = .ok g) {i : OpId}
    (hi : g.IsLive i) : f.IsLive i := by
  obtain ⟨ids, -, h⟩ := Checked.bind_eq_ok.mp h
  cases h
  rw [modifyOps_eq] at hi
  refine isLive_of_edit (fun j op hop => ?_) hi
  split at hop <;> exact hop

/-- The copy does not outlive its removal. -/
theorem not_isLive_of_dropBuffer {copy buffer : OpId} {old new : ValueId}
    (h : f.dropBuffer copy buffer old new = .ok g) : ¬ g.IsLive copy := by
  obtain ⟨f₁, hcopy, h⟩ := Checked.bind_eq_ok.mp h
  obtain ⟨f₂, hredirect, hbuffer⟩ := Checked.bind_eq_ok.mp h
  intro hlive
  have hlive₂ : f₂.IsLive copy := (isLive_of_erase hbuffer hlive).1
  have hlive₁ : f₁.IsLive copy := isLive_of_redirectUses hredirect hlive₂
  exact (isLive_of_erase hcopy hlive₁).2 rfl

/-- A candidate is left alone, or its copy goes. -/
theorem removeSite_outcome {s : CopySite} {what? : Option CopyRemoval}
    (h : (f.removeSite s).Yields audience (g, what?)) :
    what? = none ∧ g = f ∨ what? ≠ none ∧ ¬ g.IsLive s.copy := by
  unfold removeSite at h
  obtain ⟨target?, -, h⟩ := Traced.yields_bind.mp h
  cases target? with
  | some buffer =>
    obtain ⟨g', hdrop, h⟩ := Traced.yields_bind.mp h
    obtain ⟨_, -, h⟩ := Traced.yields_bind.mp h
    cases Traced.yields_pure.mp h
    exact .inr ⟨nofun, not_isLive_of_dropBuffer (Traced.yields_lift.mp hdrop)⟩
  | none =>
    obtain ⟨source?, -, h⟩ := Traced.yields_bind.mp h
    cases source? with
    | none =>
      cases Traced.yields_pure.mp h
      exact .inl ⟨rfl, rfl⟩
    | some buffer =>
      obtain ⟨heir?, -, h⟩ := Traced.yields_bind.mp h
      cases heir? with
      | none =>
        cases Traced.yields_pure.mp h
        exact .inl ⟨rfl, rfl⟩
      | some heir =>
        obtain ⟨g', hdrop, h⟩ := Traced.yields_bind.mp h
        obtain ⟨_, -, h⟩ := Traced.yields_bind.mp h
        cases Traced.yields_pure.mp h
        exact .inr ⟨nofun, not_isLive_of_dropBuffer (Traced.yields_lift.mp hdrop)⟩

/-- **A copy is left alone, with all else, or it goes.** -/
theorem removeCopy_outcome {copy : OpId} {what? : Option CopyRemoval}
    (h : (f.removeCopy copy).Yields audience (g, what?)) :
    what? = none ∧ g = f ∨ what? ≠ none ∧ ¬ g.IsLive copy := by
  unfold removeCopy at h
  obtain ⟨k, -, h⟩ := Traced.yields_bind.mp h
  cases k with
  | copy source target =>
    obtain ⟨_, -, h⟩ := Traced.yields_bind.mp h
    obtain ⟨s?, hs, h⟩ := Traced.yields_bind.mp h
    cases s? with
    | none =>
      cases Traced.yields_pure.mp h
      exact .inl ⟨rfl, rfl⟩
    | some s =>
      obtain ⟨ordered, -, h⟩ := Traced.yields_bind.mp h
      cases ordered with
      | false =>
        cases Traced.yields_pure.mp h
        exact .inl ⟨rfl, rfl⟩
      | true =>
        obtain ⟨_, -, h⟩ := Traced.yields_bind.mp h
        rw [← (copySite?_eq_some (Traced.yields_lift.mp hs)).1.1]
        exact removeSite_outcome h
  | _ =>
    cases Traced.yields_pure.mp h
    exact .inl ⟨rfl, rfl⟩

theorem removeCopy_refused {copy : OpId} (h : (f.removeCopy copy).Yields audience (g, none)) :
    g = f := by
  rcases removeCopy_outcome h with ⟨-, heq⟩ | ⟨hne, -⟩
  · exact heq
  · exact absurd rfl hne

/-! ## 3. Unrolling and vectorizing -/

/-- **Unrolling refuses exactly the bands without a lane**, and leaves the function alone then. -/
theorem unrollJam_outcome {band : Band} {factors : List Nat} {changed : Bool}
    (h : (f.unrollJam band factors).Yields audience (g, changed)) :
    (changed = false → g = f) ∧
      (changed = false ↔ band.length ≠ factors.length ∨ f.lanesOf band factors = []) := by
  rcases replicateBand_cases (unrollJam_yields h) with
    ⟨rfl, heq, hwhy⟩ | ⟨rfl, hlen, hlanes, -⟩
  · refine ⟨fun _ => heq, iff_of_true rfl ?_⟩
    rcases hwhy with rfl | hlen | hlanes
    · exact .inr rfl
    · exact .inl hlen
    · exact .inr hlanes
  · exact ⟨nofun, iff_of_false nofun (not_or.mpr ⟨not_not.mpr hlen, hlanes⟩)⟩

/-- **Vectorizing refuses exactly the bands with a loop that is not parallel**, unless it is asked
for nothing, and leaves the function alone then. -/
theorem vectorize_outcome {band : Band} {factors : List Nat} {rules : Safeguards} {done : Bool}
    (h : (f.vectorize band factors rules).Yields audience (g, done)) :
    (done = false ∨ factors.all (· == 1) = true → g = f) ∧
      (done = false ↔ factors.all (· == 1) = false ∧
        ∃ id ∈ band, rules.isParallel f id = .ok false) := by
  unfold vectorize at h
  split at h
  · rename_i hones
    cases Traced.yields_pure.mp h
    refine ⟨fun _ => rfl, iff_of_false nofun fun hserial => ?_⟩
    rw [hones] at hserial
    cases hserial.1
  · rename_i hones
    rw [Bool.not_eq_true] at hones
    obtain ⟨serial?, hserial, h⟩ := Traced.yields_bind.mp h
    rw [Traced.yields_lift] at hserial
    cases serial? with
    | some serial =>
      obtain ⟨_, -, h⟩ := Traced.yields_bind.mp h
      cases Traced.yields_pure.mp h
      obtain ⟨hmem, hnot⟩ := Checked.of_findM?_eq_some hserial
      obtain ⟨parallel, hparallel, hnot⟩ := Checked.bind_eq_ok.mp hnot
      cases parallel with
      | true => cases hnot
      | false => exact ⟨fun _ => rfl, iff_of_true rfl ⟨hones, serial, hmem, hparallel⟩⟩
    | none =>
      obtain ⟨⟨g', changed⟩, -, h⟩ := Traced.yields_bind.mp h
      have heq : (g', true) = (g, done) := by cases changed <;> simpa using h
      cases heq
      refine ⟨fun hrefused => ?_, iff_of_false nofun ?_⟩
      · rw [hones] at hrefused
        rcases hrefused with hdone | hall
        · cases hdone
        · cases hall
      · rintro ⟨-, id, hid, hnot⟩
        have hfound := Checked.of_findM?_eq_none hserial id hid
        rw [hnot] at hfound
        cases hfound

/-! ## 4. Parallelizing -/

/-- **Parallelizing refuses because of its settings or because of a budget**, and leaves the
function alone then. -/
theorem parallelize_refused {config : Config} {error : ParallelizeError}
    (h : (f.parallelize config).Yields audience (g, .error error)) :
    g = f ∧ (config.maxUnroll = 0 ∨ ∃ reason,
      (f.budgets .byTripCount config.maxUnroll).Yields audience (.error reason)) := by
  unfold parallelize at h
  split at h
  · rename_i hzero
    cases Traced.yields_pure.mp h
    exact ⟨rfl, .inl hzero⟩
  · obtain ⟨⟨g', outcome⟩, hrun, h⟩ := Traced.yields_bind.mp h
    cases outcome with
    | ok report => cases Traced.yields_pure.mp h
    | error reason =>
      cases Traced.yields_pure.mp h
      obtain ⟨budgets, hbudgets, hrun⟩ := Traced.yields_bind.mp hrun
      cases budgets with
      | error reason' =>
        cases Traced.yields_pure.mp hrun
        exact ⟨rfl, .inr ⟨_, hbudgets⟩⟩
      | ok budgets =>
        obtain ⟨_, -, hrun⟩ := Traced.yields_bind.mp hrun
        obtain ⟨_, -, hrun⟩ := Traced.yields_bind.mp hrun
        obtain ⟨_, -, hrun⟩ := Traced.yields_bind.mp hrun
        cases Traced.yields_pure.mp hrun

/-! ## 5. All transformations -/

/-- **A refused transformation leaves no trace.**  Whatever it was asked for, a tiling, a removal
of a copy, an unrolling, a vectorization or a parallelization that refuses gives back the function
as it was, and so does a vectorization by ones.  A tiling that is granted leaves its point loops, a
removal that is granted a copy that is no longer alive; an unrolling is granted exactly if the band
has a lane, and a vectorization exactly if it asks for nothing or all loops are parallel. -/
theorem refusal_leaves_no_trace (audience : Audience) (f : Func) :
    (∀ (band : Band) (sizes : List Nat) (g : Func) (outcome : Except Reason Band),
      (f.tileBand band sizes).Yields audience (g, outcome) →
        (g = f ↔ band = [] ∨ ∃ reason, outcome = .error reason)) ∧
    (∀ (copy : OpId) (g : Func) (what? : Option CopyRemoval),
      (f.removeCopy copy).Yields audience (g, what?) →
        (what? = none → g = f) ∧ (f.IsLive copy → g = f → what? = none)) ∧
    (∀ (band : Band) (factors : List Nat) (g : Func) (changed : Bool),
      (f.unrollJam band factors).Yields audience (g, changed) →
        (changed = false → g = f) ∧
          (changed = false ↔ band.length ≠ factors.length ∨ f.lanesOf band factors = [])) ∧
    (∀ (band : Band) (factors : List Nat) (rules : Safeguards) (g : Func) (done : Bool),
      (f.vectorize band factors rules).Yields audience (g, done) →
        (done = false ∨ factors.all (· == 1) = true → g = f) ∧
          (done = false ↔ factors.all (· == 1) = false ∧
            ∃ id ∈ band, rules.isParallel f id = .ok false)) ∧
    ∀ (config : Config) (g : Func) (error : ParallelizeError),
      (f.parallelize config).Yields audience (g, .error error) →
        g = f ∧ (config.maxUnroll = 0 ∨ ∃ reason,
          (f.budgets .byTripCount config.maxUnroll).Yields audience (.error reason)) := by
  refine ⟨fun band sizes g outcome h => tileBand_eq_iff h, fun copy g what? h => ?_,
    fun band factors g changed h => unrollJam_outcome h,
    fun band factors rules g done h => vectorize_outcome h,
    fun config g error h => parallelize_refused h⟩
  rcases removeCopy_outcome h with ⟨hnone, heq⟩ | ⟨hsome, hgone⟩
  · exact ⟨fun _ => heq, fun _ _ => hnone⟩
  · refine ⟨fun hnone => absurd hnone hsome, fun hlive heq => ?_⟩
    rw [heq] at hgone
    exact absurd hlive hgone

/-- A node with one loop that nobody knows the end of, around a store that depends on the first
turn, and a copy from an argument to itself. -/
def openLoop : Func where
  name := "f"
  arguments := [0]
  body := [0, 4]
  ops := #[
    { id := 0, kind := .schedule { name := "top", increase := none, decrease := none },
      parent := none, body := [1], erased := false },
    { id := 1, kind := .node "n", parent := some 0, body := [2], erased := false },
    { id := 2, kind := .loop (.plain "i" 0 none 1), parent := some 1, body := [3],
      erased := false },
    { id := 3, kind := .compute { name := "s", lanes := [],
                                  reads := [{ memref := 0, indices := [.const 0] }],
                                  writes := [{ memref := 0, indices := [.iv 2] }] },
      parent := some 2, body := [], erased := false },
    { id := 4, kind := .copy 0 0, parent := none, body := [], erased := false }]
  values := #[{ id := 0, name := "A", shape := [4], space := 0, definition := .argument 0 }]

/-- Every transformation of the open loop is refused. -/
theorem refusal_leaves_no_trace_openLoop : openLoop.verify = .ok () ∧
    (∃ g reason, (openLoop.tileBand [2] [2]).Yields none (g, .error reason) ∧ g = openLoop) ∧
    (∃ g, (openLoop.removeCopy 4).Yields none (g, none) ∧ g = openLoop) ∧
    (∃ g, (openLoop.unrollJam [2] [1]).Yields none (g, false) ∧ g = openLoop) ∧
    (∃ g, (openLoop.vectorize [2] [2] .structural).Yields none (g, false) ∧ g = openLoop) ∧
    (∃ g, (openLoop.vectorize [2] [1] .structural).Yields none (g, true) ∧ g = openLoop) ∧
    ∃ g error, (openLoop.parallelize { maxUnroll := 2 }).Yields none (g, .error error)
      ∧ g = openLoop := by
  obtain ⟨htile, hcopy, hunroll, hvectorize, hparallelize⟩ := refusal_leaves_no_trace none openLoop
  have hy₁ : (openLoop.tileBand [2] [2]).Yields none (_, .error _) := ⟨_, rfl⟩
  have hy₂ : (openLoop.removeCopy 4).Yields none (_, none) := ⟨_, rfl⟩
  have hy₃ : (openLoop.unrollJam [2] [1]).Yields none (_, false) := ⟨_, rfl⟩
  have hy₄ : (openLoop.vectorize [2] [2] .structural).Yields none (_, false) := ⟨_, rfl⟩
  have hy₅ : (openLoop.vectorize [2] [1] .structural).Yields none (_, true) := ⟨_, rfl⟩
  have hy₆ : (openLoop.parallelize { maxUnroll := 2 }).Yields none (_, .error _) := ⟨_, rfl⟩
  refine ⟨by decide, ⟨_, _, hy₁, ?_⟩, ⟨_, hy₂, ?_⟩, ⟨_, hy₃, ?_⟩, ⟨_, hy₄, ?_⟩, ⟨_, hy₅, ?_⟩,
    ⟨_, _, hy₆, ?_⟩⟩
  · exact (htile _ _ _ _ hy₁).mpr (.inr ⟨_, rfl⟩)
  · exact (hcopy _ _ _ hy₂).1 rfl
  · exact (hunroll _ _ _ _ hy₃).1 rfl
  · exact (hvectorize _ _ _ _ _ hy₄).1 (.inl rfl)
  · exact (hvectorize _ _ _ _ _ hy₅).1 (.inr rfl)
  · exact (hparallelize _ _ _ hy₆).1

end Func
end Dataflow
