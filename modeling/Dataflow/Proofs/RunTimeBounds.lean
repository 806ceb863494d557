/-
# Bounds that a run decides

A loop may have an upper bound that is only known at run time.  `Func.withBounds` is the function
as one run sees it: each such loop ends at a given bound, all else is as it was.  A statement about
what a function executes is then one about `f.withBounds uppers` for every choice of bounds.

The nesting, the computes and what stands before what are the same for every choice
(`Func.sameNesting_withBounds`, `Func.kindOf_withBounds_compute_iff`,
`Func.SameNesting.standsBefore_iff`), so only the values of the loops without a bound depend on it.
-/
import Dataflow.Proofs.Sweeps
import Dataflow.Proofs.Timeline

namespace Dataflow

/-! ## 1. One run of a function -/

/-- The loop with a known bound: its own if it has one, the given one if not. -/
def Loop.bounded (upper : Int) (l : Loop) : Loop := { l with upper := some (l.upper.getD upper) }

theorem Loop.bounded_of_upper {l : Loop} {known : Int} (h : l.upper = some known) (upper : Int) :
    l.bounded upper = l := by
  simp only [bounded, h, Option.getD_some]
  rw [← h]

theorem Loop.bounded_of_tripCount {l : Loop} {n : Nat} (h : l.tripCount = some n) (upper : Int) :
    l.bounded upper = l := by
  obtain ⟨known, hknown⟩ := upper_of_tripCount h
  exact bounded_of_upper hknown upper

namespace Func

variable {f g : Func}

/-- An entry with the bound of its loop known. -/
def boundedEntry (uppers : OpId → Int) (id : OpId) (op : Op) : Op :=
  { op with kind := op.kind.mapLoop (Loop.bounded (uppers id)) }

/-- **The function in one run**: a loop whose bound is not known before ends at the given one. -/
def withBounds (f : Func) (uppers : OpId → Int) : Func := f.edit (boundedEntry uppers)

variable (f) (uppers : OpId → Int)

theorem sameNesting_withBounds : f.SameNesting (f.withBounds uppers) :=
  sameNesting_edit (fun _ _ => rfl) (fun _ _ => rfl) fun _ _ => rfl

@[simp] theorem size_ops_withBounds : (f.withBounds uppers).ops.size = f.ops.size :=
  size_ops_edit f _

theorem getElem?_ops_withBounds (i : Nat) :
    (f.withBounds uppers).ops[i]? = f.ops[i]?.map (boundedEntry uppers i) :=
  getElem?_ops_edit f _ i

theorem kindOf_withBounds (id : OpId) : (f.withBounds uppers).kindOf id =
    (f.kindOf id).map (Kind.mapLoop (Loop.bounded (uppers id))) := by
  simp [kindOf, getElem?_ops_withBounds, boundedEntry, Function.comp_def]

variable {f} {uppers}

theorem kindOf_withBounds_loop {id : OpId} {l : Loop} (h : f.kindOf id = some (.loop l)) :
    (f.withBounds uppers).kindOf id = some (.loop (l.bounded (uppers id))) := by
  rw [kindOf_withBounds, h]
  rfl

theorem kindOf_withBounds_compute_iff {id : OpId} {c : Compute} :
    (f.withBounds uppers).kindOf id = some (.compute c) ↔ f.kindOf id = some (.compute c) := by
  rw [kindOf_withBounds]
  cases f.kindOf id with
  | none => simp
  | some k => cases k <;> simp [Kind.mapLoop]

theorem of_kindOf_withBounds_loop {id : OpId} {l : Loop}
    (h : (f.withBounds uppers).kindOf id = some (.loop l)) :
    ∃ old, f.kindOf id = some (.loop old) ∧ l = old.bounded (uppers id) := by
  rw [kindOf_withBounds, Option.map_eq_some_iff] at h
  obtain ⟨k, hk, hl⟩ := h
  cases k with
  | loop old => exact ⟨old, hk, (Kind.loop.inj hl).symm⟩
  | _ => cases hl

theorem isLoop_withBounds {id : OpId} : (f.withBounds uppers).IsLoop id ↔ f.IsLoop id := by
  constructor
  · rintro ⟨l, hl⟩
    obtain ⟨old, hold, -⟩ := of_kindOf_withBounds_loop hl
    exact ⟨old, hold⟩
  · rintro ⟨l, hl⟩
    exact ⟨_, kindOf_withBounds_loop hl⟩

theorem around_withBounds {l id : OpId} : (f.withBounds uppers).Around l id ↔ f.Around l id := by
  rw [Around, Around, isLoop_withBounds, (sameNesting_withBounds f uppers).above_iff]

theorem staticBounds_withBounds (f : Func) (uppers : OpId → Int) :
    (f.withBounds uppers).StaticBounds := by
  intro id l _ hl
  obtain ⟨old, -, rfl⟩ := of_kindOf_withBounds_loop hl
  rfl

theorem PerfectNest.withBounds {band : Band} (h : f.PerfectNest band) (uppers : OpId → Int) :
    (f.withBounds uppers).PerfectNest band where
  reaches := fun id hid => (sameNesting_withBounds f uppers).reaches (h.reaches id hid)
  isLoop := fun id hid => isLoop_withBounds.mpr (h.isLoop id hid)
  chain := by
    have hbody := (sameNesting_withBounds f uppers).bodyOf
    simp only [hbody]
    exact h.chain

/-- **A run of a function in order is one.** -/
theorem Tidy.withBounds (h : f.Tidy) (uppers : OpId → Int) : (f.withBounds uppers).Tidy := by
  have hsame := sameNesting_withBounds f uppers
  refine
    { toTablesAgree := h.toTablesAgree.transfer rfl rfl (fun i op hop => ?_) fun i op hop => ?_
      toNested := hsame.nested h.toNested
      mentions := fun id op hid hop => ?_ }
  · rw [getElem?_ops_withBounds, Option.map_eq_some_iff] at hop
    obtain ⟨old, hold, rfl⟩ := hop
    exact h.opSlots i old hold
  · refine ⟨boundedEntry uppers i op, ?_, result?_changeLoop (some _) op.kind⟩
    rw [getElem?_ops_withBounds, hop]
    rfl
  · rw [getElem?_ops_withBounds, Option.map_eq_some_iff] at hop
    obtain ⟨old, hold, rfl⟩ := hop
    have hment := h.mentions id old (hsame.reaches_iff.mp hid) hold
    refine hment.transfer rfl (fun d => (hsame.isLive d).mpr)
      (operands_changeLoop (some _) old.kind) (result?_changeLoop (some _) old.kind)
      (fun l hl => ?_) fun c hc l hl => ?_
    · obtain ⟨l', hk, rfl⟩ := @of_changeLoop_eq_loop (some _) _ _ hl
      obtain ⟨hpos, htile⟩ := hment.loop l' hk
      exact ⟨hpos, fun tile ht => isLoop_withBounds.mpr (htile tile ht)⟩
    · have hk : old.kind = .compute c := @of_changeLoop_eq_compute (some _) _ _ hc
      obtain ⟨hloop, hup⟩ := hment.compute c hk l hl
      exact ⟨isLoop_withBounds.mpr hloop, hsame.above_iff.mpr hup⟩

/-! ## 2. The order of its executions -/

theorem SameNesting.standsBefore_iff (h : f.SameNesting g) {a b : OpId} :
    g.StandsBefore a b ↔ f.StandsBefore a b := by
  have hblock : ∀ owner, g.blockOf owner = f.blockOf owner := by
    intro owner
    cases owner with
    | none => exact h.body
    | some owner => exact h.bodyOf owner
  simp only [StandsBefore, PartsBefore, Earlier, h.above_iff, h.parentOf, hblock]

end Func
end Dataflow
