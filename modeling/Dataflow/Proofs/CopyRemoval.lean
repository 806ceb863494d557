/-
# The removal of all copies

The pass goes over the copies of a compact function again and again, and each removal on the way
is a merge.  `Func.Removes` is a run of removals; what a merge does to a function adds up along
it.  So the pass always gives a result, leaves a function in order unless it removed a copy from a
buffer to itself beside a view of the buffer, and leaves every operand with a root unless it
removed a copy between a buffer and a view of it (`Func.removeCopies_keeps_order_iff`).
-/
import Dataflow.Proofs.Acceptance
import Dataflow.Proofs.CopySites

namespace Dataflow

/-- The removal of a copy: the function it was removed from, the copy, and what was done. -/
structure Removal where
  before : Func
  copy : OpId
  what : CopyRemoval

namespace Removal

/-- The buffer took its own place, and a view of it is left. -/
def Dangles (m : Removal) : Prop :=
  m.what.replacement = m.what.buffer ∧ m.before.HasView m.what.buffer

/-- A view of the buffer took its place. -/
def Circles (m : Removal) : Prop :=
  m.what.replacement ≠ m.what.buffer
    ∧ m.before.root m.what.replacement = .ok (some m.what.buffer)

end Removal

namespace Func

variable {f g h : Func} {audience : Audience}

/-! ## 1. Runs -/

/-- `Removes audience f ms g`: removing copies that are there, one after another, leads from `f`
to `g`. -/
inductive Removes (audience : Audience) : Func → List Removal → Func → Prop
  | done (f : Func) : Removes audience f [] f
  | step {f g h : Func} {copy : OpId} {what : CopyRemoval} {rest : List Removal} :
      f.IsLive copy → (f.removeCopy copy).Yields audience (g, some what) →
      Removes audience g rest h → Removes audience f (⟨f, copy, what⟩ :: rest) h

theorem Removes.append {ms ms' : List Removal} (hfg : Removes audience f ms g)
    (hgh : Removes audience g ms' h) : Removes audience f (ms ++ ms') h := by
  induction hfg with
  | done => exact hgh
  | step hlive hyields _ ih => exact .step hlive hyields (ih hgh)

/-- **A step of a run is a merge.** -/
theorem Compact.merge_of_yields (hf : f.Compact) {copy : OpId} {what : CopyRemoval}
    (hlive : f.IsLive copy) (hyields : (f.removeCopy copy).Yields audience (g, some what)) :
    ∃ buffer, f.Merge copy buffer what.buffer what.replacement g := by
  obtain ⟨g', what?, hyields', houtcome⟩ := hf.removeCopy_yields (hf.reached copy hlive) audience
  cases hyields.unique hyields'
  cases houtcome with
  | merged hmerge => exact ⟨_, hmerge⟩

/-- **What merges do adds up along a run.** -/
theorem Removes.spec {ms : List Removal} (hrun : Removes audience f ms g) : f.Compact →
    g.Compact ∧ (g.Tidy ↔ f.Tidy ∧ ∀ m ∈ ms, ¬ m.Dangles)
      ∧ (g.Resolves ↔ f.Resolves ∧ ∀ m ∈ ms, ¬ m.Circles) := by
  induction hrun with
  | done f => exact fun hf => ⟨hf, by simp, by simp⟩
  | @step f g h copy what rest hlive hyields _ ih =>
    intro hf
    obtain ⟨buffer, hmerge⟩ := hf.merge_of_yields hlive hyields
    obtain ⟨hcompact, htidy, hresolves⟩ := ih hmerge.compact_after
    refine ⟨hcompact, ?_, ?_⟩
    · rw [htidy, hmerge.tidy_iff, List.forall_mem_cons, and_assoc]
      rfl
    · rw [hresolves, hmerge.resolves_iff, List.forall_mem_cons, and_assoc]
      rfl

/-- A run adds no operation. -/
theorem Removes.reaches_before {ms : List Removal} (hrun : Removes audience f ms g) :
    f.Compact → ∀ {id : OpId}, g.Reaches id → f.Reaches id := by
  induction hrun with
  | done => exact fun _ _ hid => hid
  | step hlive hyields _ ih =>
    intro hcompact id hid
    obtain ⟨buffer, hmerge⟩ := hcompact.merge_of_yields hlive hyields
    exact ((hmerge.effect.reaches id).mp (ih hmerge.compact_after hid)).1

/-! ## 2. The pass -/

/-- Trying the copies of a list gives a result, by a run. -/
theorem Compact.removeListed_yields (audience : Audience) : ∀ {copies : List OpId} {f : Func},
    f.Compact → (∀ copy ∈ copies, ∃ k, f.kindOf copy = some k) →
    ∃ g ms, (removeListed f copies).Yields audience (g, ms.length) ∧ Removes audience f ms g
  | [], f, _, _ => ⟨f, [], Traced.yields_pure.mpr rfl, .done f⟩
  | copy :: copies, f, hf, hcopies => by
    obtain ⟨⟨k, hk⟩, hcopies⟩ := List.forall_mem_cons.mp hcopies
    obtain ⟨op, hop, rfl⟩ := Option.map_eq_some_iff.mp hk
    unfold removeListed
    simp only [Traced.yields_lift_bind (op_eq_ok_iff.mpr hop)]
    cases herased : op.erased with
    | true => exact hf.removeListed_yields audience hcopies
    | false =>
      have hlive : f.IsLive copy := ⟨op, hop, herased⟩
      obtain ⟨g, what?, hyields, houtcome⟩ :=
        hf.removeCopy_yields (hf.reached copy hlive) audience
      cases houtcome with
      | kept =>
        obtain ⟨g, ms, hrest, hrun⟩ := hf.removeListed_yields audience hcopies
        exact ⟨g, ms, Traced.yields_bind.mpr ⟨_, hyields, Traced.yields_bind.mpr
          ⟨_, hrest, Traced.yields_pure.mpr rfl⟩⟩, hrun⟩
      | @merged what buffer g hmerge =>
        have hcopies' : ∀ copy ∈ copies, ∃ k, g.kindOf copy = some k := fun id hid => by
          obtain ⟨k, hk⟩ := hcopies id hid
          obtain ⟨τ, k', hk', -⟩ := hmerge.effect.kind id k hk
          exact ⟨k', hk'⟩
        obtain ⟨h, ms, hrest, hrun⟩ :=
          hmerge.compact_after.removeListed_yields audience hcopies'
        exact ⟨h, ⟨f, copy, what⟩ :: ms, Traced.yields_bind.mpr ⟨_, hyields,
          Traced.yields_bind.mpr ⟨_, hrest, Traced.yields_pure.mpr rfl⟩⟩, .step hlive hyields hrun⟩

/-- So do any number of rounds. -/
theorem Compact.removeRounds_yields (audience : Audience) : ∀ (rounds : Nat) {f : Func}, f.Compact →
    ∃ g ms, (removeRounds rounds f).Yields audience (g, ms.length) ∧ Removes audience f ms g
  | 0, f, _ => ⟨f, [], Traced.yields_pure.mpr rfl, .done f⟩
  | rounds + 1, f, hf => by
    obtain ⟨es, hes⟩ := hf.entries_isOk
    have hcopies : f.findAll (·.kind.isCopy)
        = .ok ((es.filter fun e => e.2.kind.isCopy).map Prod.fst) := by
      rw [findAll, hes]
      rfl
    obtain ⟨g, ms, hlisted, hrun⟩ := hf.removeListed_yields audience fun id hid => by
      obtain ⟨-, op, hop, -⟩ := (hf.mem_findAll hcopies).mp hid
      exact ⟨op.kind, kindOf_eq hop⟩
    unfold removeRounds
    simp only [Traced.yields_lift_bind hcopies]
    by_cases hnone : ms.length = 0
    · cases List.length_eq_zero_iff.mp hnone
      exact ⟨g, [], Traced.yields_bind.mpr ⟨_, hlisted, Traced.yields_pure.mpr rfl⟩, hrun⟩
    · obtain ⟨h, ms', hrest, hrun'⟩ := (hrun.spec hf).1.removeRounds_yields audience rounds
      refine ⟨h, ms ++ ms', Traced.yields_bind.mpr ⟨_, hlisted, ?_⟩, hrun.append hrun'⟩
      simp only [if_neg hnone]
      exact Traced.yields_bind.mpr
        ⟨_, hrest, Traced.yields_pure.mpr (by rw [List.length_append])⟩

/-- **So does the whole pass.** -/
theorem Compact.removeCopies_yields (hf : f.Compact) (audience : Audience) :
    ∃ g ms, f.removeCopies.Yields audience (g, ms.length) ∧ Removes audience f ms g := by
  obtain ⟨g, ms, hrounds, hrun⟩ := hf.removeRounds_yields audience (f.ops.size + 1)
  exact ⟨g, ms, Traced.yields_bind.mpr ⟨_, hrounds, Traced.yields_bind.mpr
    ⟨(), Traced.yields_say, Traced.yields_pure.mpr rfl⟩⟩, hrun⟩

/-- **The pass gives a result on every function in order with nothing live unreached and nothing
nested in leaves.**  The result is in order exactly when no copy was removed that goes from a
buffer to itself while a view of the buffer is left, and all its operands have roots exactly when
they had and no copy was removed that goes between a buffer and a view of it. -/
theorem removeCopies_keeps_order_iff (audience : Audience) (f : Func) (hf : f.verify = .ok ())
    (hreached : ∀ id, f.IsLive id → f.Reaches id)
    (hleaves : ∀ id k, f.kindOf id = some k → k.isLeaf = true → f.bodyOf id = []) :
    ∃ (g : Func) (ms : List Removal), f.removeCopies.Yields audience (g, ms.length)
      ∧ Removes audience f ms g
      ∧ (g.verify = .ok () ↔ ∀ m ∈ ms, ¬ m.Dangles)
      ∧ (g.Resolves ↔ f.Resolves ∧ ∀ m ∈ ms, ¬ m.Circles) := by
  have htidy : f.Tidy := verify_eq_ok_iff_tidy.mp hf
  have hcompact : f.Compact := htidy.compact hreached hleaves
  obtain ⟨g, ms, hyields, hrun⟩ := hcompact.removeCopies_yields audience
  obtain ⟨-, horder, hresolves⟩ := hrun.spec hcompact
  refine ⟨g, ms, hyields, hrun, ?_, hresolves⟩
  rw [verify_eq_ok_iff_tidy, horder]
  exact and_iff_right htidy

/-- Where the top level lists all slots, all live operations are reached. -/
theorem reaches_of_body_eq (h : f.body = List.range f.ops.size) {id : OpId} (hid : f.IsLive id) :
    f.Reaches id := by
  obtain ⟨op, hop, -⟩ := hid
  exact .top (h ▸ List.mem_range.mpr (lt_size_of_some hop))

theorem bodyOf_eq_nil (h : f.ops.toList.all fun op => op.body.isEmpty) (id : OpId) :
    f.bodyOf id = [] := by
  rw [bodyOf]
  cases hop : f.ops[id]? with
  | none => rfl
  | some op =>
    have := List.all_eq_true.mp h op (Array.mem_toList_iff.mpr (Array.mem_of_getElem? hop))
    simpa using this

/-- A buffer, a view of it, and a copy from the buffer to one of the two. -/
def copyOnto (target : ValueId) : Func where
  name := "f"
  arguments := []
  body := List.range 3
  ops := #[fresh none 0 (.buffer 0 none), fresh none 1 (.view 0 1), fresh none 2 (.copy 0 target)]
  values := #[{ id := 0, name := "t", shape := [4], space := 0, definition := .op 0 },
              { id := 1, name := "v", shape := [4], space := 0, definition := .op 1 }]

theorem copyOnto_reaches (target : ValueId) {id : OpId} (h : (copyOnto target).IsLive id) :
    (copyOnto target).Reaches id := reaches_of_body_eq rfl h

theorem copyOnto_bodyOf (target : ValueId) (id : OpId) : (copyOnto target).bodyOf id = [] :=
  bodyOf_eq_nil rfl id

theorem copyOnto_resolves {target : ValueId} (h : target < 2) : (copyOnto target).Resolves := by
  have hroot : ∀ v < 2, (copyOnto target).root v = .ok (some 0) := by
    intro v hv
    match v, hv with
    | 0, _ => rfl
    | 1, _ => rfl
  intro id k hid hk v hv
  refine ⟨0, hroot v ?_⟩
  rcases id with _ | _ | _ | id <;> simp [kindOf, copyOnto, fresh] at hk <;> subst hk
  · cases hv
  · cases List.mem_singleton.mp hv
    decide
  · rcases List.mem_pair.mp hv with rfl | rfl
    · decide
    · exact h

/-- The copy from the buffer to itself goes, and the view is left of nothing; the copy from the
buffer to the view goes, and the view is left of itself. -/
theorem removeCopies_copyOnto :
    (∃ (g : Func) (ms : List Removal), (copyOnto 0).removeCopies.Yields none (g, ms.length)
      ∧ g.verify ≠ .ok () ∧ ∃ m ∈ ms, m.Dangles)
    ∧ ∃ (g : Func) (ms : List Removal), (copyOnto 1).removeCopies.Yields none (g, ms.length)
      ∧ ¬ g.Resolves ∧ ∃ m ∈ ms, m.Circles := by
  constructor
  · obtain ⟨g, ms, ⟨journal, hrun⟩, -, horder, -⟩ := removeCopies_keeps_order_iff none (copyOnto 0)
      (by decide) (fun _ => copyOnto_reaches 0) fun id _ _ _ => copyOnto_bodyOf 0 id
    have hverify : (match (copyOnto 0).removeCopies.run none with
        | .ok r => decide (r.1.1.verify ≠ .ok ())
        | .error _ => false) = true := by decide +kernel
    rw [hrun, decide_eq_true_iff] at hverify
    refine ⟨g, ms, ⟨journal, hrun⟩, hverify, ?_⟩
    simpa using mt horder.mpr hverify
  · obtain ⟨g, ms, ⟨journal, hrun⟩, -, -, hresolves⟩ := removeCopies_keeps_order_iff none
      (copyOnto 1) (by decide) (fun _ => copyOnto_reaches 1) fun id _ _ _ => copyOnto_bodyOf 1 id
    have hview : (match (copyOnto 1).removeCopies.run none with
        | .ok r => decide (r.1.1.body = [1] ∧ r.1.1.kindOf 1 = some (.view 1 1)
            ∧ r.1.1.root 1 = .ok none)
        | .error _ => false) = true := by decide +kernel
    rw [hrun, decide_eq_true_iff] at hview
    obtain ⟨hbody, hkind, hroot⟩ :
      g.body = [1] ∧ g.kindOf 1 = some (.view 1 1) ∧ g.root 1 = .ok none := hview
    have hnot : ¬ g.Resolves := fun hg => by
      obtain ⟨r, hr⟩ := hg 1 _ (.top (by simp [hbody])) hkind 1 List.mem_cons_self
      rw [hroot] at hr
      cases hr
    refine ⟨g, ms, ⟨journal, hrun⟩, hnot, ?_⟩
    simpa [copyOnto_resolves] using mt hresolves.mpr hnot

end Func
end Dataflow
