/-
# Definition before use

A function is *scoped* when every operand of a reached operation is defined by an operation that
dominates it, or is an argument (`Func.Scoped`).

Rewriting keeps the operations that are left in their order, so it keeps dominance between them
(`Func.Rewritten.dominates_iff`).  The removal of a copy checks that the users of the buffer that
goes see what takes its place, but the users that it asks are those at the ends of views, and the
views of the buffer are redirected as well.  So everything but views stays scoped, and a view is
left before the definition of its source exactly when the removal hid it
(`Func.removeCopies_scoped_iff`).
-/
import Mathlib.Data.List.NodupEquivFin
import Dataflow.Proofs.CopyRemoval

namespace Dataflow
namespace Func

variable {f g : Func}

/-- `f.Sees id v`: the operation that defines `v`, if one does, dominates the one in slot `id`. -/
def Sees (f : Func) (id : OpId) (v : ValueId) : Prop :=
  ∀ d, f.definerOf v = some d → f.dominates d id = .ok true

/-- **Every operand is defined before its use.** -/
def Scoped (f : Func) : Prop :=
  ∀ id k, f.Reaches id → f.kindOf id = some k → ∀ v ∈ k.operands, f.Sees id v

/-- Every operand is, but for those of views. -/
def ScopedButViews (f : Func) : Prop :=
  ∀ id k, f.Reaches id → f.kindOf id = some k → viewResult? k = none → ∀ v ∈ k.operands, f.Sees id v

/-- A view of `old` is left that does not see `new`, or sees it only as what goes. -/
def Hides (f : Func) (old new : ValueId) : Prop :=
  ∃ id result, f.Reaches id ∧ f.kindOf id = some (.view old result) ∧ (f.Sees id new → new = old)

/-! ## 1. Rewriting keeps the order -/

namespace Rewritten

variable {gone : OpId → Prop} {σ : ValueId → ValueId} {a b : OpId}

theorem above_iff (hg : f.Rewritten gone σ g) : g.Above a b ↔ f.Above a b := by
  have heq : g.IsParent = f.IsParent := by
    funext parent id
    rw [IsParent, IsParent, hg.parentOf]
  rw [Above, Above, heq]

theorem earlier_before (hg : f.Rewritten gone σ g) (hab : g.Earlier a b) : f.Earlier a b := by
  obtain ⟨hparent, i, j, hij, hi, hj⟩ := hab
  rw [hg.parentOf, hg.parentOf] at hparent
  rw [hg.parentOf] at hi hj
  obtain ⟨place, hplace⟩ :=
    List.sublist_iff_exists_orderEmbedding_getElem?_eq.mp (hg.blocks (f.parentOf a))
  exact ⟨hparent, place i, place j, place.strictMono hij, (hplace i).symm.trans hi,
    (hplace j).symm.trans hj⟩

/-- **What is left of a block is in the order it was in.** -/
theorem earlier_iff (hg : f.Rewritten gone σ g) (hf : f.Nested) (ha : g.Reaches a)
    (hb : g.Reaches b) : g.Earlier a b ↔ f.Earlier a b := by
  refine ⟨hg.earlier_before, fun hab => ?_⟩
  have ha' := ((hg.reaches a).mp ha).1
  have hparent : g.parentOf b = g.parentOf a := by
    rw [hg.parentOf, hg.parentOf]
    exact hab.1
  have hmem := (hg.nested.mem_blockOf ha).1
  have hmem' := (hg.nested.mem_blockOf hb).1
  rw [hparent] at hmem'
  obtain ⟨i, hi⟩ := List.mem_iff_getElem?.mp hmem
  obtain ⟨j, hj⟩ := List.mem_iff_getElem?.mp hmem'
  -- The other order would be the other order in the old block too.
  rcases Nat.lt_trichotomy i j with hij | rfl | hji
  · exact ⟨hparent, i, j, hij, hi, hj⟩
  · exact absurd (Option.some.inj (hi.symm.trans hj)) (hf.ne_of_earlier ha' hab)
  · have hba : g.Earlier b a := ⟨hparent.symm, j, i, hji, hparent ▸ hj, hparent ▸ hi⟩
    exact absurd (hg.earlier_before hba) fun hba' => hf.not_earlier_both ha' hab hba'

/-- **What is left is dominated by what is left of what dominated it.** -/
theorem dominates_iff (hg : f.Rewritten gone σ g) (hf : f.Nested) (hb : g.Reaches b) :
    g.dominates a b = .ok true ↔ f.dominates a b = .ok true ∧ ¬ gone a := by
  rw [hg.nested.dominates_iff hb, hf.dominates_iff ((hg.reaches b).mp hb).1, hg.reaches]
  constructor
  · rintro ⟨⟨ha, hgone⟩, hcase⟩
    refine ⟨⟨ha, ?_⟩, hgone⟩
    rcases hcase with hup | ⟨current, hup, hearlier⟩
    · exact .inl (hg.above_iff.mp hup)
    · exact .inr ⟨current, hg.above_iff.mp hup, hg.earlier_before hearlier⟩
  · rintro ⟨⟨ha, hcase⟩, hgone⟩
    refine ⟨⟨ha, hgone⟩, ?_⟩
    rcases hcase with hup | ⟨current, hup, hearlier⟩
    · exact .inl (hg.above_iff.mpr hup)
    · have hup' := hg.above_iff.mpr hup
      exact .inr ⟨current, hup', (hg.earlier_iff hf ((hg.reaches a).mpr ⟨ha, hgone⟩)
        (hg.nested.reaches_of_above hup' hb)).mpr hearlier⟩

end Rewritten

/-! ## 2. One removal -/

namespace Merge

variable {copy buffer : OpId} {old new : ValueId}

/-- **What is left sees what it saw**, except for the value that went. -/
theorem sees_iff (h : f.Merge copy buffer old new g) {id : OpId} (hid : g.Reaches id)
    {v : ValueId} : g.Sees id v ↔ f.Sees id v ∧ v ≠ old := by
  constructor
  · intro hsees
    have hboth : ∀ d, f.definerOf v = some d → f.dominates d id = .ok true
        ∧ ¬ (d = copy ∨ d = buffer) := fun d hd =>
      (h.effect.dominates_iff h.compact.toNested hid).mp (hsees d ((h.effect.definerOf v).trans hd))
    refine ⟨fun d hd => (hboth d hd).1, ?_⟩
    rintro rfl
    exact (hboth buffer h.definerOf_old).2 (.inr rfl)
  · rintro ⟨hsees, hne⟩ d hd
    rw [h.effect.definerOf] at hd
    refine (h.effect.dominates_iff h.compact.toNested hid).mpr ⟨hsees d hd, ?_⟩
    rintro (hcopy | hbuffer)
    · exact h.ne_copy hd hcopy
    · exact h.ne_buffer hd hne hbuffer

/-- A user of the redirected value that is no view sees what took its place. -/
theorem sees_new (h : f.Merge copy buffer old new g) {id : OpId} {k : Kind} (hid : g.Reaches id)
    (hk : f.kindOf id = some k) (hv : old ∈ k.operands) (hview : viewResult? k = none) :
    g.Sees id new := by
  obtain ⟨hid', hgone⟩ := (h.effect.reaches id).mp hid
  refine (h.sees_iff hid).mpr ⟨fun d hd => h.visible d hd id k hid' hk hv hview, fun heq => ?_⟩
  exact hgone (.inl (h.alone heq id k hid' hk hv hview))

/-- **Everything but views stays scoped.** -/
theorem scopedButViews (h : f.Merge copy buffer old new g) (hf : f.ScopedButViews) :
    g.ScopedButViews := by
  intro id k' hid hk' hview v' hv'
  obtain ⟨k, hid', hk, hred⟩ := h.effect.kind_before hid h.compact.toNested hk'
  rw [hred.viewResult?] at hview
  rw [hred.operands_eq] at hv'
  obtain ⟨v, hv, rfl⟩ := List.mem_map.mp hv'
  by_cases hold : v = old
  · subst hold
    rw [redirection_old]
    exact h.sees_new hid hk hv hview
  · rw [redirection_of_ne hold]
    exact (h.sees_iff hid).mpr ⟨hf id k hid' hk hview v hv, hold⟩

end Merge

theorem Scoped.butViews (hf : f.Scoped) : f.ScopedButViews :=
  fun id k hid hk _ => hf id k hid hk

/-- Besides, there are only the views. -/
theorem scoped_iff : f.Scoped ↔ f.ScopedButViews ∧
    ∀ id source result, f.Reaches id → f.kindOf id = some (.view source result) →
      f.Sees id source := by
  refine ⟨fun hf => ⟨hf.butViews, fun id source result hid hk => ?_⟩, ?_⟩
  · exact hf id _ hid hk source List.mem_cons_self
  · rintro ⟨hbut, hviews⟩ id k hid hk v hv
    cases k with
    | view source result =>
      cases List.mem_singleton.mp hv
      exact hviews id v result hid hk
    | _ => exact hbut id _ hid hk rfl v hv

/-- **A removal leaves a scoped function scoped exactly when it hides no view.** -/
theorem Merge.scoped_iff {copy buffer : OpId} {old new : ValueId}
    (h : f.Merge copy buffer old new g) (hf : f.Scoped) : g.Scoped ↔ ¬ f.Hides old new := by
  rw [Func.scoped_iff, and_iff_right (h.scopedButViews hf.butViews)]
  constructor
  · rintro hviews ⟨id, result, hid, hk, hhides⟩
    obtain ⟨hid', hk'⟩ := h.view_after hid hk
    rw [redirection_old] at hk'
    obtain ⟨hsees, hne⟩ := (h.sees_iff hid').mp (hviews id new result hid' hk')
    exact hne (hhides hsees)
  · intro hnot id source result hid hk
    obtain ⟨source', hid', hk', rfl⟩ := h.view_before hid hk
    refine (h.sees_iff hid).mpr ?_
    by_cases hold : source' = old
    · subst hold
      rw [redirection_old]
      by_contra hcon
      exact hnot ⟨id, result, hid', hk', fun hsees => not_not.mp fun hne => hcon ⟨hsees, hne⟩⟩
    · rw [redirection_of_ne hold]
      exact ⟨hf id _ hid' hk' source' List.mem_cons_self, hold⟩

end Func

/-! ## 3. Runs -/

/-- The removal hides a view of the buffer from what took its place. -/
def Removal.Hides (m : Removal) : Prop := m.before.Hides m.what.buffer m.what.replacement

/-- What a value is called after removals, one after another. -/
def renamed : List Removal → ValueId → ValueId
  | [], v => v
  | m :: ms, v => renamed ms (redirection m.what.buffer m.what.replacement v)

namespace Func

variable {f g : Func} {audience : Audience} {ms : List Removal}

namespace Removes

theorem scopedButViews (hrun : Removes audience f ms g) :
    f.Compact → f.ScopedButViews → g.ScopedButViews := by
  induction hrun with
  | done => exact fun _ hf => hf
  | step hlive hyields _ ih =>
    intro hcompact hf
    obtain ⟨buffer, hmerge⟩ := hcompact.merge_of_yields hlive hyields
    exact ih hmerge.compact_after (hmerge.scopedButViews hf)

/-- A view keeps its place and gets its source renamed. -/
theorem view_after (hrun : Removes audience f ms g) : f.Compact → ∀ {id : OpId}
    {source result : ValueId}, f.Reaches id → f.kindOf id = some (.view source result) →
      g.Reaches id ∧ g.kindOf id = some (.view (renamed ms source) result) := by
  induction hrun with
  | done => exact fun _ _ _ _ hid hk => ⟨hid, hk⟩
  | step hlive hyields _ ih =>
    intro hcompact id source result hid hk
    obtain ⟨buffer, hmerge⟩ := hcompact.merge_of_yields hlive hyields
    obtain ⟨hid', hk'⟩ := hmerge.view_after hid hk
    exact ih hmerge.compact_after hid' hk'

/-- No view is new. -/
theorem view_before (hrun : Removes audience f ms g) : f.Compact → ∀ {id : OpId}
    {source' result : ValueId}, g.Reaches id → g.kindOf id = some (.view source' result) →
      ∃ source, f.Reaches id ∧ f.kindOf id = some (.view source result)
        ∧ source' = renamed ms source := by
  induction hrun with
  | done => exact fun _ _ _ _ hid hk => ⟨_, hid, hk, rfl⟩
  | step hlive hyields _ ih =>
    intro hcompact id source' result hid hk
    obtain ⟨buffer, hmerge⟩ := hcompact.merge_of_yields hlive hyields
    obtain ⟨source, hid', hk', rfl⟩ := ih hmerge.compact_after hid hk
    obtain ⟨source', hid'', hk'', rfl⟩ := hmerge.view_before hid' hk'
    exact ⟨source', hid'', hk'', rfl⟩

/-- **What is left sees what it saw**, except for the values that went. -/
theorem sees_iff (hrun : Removes audience f ms g) : f.Compact → ∀ {id : OpId}, g.Reaches id →
    ∀ {v : ValueId}, g.Sees id v ↔ f.Sees id v ∧ ∀ m ∈ ms, v ≠ m.what.buffer := by
  induction hrun with
  | done => exact fun _ _ _ _ => by simp
  | step hlive hyields hrest ih =>
    intro hcompact id hid v
    obtain ⟨buffer, hmerge⟩ := hcompact.merge_of_yields hlive hyields
    have hid' := hrest.reaches_before hmerge.compact_after hid
    rw [ih hmerge.compact_after hid, hmerge.sees_iff hid', List.forall_mem_cons, and_assoc]

/-- **The functions along a run are scoped exactly when the first is and no removal hides a
view.** -/
theorem scoped_iff (hrun : Removes audience f ms g) : f.Compact →
    ((∀ m ∈ ms, m.before.Scoped) ∧ g.Scoped ↔ f.Scoped ∧ ∀ m ∈ ms, ¬ m.Hides) := by
  induction hrun with
  | done => exact fun _ => by simp
  | @step f g h copy what rest hlive hyields hrest ih =>
    intro hcompact
    obtain ⟨buffer, hmerge⟩ := hcompact.merge_of_yields hlive hyields
    rw [List.forall_mem_cons, List.forall_mem_cons, and_assoc, ih hmerge.compact_after]
    refine and_congr_right fun hf => ?_
    rw [hmerge.scoped_iff hf]
    rfl

end Removes

/-- **Removing copies keeps definition before use for all but views.**  The views keep it exactly
when each sees what its source is called in the end, and that has not gone; and the functions
along the way keep it exactly when no removal hides a view from what took the buffer's place. -/
theorem removeCopies_scoped_iff (audience : Audience) (f : Func) (hf : f.verify = .ok ())
    (hreached : ∀ id, f.IsLive id → f.Reaches id)
    (hleaves : ∀ id k, f.kindOf id = some k → k.isLeaf = true → f.bodyOf id = [])
    (hscoped : f.Scoped) :
    ∃ (g : Func) (ms : List Removal), f.removeCopies.Yields audience (g, ms.length)
      ∧ Removes audience f ms g
      ∧ g.ScopedButViews
      ∧ (g.Scoped ↔ ∀ id source result, f.Reaches id → f.kindOf id = some (.view source result) →
          f.Sees id (renamed ms source) ∧ ∀ m ∈ ms, renamed ms source ≠ m.what.buffer)
      ∧ ((∀ m ∈ ms, m.before.Scoped) ∧ g.Scoped ↔ ∀ m ∈ ms, ¬ m.Hides) := by
  have hcompact : f.Compact := (verify_eq_ok_iff_tidy.mp hf).compact hreached hleaves
  obtain ⟨g, ms, hyields, hrun⟩ := hcompact.removeCopies_yields audience
  have hbut := hrun.scopedButViews hcompact hscoped.butViews
  refine ⟨g, ms, hyields, hrun, hbut, ?_, ?_⟩
  · rw [scoped_iff, and_iff_right hbut]
    constructor
    · intro hviews id source result hid hk
      obtain ⟨hid', hk'⟩ := hrun.view_after hcompact hid hk
      exact (hrun.sees_iff hcompact hid').mp (hviews id _ result hid' hk')
    · intro hviews id source' result hid hk
      obtain ⟨source, hid', hk', rfl⟩ := hrun.view_before hcompact hid hk
      exact (hrun.sees_iff hcompact hid).mpr (hviews id source result hid' hk')
  · rw [hrun.scoped_iff hcompact, and_iff_right hscoped]

theorem scoped_of_all (h : f.ops.toList.zipIdx.all fun (op, id) => op.kind.operands.all fun v =>
      (f.definerOf v).all fun d => decide (f.dominates d id = .ok true)) : f.Scoped := by
  intro id k _ hk v hv d hd
  obtain ⟨op, hop, rfl⟩ := Option.map_eq_some_iff.mp hk
  have hmem : (op, id) ∈ f.ops.toList.zipIdx := by
    rw [List.mem_zipIdx_iff_getElem?, Array.getElem?_toList]
    exact hop
  have hall := List.all_eq_true.mp (List.all_eq_true.mp h _ hmem) v hv
  rw [hd] at hall
  exact of_decide_eq_true hall

/-- A view of a buffer stands before another buffer and a view of that one; the second view is
copied to the first buffer. -/
def viewAhead : Func where
  name := "f"
  arguments := []
  body := List.range 7
  ops := #[
    fresh none 0 (.buffer 0 none),
    fresh none 1 (.view 0 1),
    fresh none 2 (.buffer 2 none),
    fresh none 3 (.view 2 3),
    fresh none 4 (.compute ⟨"p", [], [⟨2, [.const 0]⟩], []⟩),
    fresh none 5 (.copy 3 0),
    fresh none 6 (.compute ⟨"q", [⟨1, [.const 0]⟩], [], []⟩)]
  values := #[
    { id := 0, name := "T", shape := [4], space := 0, definition := .op 0 },
    { id := 1, name := "V", shape := [2], space := 0, definition := .op 1 },
    { id := 2, name := "S", shape := [8], space := 0, definition := .op 2 },
    { id := 3, name := "W", shape := [4], space := 0, definition := .op 3 }]

/-- The copy goes with the first buffer, and leaves the first view as a view of the second, which
comes after it. -/
theorem removeCopies_viewAhead :
    viewAhead.Scoped ∧ ∃ (g : Func) (ms : List Removal),
      viewAhead.removeCopies.Yields none (g, ms.length) ∧ ¬ g.Scoped ∧ ∃ m ∈ ms, m.Hides := by
  have hscoped : viewAhead.Scoped := scoped_of_all (by decide)
  obtain ⟨g, ms, ⟨journal, hrun⟩, -, -, -, hiff⟩ := removeCopies_scoped_iff none viewAhead
    (by decide) (fun _ => reaches_of_body_eq rfl) (fun id _ _ _ => bodyOf_eq_nil rfl id) hscoped
  have hview : (match viewAhead.removeCopies.run none with
      | .ok r => decide (r.1.1.body = [1, 2, 3, 4, 6] ∧ r.1.1.kindOf 1 = some (.view 3 1)
          ∧ r.1.1.definerOf 3 = some 3 ∧ r.1.1.dominates 3 1 = .ok false)
      | .error _ => false) = true := by decide +kernel
  rw [hrun, decide_eq_true_iff] at hview
  obtain ⟨hbody, hkind, hdefiner, hdom⟩ : g.body = [1, 2, 3, 4, 6]
    ∧ g.kindOf 1 = some (.view 3 1) ∧ g.definerOf 3 = some 3 ∧ g.dominates 3 1 = .ok false := hview
  have hnot : ¬ g.Scoped := fun hg => by
    have hsees := hg 1 _ (.top (by simp [hbody])) hkind 3 List.mem_cons_self 3 hdefiner
    rw [hdom] at hsees
    cases hsees
  refine ⟨hscoped, g, ms, ⟨journal, hrun⟩, hnot, ?_⟩
  simpa [hnot] using hiff

end Func
end Dataflow
