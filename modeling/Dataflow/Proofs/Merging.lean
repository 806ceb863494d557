/-
# Merging two memories

When a copy goes, the memory of one of its sides goes with it: its buffer is erased, and whatever
named it names the other side instead.  `Func.Merge` says when that is done and what it does.

A merge leaves a function compact.  It leaves it in order unless the copy was from a buffer to
itself and a view of the buffer is left (`Func.Merge.tidy_iff`).  Every memref still has a root
unless the other side was a view of the buffer: then that view becomes its own source
(`Func.Merge.resolves_iff`).
-/
import Dataflow.Proofs.Erasure

namespace Dataflow
namespace Func

/-- The copy, between `old` and `new`, and the buffer that defines `old` are erased, and the uses
of `old` redirected to `new`.  If the two are one, nothing but the copy and views uses them; and
whatever uses `old`, views apart, comes after the definition of `new`. -/
structure Merge (f : Func) (copy buffer : OpId) (old new : ValueId) (g : Func) : Prop where
  compact : f.Compact
  copy_reached : f.Reaches copy
  copy_kind : ∃ source target, f.kindOf copy = some (.copy source target)
    ∧ (source = old ∧ target = new ∨ source = new ∧ target = old)
  buffer_reached : f.Reaches buffer
  buffer_kind : ∃ init, f.kindOf buffer = some (.buffer old init)
  rooted : ∃ path r, f.Chain new path r
  alone : new = old → ∀ u k, f.Reaches u → f.kindOf u = some k → old ∈ k.operands →
    viewResult? k = none → u = copy
  visible : ∀ d, f.definerOf new = some d → ∀ u k, f.Reaches u → f.kindOf u = some k →
    old ∈ k.operands → viewResult? k = none → f.dominates d u = .ok true
  effect : f.Rewritten (fun i => i = copy ∨ i = buffer) (redirection old new) g

/-- A reached view has the value as its source. -/
def HasView (f : Func) (v : ValueId) : Prop :=
  ∃ id result, f.Reaches id ∧ f.kindOf id = some (.view v result)

/-- Every operand of a reached operation has a root. -/
def Resolves (f : Func) : Prop :=
  ∀ id k, f.Reaches id → f.kindOf id = some k → ∀ v ∈ k.operands, ∃ r, f.root v = .ok (some r)

@[simp] theorem redirection_old (old new : ValueId) : redirection old new old = new := if_pos rfl

theorem redirection_of_ne {old new v : ValueId} (h : v ≠ old) : redirection old new v = v :=
  if_neg h

theorem redirection_self (old v : ValueId) : redirection old old v = v := by
  rw [redirection]
  split
  · rename_i heq
    exact heq.symm
  · rfl

/-- A memref other than its root is a view, at the end of a chain of which a view of the root
stands. -/
theorem Compact.hasView_of_chain {f : Func} (h : f.Compact) {v r : ValueId}
    {path : List ValueId} (hchain : f.Chain v path r) (hne : v ≠ r) : f.Known v → f.HasView r := by
  induction hchain with
  | root => exact absurd rfl hne
  | @view v source r path hview hchain ih =>
    intro hv
    rcases h.isRoot_or_view hv with hroot | ⟨d, source', result, hd, hid, hk, hknown⟩
    · exact absurd hview hroot.not_viewOf
    · obtain rfl := hview.unique ⟨d, result, hd, hk⟩
      by_cases heq : source = r
      · exact ⟨d, result, hid, heq ▸ hk⟩
      · exact ih heq hknown

namespace Merge

variable {f g : Func} {copy buffer : OpId} {old new : ValueId}

/-! ## 1. What is left to use -/

theorem definerOf_old (h : f.Merge copy buffer old new g) : f.definerOf old = some buffer := by
  obtain ⟨init, hk⟩ := h.buffer_kind
  exact h.compact.result buffer _ old h.buffer_reached hk rfl

theorem ne_copy (h : f.Merge copy buffer old new g) {v : ValueId} {d : OpId}
    (hd : f.definerOf v = some d) : d ≠ copy := by
  rintro rfl
  obtain ⟨source, target, hk, -⟩ := h.copy_kind
  obtain ⟨k, hk', hresult⟩ := h.compact.result_of_definerOf hd
  rw [hk] at hk'
  cases hk'
  cases hresult

theorem ne_buffer (h : f.Merge copy buffer old new g) {v : ValueId} {d : OpId}
    (hd : f.definerOf v = some d) (hv : v ≠ old) : d ≠ buffer := by
  rintro rfl
  obtain ⟨init, hk⟩ := h.buffer_kind
  obtain ⟨k, hk', hresult⟩ := h.compact.result_of_definerOf hd
  rw [hk] at hk'
  cases hk'
  exact hv (Option.some.inj hresult).symm

theorem usable_old (h : f.Merge copy buffer old new g) : f.Usable old := by
  have hd := h.definerOf_old
  obtain ⟨value, hvalue, hdef⟩ := definerOf_eq_some.mp hd
  refine ⟨value, hvalue, fun d hd' => ?_⟩
  rw [hdef] at hd'
  cases hd'
  exact h.compact.live buffer h.buffer_reached

theorem usable_new (h : f.Merge copy buffer old new g) : f.Usable new := by
  obtain ⟨source, target, hk, hcase⟩ := h.copy_kind
  refine (h.compact.uses copy _ h.copy_reached hk new ?_).2 rfl
  rcases hcase with ⟨-, rfl⟩ | ⟨rfl, -⟩ <;> simp [Kind.operands]

/-- **The erased value is the only one that can no longer be used.** -/
theorem usable_iff (h : f.Merge copy buffer old new g) {v : ValueId} :
    g.Usable v ↔ f.Usable v ∧ v ≠ old := by
  constructor
  · intro hv
    refine ⟨hv.transfer h.effect.values.symm fun d hd => ((h.effect.isLive d).mp hd).1, ?_⟩
    rintro rfl
    have hlive := hv.live ((h.effect.definerOf _).trans h.definerOf_old)
    exact ((h.effect.isLive buffer).mp hlive).2 (.inr rfl)
  · rintro ⟨hv, hne⟩
    have ⟨value, hvalue, _⟩ := hv
    refine ⟨value, h.effect.values ▸ hvalue, fun d hdef => ?_⟩
    have hd : f.definerOf v = some d := definerOf_eq_some.mpr ⟨value, hvalue, hdef⟩
    refine (h.effect.isLive d).mpr ⟨hv.live hd, ?_⟩
    rintro (hcopy | hbuffer)
    · exact h.ne_copy hd hcopy
    · exact h.ne_buffer hd hne hbuffer

theorem known (h : f.Merge copy buffer old new g) {v : ValueId} (hv : f.Known v) : g.Known v := by
  obtain ⟨value, hvalue, hdefiner⟩ := hv
  refine ⟨value, h.effect.values ▸ hvalue, fun d hd => ?_⟩
  rw [h.effect.definerOf] at hd
  rcases hdefiner d hd with hlive | ⟨result, init, hk⟩
  · by_cases hd' : d = buffer
    · obtain ⟨init, hk⟩ := h.buffer_kind
      exact .inr ⟨old, h.effect.kind_buffer (hd' ▸ hk)⟩
    · refine .inl ((h.effect.isLive d).mpr ⟨hlive, ?_⟩)
      rintro (hcopy | hbuffer)
      · exact h.ne_copy hd hcopy
      · exact hd' hbuffer
  · exact .inr ⟨result, h.effect.kind_buffer hk⟩

/-- **A merge leaves a compact function.** -/
theorem compact_after (h : f.Merge copy buffer old new g) : g.Compact := by
  refine h.effect.compact h.compact fun id k' hid hk' v' hv' => ?_
  obtain ⟨k, hid', hk, hred⟩ := h.effect.kind_before hid h.compact.toNested hk'
  rw [hred.operands_eq] at hv'
  obtain ⟨v, hv, rfl⟩ := List.mem_map.mp hv'
  obtain ⟨hknown, husable⟩ := h.compact.uses id k hid' hk v hv
  rw [hred.viewResult?]
  by_cases hold : v = old
  · subst hold
    rw [redirection_old]
    refine ⟨h.known h.usable_new.known, fun hnone => h.usable_iff.mpr ⟨h.usable_new, fun heq => ?_⟩⟩
    -- Of a copy from the buffer to itself no other user is left.
    have hcopy := h.alone heq id k hid' hk hv hnone
    exact ((h.effect.reaches id).mp hid).2 (.inl hcopy)
  · rw [redirection_of_ne hold]
    exact ⟨h.known hknown, fun hnone => h.usable_iff.mpr ⟨husable hnone, hold⟩⟩

/-! ## 2. Views -/

theorem view_before (h : f.Merge copy buffer old new g) {id : OpId} {source result : ValueId}
    (hid : g.Reaches id) (hk : g.kindOf id = some (.view source result)) :
    ∃ source', f.Reaches id ∧ f.kindOf id = some (.view source' result)
      ∧ source = redirection old new source' := by
  obtain ⟨k, hid', hk', hred⟩ := h.effect.kind_before hid h.compact.toNested hk
  obtain ⟨source', rfl, heq⟩ := hred.of_view
  exact ⟨source', hid', hk', heq⟩

theorem view_after (h : f.Merge copy buffer old new g) {id : OpId} {source result : ValueId}
    (hid : f.Reaches id) (hk : f.kindOf id = some (.view source result)) :
    g.Reaches id ∧ g.kindOf id = some (.view (redirection old new source) result) := by
  have hgone : ¬ (id = copy ∨ id = buffer) := by
    rintro (rfl | rfl)
    · obtain ⟨_, _, hcopy, -⟩ := h.copy_kind
      rw [hk] at hcopy
      cases hcopy
    · obtain ⟨_, hbuffer⟩ := h.buffer_kind
      rw [hk] at hbuffer
      cases hbuffer
  obtain ⟨hid', k', hk', hred⟩ := h.effect.kind_after hid hgone hk
  rw [hred.view] at hk'
  exact ⟨hid', hk'⟩

/-- **A merge keeps a function in order, unless it is of a buffer with itself and a view of it is
left.** -/
theorem tidy_iff (h : f.Merge copy buffer old new g) :
    g.Tidy ↔ f.Tidy ∧ ¬ (new = old ∧ f.HasView old) := by
  rw [h.compact_after.tidy_iff, h.compact.tidy_iff]
  constructor
  · intro hg
    constructor
    · rintro id hid ⟨source, result, hk, hnot⟩
      have hne : source ≠ old := by
        rintro rfl
        exact hnot h.usable_old
      obtain ⟨hid', hk'⟩ := h.view_after hid hk
      rw [redirection_of_ne hne] at hk'
      exact hg id hid' ⟨source, result, hk', fun hu => hnot (h.usable_iff.mp hu).1⟩
    · rintro ⟨rfl, id, result, hid, hk⟩
      obtain ⟨hid', hk'⟩ := h.view_after hid hk
      rw [redirection_old] at hk'
      exact hg id hid' ⟨_, result, hk', fun hu => (h.usable_iff.mp hu).2 rfl⟩
  · rintro ⟨hf, hnot⟩ id hid ⟨source, result, hk, hgone⟩
    obtain ⟨source', hid', hk', rfl⟩ := h.view_before hid hk
    have husable : f.Usable source' := by
      by_contra hu
      exact hf id hid' ⟨source', result, hk', hu⟩
    by_cases hold : source' = old
    · subst hold
      rw [redirection_old] at hgone
      exact hgone (h.usable_iff.mpr ⟨h.usable_new, fun heq => hnot ⟨heq, id, result, hid', hk'⟩⟩)
    · rw [redirection_of_ne hold] at hgone
      exact hgone (h.usable_iff.mpr ⟨husable, hold⟩)

/-! ## 3. Roots -/

theorem isRoot_old (h : f.Merge copy buffer old new g) : f.IsRoot old :=
  isRoot_of_buffer h.definerOf_old ⟨old, h.buffer_kind⟩

theorem isRoot_after (h : f.Merge copy buffer old new g) {v : ValueId} (hv : f.IsRoot v) :
    g.IsRoot v := by
  obtain ⟨⟨value, hvalue⟩, hbuffer⟩ := hv
  refine ⟨⟨value, h.effect.values ▸ hvalue⟩, fun d hd => ?_⟩
  rw [h.effect.definerOf] at hd
  obtain ⟨result, init, hk⟩ := hbuffer d hd
  exact ⟨result, h.effect.kind_buffer hk⟩

/-- The source of a known view is known, and is redirected. -/
theorem viewOf_after (h : f.Merge copy buffer old new g) {v source : ValueId} (hv : f.Known v)
    (hview : f.ViewOf v source) : f.Known source ∧ g.ViewOf v (redirection old new source) := by
  rcases h.compact.isRoot_or_view hv with hroot | ⟨d, source', result, hd, hid, hk, hknown⟩
  · exact absurd hview hroot.not_viewOf
  · obtain rfl := hview.unique ⟨d, result, hd, hk⟩
    exact ⟨hknown, d, result, (h.effect.definerOf v).trans hd, (h.view_after hid hk).2⟩

/-- A root found through nothing that is redirected stays. -/
theorem chain_after (h : f.Merge copy buffer old new g) {v r : ValueId} {path : List ValueId}
    (hchain : f.Chain v path r) (hr : r ≠ old ∨ new = old) : f.Known v → g.Chain v path r := by
  induction hchain with
  | root hv => exact fun _ => .root (h.isRoot_after hv)
  | @view v source r path hview hchain ih =>
    intro hv
    obtain ⟨hknown, hview'⟩ := h.viewOf_after hv hview
    have hsame : redirection old new source = source := by
      by_cases hold : source = old
      · subst hold
        rw [redirection_old]
        exact hr.resolve_left fun hne => hne (hchain.unique (.root h.isRoot_old)).2
      · exact redirection_of_ne hold
    exact .view (hsame ▸ hview') (ih hr hknown)

/-- What had the erased value as its root has that of the other side, if that one has one. -/
theorem chain_redirected (h : f.Merge copy buffer old new g) {v r s : ValueId}
    {path newPath : List ValueId} (hchain : f.Chain v path r) (hr : r = old)
    (hnew : g.Chain new newPath s) :
    f.Known v → ∃ path, g.Chain (redirection old new v) path s := by
  induction hchain with
  | root hv =>
    intro _
    rw [hr, redirection_old]
    exact ⟨newPath, hnew⟩
  | @view v source r path hview hchain ih =>
    intro hv
    obtain ⟨hknown, hview'⟩ := h.viewOf_after hv hview
    obtain ⟨path', hchain'⟩ := ih hr hknown
    have hne : v ≠ old := by
      rintro rfl
      exact h.isRoot_old.not_viewOf hview
    rw [redirection_of_ne hne]
    exact ⟨_, .view hview' hchain'⟩

/-- What has a root afterwards had one before. -/
theorem chain_before (h : f.Merge copy buffer old new g) {v r : ValueId} {path : List ValueId}
    (hchain : g.Chain v path r) : f.Known v → ∃ path r, f.Chain v path r := by
  induction hchain with
  | @root v hroot =>
    intro hv
    rcases h.compact.isRoot_or_view hv with hroot' | ⟨d, source, result, hd, -, hk, -⟩
    · exact ⟨_, _, .root hroot'⟩
    · exact absurd (h.viewOf_after hv ⟨d, result, hd, hk⟩).2 hroot.not_viewOf
  | @view v source r path hview hchain ih =>
    intro hv
    rcases h.compact.isRoot_or_view hv with hroot | ⟨d, source', result, hd, -, hk, hknown⟩
    · exact absurd hview (h.isRoot_after hroot).not_viewOf
    · have hview' : f.ViewOf v source' := ⟨d, result, hd, hk⟩
      obtain rfl := hview.unique (h.viewOf_after hv hview').2
      by_cases hold : source' = old
      · subst hold
        exact ⟨_, _, .view hview' (.root h.isRoot_old)⟩
      · rw [redirection_of_ne hold] at ih
        obtain ⟨path', r', hchain'⟩ := ih hknown
        exact ⟨_, _, .view hview' hchain'⟩

/-- When the other side is a view of the buffer, what had the buffer's value as its root has none:
its views run in a circle. -/
theorem not_chain_circular (h : f.Merge copy buffer old new g) (hne : new ≠ old)
    {newPath : List ValueId} (hnew : f.Chain new newPath old) {v r : ValueId}
    {path : List ValueId} (hchain : g.Chain v path r) : f.Known v → v ≠ old →
      ∀ {path' : List ValueId}, ¬ f.Chain v path' old := by
  induction hchain with
  | @root v hroot =>
    intro hv hold path' hchain'
    cases hchain' with
    | root => exact hold rfl
    | view hview _ => exact hroot.not_viewOf (h.viewOf_after hv hview).2
  | @view v source r path hview hchain ih =>
    intro hv hold path' hchain'
    cases hchain' with
    | root => exact hold rfl
    | @view _ source' _ path' hview' hchain' =>
      obtain ⟨hknown, hview''⟩ := h.viewOf_after hv hview'
      obtain rfl := hview.unique hview''
      by_cases hsource : source' = old
      · subst hsource
        rw [redirection_old] at ih
        exact ih h.usable_new.known hne hnew
      · rw [redirection_of_ne hsource] at ih
        exact ih hknown hsource hchain'

theorem resolves_after (h : f.Merge copy buffer old new g) (hf : f.Resolves)
    (hnot : ¬ (new ≠ old ∧ f.root new = .ok (some old))) : g.Resolves := by
  intro id k' hid hk' v' hv'
  obtain ⟨k, hid', hk, hred⟩ := h.effect.kind_before hid h.compact.toNested hk'
  rw [hred.operands_eq] at hv'
  obtain ⟨v, hv, rfl⟩ := List.mem_map.mp hv'
  have hknown := (h.compact.uses id k hid' hk v hv).1
  obtain ⟨r, hr⟩ := hf id k hid' hk v hv
  obtain ⟨path, hchain⟩ := root_eq_some_iff.mp hr
  suffices hgoal : ∃ path r, g.Chain (redirection old new v) path r by
    obtain ⟨path', r', hchain'⟩ := hgoal
    exact ⟨r', root_eq_some_iff.mpr ⟨path', hchain'⟩⟩
  by_cases heq : new = old
  · have hsame : redirection old new v = v := by rw [heq, redirection_self]
    rw [hsame]
    exact ⟨path, r, h.chain_after hchain (.inr heq) hknown⟩
  · obtain ⟨newPath, newRoot, hnew⟩ := h.rooted
    have hroot : newRoot ≠ old := by
      rintro rfl
      exact hnot ⟨heq, root_eq_some_iff.mpr ⟨newPath, hnew⟩⟩
    by_cases hold : r = old
    · obtain ⟨path', hchain'⟩ := h.chain_redirected hchain hold
        (h.chain_after hnew (.inl hroot) h.usable_new.known) hknown
      exact ⟨path', newRoot, hchain'⟩
    · have hne : v ≠ old := by
        rintro rfl
        exact hold (hchain.unique (.root h.isRoot_old)).2
      rw [redirection_of_ne hne]
      exact ⟨path, r, h.chain_after hchain (.inl hold) hknown⟩

theorem resolves_before (h : f.Merge copy buffer old new g) (hg : g.Resolves) : f.Resolves := by
  have hold : ∃ r, f.root old = .ok (some r) := ⟨old, root_eq_some_iff.mpr ⟨_, .root h.isRoot_old⟩⟩
  intro id k hid hk v hv
  by_cases hv' : v = old
  · exact hv' ▸ hold
  · by_cases hgone : id = copy ∨ id = buffer
    · -- The operands of the copy have roots, and the buffer has no operands.
      rcases hgone with rfl | rfl
      · obtain ⟨source, target, hk', hcase⟩ := h.copy_kind
        rw [hk] at hk'
        cases hk'
        have hnew : v = new := by
          rcases hcase with ⟨rfl, rfl⟩ | ⟨rfl, rfl⟩ <;> simpa [Kind.operands, hv'] using hv
        obtain ⟨path, r, hchain⟩ := h.rooted
        exact hnew ▸ ⟨r, root_eq_some_iff.mpr ⟨path, hchain⟩⟩
      · obtain ⟨init, hk'⟩ := h.buffer_kind
        rw [hk] at hk'
        cases hk'
        cases hv
    · obtain ⟨hid', k', hk', hred⟩ := h.effect.kind_after hid hgone hk
      have hmem : v ∈ k'.operands := by
        rw [hred.operands_eq]
        exact List.mem_map.mpr ⟨v, hv, redirection_of_ne hv'⟩
      obtain ⟨r, hr⟩ := hg id k' hid' hk' v hmem
      obtain ⟨path, hchain⟩ := root_eq_some_iff.mp hr
      obtain ⟨path', r', hchain'⟩ := h.chain_before hchain (h.compact.uses id k hid hk v hv).1
      exact ⟨r', root_eq_some_iff.mpr ⟨path', hchain'⟩⟩

/-- **A merge leaves every operand with a root, unless the other side is a view of the buffer.** -/
theorem resolves_iff (h : f.Merge copy buffer old new g) :
    g.Resolves ↔ f.Resolves ∧ ¬ (new ≠ old ∧ f.root new = .ok (some old)) := by
  refine ⟨fun hg => ⟨h.resolves_before hg, ?_⟩, fun hf => h.resolves_after hf.1 hf.2⟩
  rintro ⟨hne, hroot⟩
  obtain ⟨newPath, hnew⟩ := root_eq_some_iff.mp hroot
  -- A view of the buffer is left, and the view at the other side is its source now.
  obtain ⟨id, result, hid, hk⟩ := h.compact.hasView_of_chain hnew hne h.usable_new.known
  obtain ⟨hid', hk'⟩ := h.view_after hid hk
  rw [redirection_old] at hk'
  obtain ⟨r, hr⟩ := hg id _ hid' hk' new List.mem_cons_self
  obtain ⟨path, hchain⟩ := root_eq_some_iff.mp hr
  exact h.not_chain_circular hne hnew hchain h.usable_new.known hne hnew

end Merge
end Func
end Dataflow
