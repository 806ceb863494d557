/-
# The removal of copies reaches a fixed point

Each removal takes one copy out of the function and adds none (`Func.Merge.copies_eq`), so a run
removes as many copies as there are fewer in the end (`Func.Removes.copies_eq`).  A round that
removes nothing has tried every copy of a function that stayed as it was, so no copy of it can be
removed; and every other round leaves fewer copies.  Hence the rounds come to an end, after at most
one more of them than there are copies, and what they end with is settled
(`Func.Compact.removeRounds_settles`): trying any of its copies again, or all of them, changes
nothing (`Func.removeCopies_reaches_fixed_point`).
-/
import Dataflow.Proofs.CopyRemoval
import Dataflow.Proofs.Refusals

namespace Dataflow

theorem Kind.isCopy_iff {k : Kind} :
    k.isCopy = true ↔ ∃ source target, k = .copy source target := by
  cases k <;> simp [Kind.isCopy]

theorem Kind.Redirected.isCopy {σ : ValueId → ValueId} {k k' : Kind} (h : k.Redirected σ k') :
    k'.isCopy = k.isCopy := by
  cases h with
  | operands => cases k <;> rfl
  | init => rfl

namespace Func

variable {f g : Func} {audience : Audience}

/-! ## 1. Counting copies -/

/-- A copy that is reached. -/
def HasCopy (f : Func) (id : OpId) : Prop :=
  f.Reaches id ∧ ∃ source target, f.kindOf id = some (.copy source target)

/-- The list has every copy that is reached, once. -/
def ListsCopies (f : Func) (copies : List OpId) : Prop :=
  copies.Nodup ∧ ∀ id, id ∈ copies ↔ f.HasCopy id

/-- The walk over a function finds its copies. -/
theorem Nested.exists_copies (h : f.Nested) :
    ∃ copies, f.findAll (·.kind.isCopy) = .ok copies ∧ f.ListsCopies copies := by
  obtain ⟨copies, hfind, hnodup⟩ := h.findAll_isOk (·.kind.isCopy)
  refine ⟨copies, hfind, hnodup, fun id => ?_⟩
  rw [h.mem_findAll hfind, HasCopy]
  refine and_congr_right fun _ => ?_
  simp only [Kind.isCopy_iff, kindOf, Option.map_eq_some_iff]
  constructor
  · rintro ⟨op, hop, source, target, hk⟩
    exact ⟨source, target, op, hop, hk⟩
  · rintro ⟨source, target, op, hop, hk⟩
    exact ⟨op, hop, source, target, hk⟩

/-- There are no more copies than operations. -/
theorem ListsCopies.length_le (h : f.Nested) {copies : List OpId} (hcopies : f.ListsCopies copies) :
    copies.length ≤ f.ops.size := by
  refine length_le_size_of_nodup hcopies.1 fun id hid => ?_
  exact (h.live id ((hcopies.2 id).mp hid).1).imp fun _ hop => hop.1

/-- **A merge takes one copy, and leaves the others copies.** -/
theorem Merge.hasCopy_iff {copy buffer : OpId} {old new : ValueId}
    (h : f.Merge copy buffer old new g) {id : OpId} : g.HasCopy id ↔ f.HasCopy id ∧ id ≠ copy := by
  constructor
  · rintro ⟨hid, source, target, hk⟩
    obtain ⟨k, hid', hk', hred⟩ := h.effect.kind_before hid h.compact.toNested hk
    have hcopy : k.isCopy = true := hred.isCopy.symm.trans rfl
    obtain ⟨source', target', rfl⟩ := Kind.isCopy_iff.mp hcopy
    exact ⟨⟨hid', source', target', hk'⟩, fun heq => ((h.effect.reaches id).mp hid).2 (.inl heq)⟩
  · rintro ⟨⟨hid, source, target, hk⟩, hne⟩
    have hgone : ¬ (id = copy ∨ id = buffer) := by
      rintro (heq | rfl)
      · exact hne heq
      · obtain ⟨init, hk'⟩ := h.buffer_kind
        rw [hk] at hk'
        cases hk'
    obtain ⟨hid', k', hk', hred⟩ := h.effect.kind_after hid hgone hk
    obtain ⟨source', target', rfl⟩ := Kind.isCopy_iff.mp (hred.isCopy.trans rfl)
    exact ⟨hid', source', target', hk'⟩

theorem Merge.copies_eq {copy buffer : OpId} {old new : ValueId}
    (h : f.Merge copy buffer old new g) {before after : List OpId} (hbefore : f.ListsCopies before)
    (hafter : g.ListsCopies after) : before.length = after.length + 1 := by
  have hnot : copy ∉ after := fun hmem =>
    (h.hasCopy_iff.mp ((hafter.2 copy).mp hmem)).2 rfl
  have hperm : before.Perm (copy :: after) := by
    refine (List.perm_ext_iff_of_nodup hbefore.1 (List.nodup_cons.mpr ⟨hnot, hafter.1⟩)).mpr ?_
    intro id
    rw [hbefore.2, List.mem_cons, hafter.2, h.hasCopy_iff]
    constructor
    · intro hid
      by_cases heq : id = copy
      · exact .inl heq
      · exact .inr ⟨hid, heq⟩
    · rintro (rfl | hid)
      · obtain ⟨source, target, hk, -⟩ := h.copy_kind
        exact ⟨h.copy_reached, source, target, hk⟩
      · exact hid.1
  simpa using hperm.length_eq

/-- **A run removes as many copies as there are fewer in the end.** -/
theorem Removes.copies_eq {ms : List Removal} (hrun : Removes audience f ms g) : f.Compact →
    ∀ {before after : List OpId}, f.ListsCopies before → g.ListsCopies after →
      before.length = after.length + ms.length := by
  induction hrun with
  | done f =>
    intro _ before after hbefore hafter
    have hperm : before.Perm after := (List.perm_ext_iff_of_nodup hbefore.1 hafter.1).mpr fun id =>
      (hbefore.2 id).trans (hafter.2 id).symm
    exact hperm.length_eq
  | @step f g h copy what rest hlive hyields _ ih =>
    intro hf before after hbefore hafter
    obtain ⟨buffer, hmerge⟩ := hf.merge_of_yields hlive hyields
    obtain ⟨between, -, hbetween⟩ := hmerge.compact_after.toNested.exists_copies
    rw [hmerge.copies_eq hbefore hbetween, ih hmerge.compact_after hbetween hafter,
      List.length_cons]
    omega

/-! ## 2. Rounds that remove nothing -/

/-- No copy of the function can be removed. -/
def Settled (audience : Audience) (f : Func) : Prop :=
  ∀ id, f.HasCopy id → (f.removeCopy id).Yields audience (f, none)

/-- Trying copies that are live without removing one is leaving the function alone, copy by
copy. -/
theorem removeListed_still : ∀ {copies : List OpId} {f g : Func},
    (removeListed f copies).Yields audience (g, 0) →
      g = f ∧ ∀ id ∈ copies, f.IsLive id → (f.removeCopy id).Yields audience (f, none)
  | [], f, g, h => by
    cases Traced.yields_pure.mp h
    exact ⟨rfl, fun _ hid => by cases hid⟩
  | copy :: copies, f, g, h => by
    unfold removeListed at h
    obtain ⟨op, hop, h⟩ := Traced.yields_bind.mp h
    rw [Traced.yields_lift, op_eq_ok_iff] at hop
    cases herased : op.erased with
    | true =>
      simp only [herased, if_true] at h
      obtain ⟨heq, hrest⟩ := removeListed_still h
      refine ⟨heq, List.forall_mem_cons.mpr ⟨fun hlive => ?_, hrest⟩⟩
      obtain ⟨op', hop', hlive⟩ := hlive
      rw [hop] at hop'
      cases hop'
      rw [herased] at hlive
      cases hlive
    | false =>
      simp only [herased, Bool.false_eq_true, if_false] at h
      obtain ⟨⟨f', what?⟩, hfirst, h⟩ := Traced.yields_bind.mp h
      obtain ⟨⟨g', count⟩, hrest, h⟩ := Traced.yields_bind.mp h
      cases what? with
      | some what => cases Traced.yields_pure.mp h
      | none =>
        cases Traced.yields_pure.mp h
        cases removeCopy_refused hfirst
        obtain ⟨heq, hrest⟩ := removeListed_still hrest
        exact ⟨heq, List.forall_mem_cons.mpr ⟨fun _ => hfirst, hrest⟩⟩

/-- Trying copies none of which can be removed removes none. -/
theorem removeListed_of_still : ∀ {copies : List OpId},
    (∀ id ∈ copies, f.IsLive id ∧ (f.removeCopy id).Yields audience (f, none)) →
      (removeListed f copies).Yields audience (f, 0)
  | [], _ => Traced.yields_pure.mpr rfl
  | copy :: copies, h => by
    obtain ⟨⟨⟨op, hop, hlive⟩, hfirst⟩, hrest⟩ := List.forall_mem_cons.mp h
    unfold removeListed
    rw [Traced.yields_lift_bind (op_eq_ok_iff.mpr hop)]
    simp only [hlive, Bool.false_eq_true, if_false]
    exact Traced.yields_bind.mpr ⟨_, hfirst, Traced.yields_bind.mpr
      ⟨_, removeListed_of_still hrest, Traced.yields_pure.mpr rfl⟩⟩

/-- A round over a settled function changes nothing, and is the last. -/
theorem Nested.removeRounds_of_settled (h : f.Nested) (hsettled : f.Settled audience)
    (rounds : Nat) : (removeRounds (rounds + 1) f).Yields audience (f, 0) := by
  obtain ⟨copies, hfind, hcopies⟩ := h.exists_copies
  unfold removeRounds
  rw [Traced.yields_lift_bind hfind]
  refine Traced.yields_bind.mpr ⟨_, removeListed_of_still fun id hid => ?_,
    Traced.yields_pure.mpr rfl⟩
  have hcopy := (hcopies.2 id).mp hid
  exact ⟨h.live id hcopy.1, hsettled id hcopy⟩

theorem removeCopies_of_rounds {count : Nat}
    (h : (removeRounds (f.ops.size + 1) f).Yields audience (g, count)) :
    f.removeCopies.Yields audience (g, count) :=
  Traced.yields_bind.mpr ⟨_, h, Traced.yields_bind.mpr
    ⟨(), Traced.yields_say, Traced.yields_pure.mpr rfl⟩⟩

/-! ## 3. All rounds -/

/-- **The rounds come to an end, and end settled.**  However many are allowed, as long as they are
more than there are copies, they give one result. -/
theorem Compact.removeRounds_settles (audience : Audience) (hf : f.Compact) {copies : List OpId}
    (hcopies : f.ListsCopies copies) : ∃ g ms, Removes audience f ms g ∧ g.Settled audience ∧
      ∀ rounds, copies.length < rounds →
        (removeRounds rounds f).Yields audience (g, ms.length) := by
  -- The induction is on the number of copies; each round but the last leaves fewer.
  induction hn : copies.length using Nat.strong_induction_on generalizing f copies with
  | _ n ih =>
    obtain ⟨found, hfind, hfound⟩ := hf.toNested.exists_copies
    obtain ⟨f', ms, hround, hrun⟩ := hf.removeListed_yields audience fun id hid => by
      obtain ⟨-, source, target, hk⟩ := (hfound.2 id).mp hid
      exact ⟨_, hk⟩
    by_cases hnone : ms.length = 0
    · rw [hnone] at hround
      obtain ⟨rfl, hstill⟩ := removeListed_still hround
      have hsettled : f'.Settled audience := fun id hid =>
        hstill id ((hfound.2 id).mpr hid) (hf.live id hid.1)
      refine ⟨f', [], .done f', hsettled, fun rounds hrounds => ?_⟩
      obtain ⟨rounds, rfl⟩ := Nat.exists_eq_add_one_of_ne_zero (Nat.ne_zero_of_lt hrounds)
      exact hf.toNested.removeRounds_of_settled hsettled rounds
    · have hf' : f'.Compact := (hrun.spec hf).1
      obtain ⟨left, -, hleft⟩ := hf'.toNested.exists_copies
      have hcount := hrun.copies_eq hf hcopies hleft
      obtain ⟨g, ms', hrun', hsettled, hrounds⟩ := ih left.length (by omega) hf' hleft rfl
      refine ⟨g, ms ++ ms', hrun.append hrun', hsettled, fun rounds hlt => ?_⟩
      obtain ⟨rounds, rfl⟩ := Nat.exists_eq_add_one_of_ne_zero (Nat.ne_zero_of_lt hlt)
      unfold removeRounds
      rw [Traced.yields_lift_bind hfind]
      refine Traced.yields_bind.mpr ⟨_, hround, ?_⟩
      simp only [if_neg hnone]
      exact Traced.yields_bind.mpr
        ⟨_, hrounds rounds (by omega), Traced.yields_pure.mpr (by rw [List.length_append])⟩

/-- **The removal of copies reaches a true fixed point.**  On a function in order with nothing live
unreached and nothing nested in leaves it gives a result, which no larger number of rounds would
change.  It counts the copies that are gone, none of the copies that are left can be removed, and a
second pass removes nothing and changes nothing. -/
theorem removeCopies_reaches_fixed_point (audience : Audience) (f : Func) (hf : f.verify = .ok ())
    (hreached : ∀ id, f.IsLive id → f.Reaches id)
    (hleaves : ∀ id k, f.kindOf id = some k → k.isLeaf = true → f.bodyOf id = []) :
    ∃ (g : Func) (count : Nat) (before after : List OpId),
      f.removeCopies.Yields audience (g, count)
      ∧ (∀ rounds, before.length < rounds → (removeRounds rounds f).Yields audience (g, count))
      ∧ f.ListsCopies before ∧ g.ListsCopies after
      ∧ after.length ≤ before.length ∧ count = before.length - after.length
      ∧ (∀ id, g.HasCopy id → (g.removeCopy id).Yields audience (g, none))
      ∧ g.removeCopies.Yields audience (g, 0) := by
  have hcompact : f.Compact := (verify_eq_ok_iff_tidy.mp hf).compact hreached hleaves
  obtain ⟨before, -, hbefore⟩ := hcompact.toNested.exists_copies
  obtain ⟨g, ms, hrun, hsettled, hrounds⟩ := hcompact.removeRounds_settles audience hbefore
  have hg : g.Compact := (hrun.spec hcompact).1
  obtain ⟨after, -, hafter⟩ := hg.toNested.exists_copies
  have hcount := hrun.copies_eq hcompact hbefore hafter
  have hbound := hbefore.length_le hcompact.toNested
  refine ⟨g, ms.length, before, after, ?_, hrounds, hbefore, hafter, by omega, by omega, hsettled,
    ?_⟩
  · exact removeCopies_of_rounds (hrounds (f.ops.size + 1) (by omega))
  · exact removeCopies_of_rounds (hg.toNested.removeRounds_of_settled hsettled g.ops.size)

/-- `A` is copied to `T0`, `T0` to `T1` and `T1` to `B`, where `A` and `B` are arguments. -/
def copyChain : Func where
  name := "f"
  arguments := [0, 1]
  body := List.range 5
  ops := #[fresh none 0 (.buffer 2 none), fresh none 1 (.copy 0 2), fresh none 2 (.buffer 3 none),
           fresh none 3 (.copy 2 3), fresh none 4 (.copy 3 1)]
  values := #[{ id := 0, name := "A", shape := [4], space := 0, definition := .argument 0 },
              { id := 1, name := "B", shape := [4], space := 0, definition := .argument 1 },
              { id := 2, name := "T0", shape := [4], space := 0, definition := .op 0 },
              { id := 3, name := "T1", shape := [4], space := 0, definition := .op 2 }]

/-- Two copies of the chain go; the one that is left goes from argument to argument, and stays. -/
theorem removeCopies_reaches_fixed_point_copyChain : copyChain.verify = .ok () ∧
    ∃ (g : Func) (before after : List OpId), copyChain.removeCopies.Yields none (g, 2)
      ∧ copyChain.ListsCopies before ∧ g.ListsCopies after ∧ before.length = after.length + 2
      ∧ g.kindOf 4 = some (.copy 0 1) ∧ (g.removeCopy 4).Yields none (g, none)
      ∧ g.removeCopies.Yields none (g, 0) := by
  have hverify : copyChain.verify = .ok () := by decide
  obtain ⟨g, count, before, after, ⟨journal, hrun⟩, -, hbefore, hafter, hle, hcount, hstuck,
    hagain⟩ := removeCopies_reaches_fixed_point none copyChain hverify
      (fun _ => reaches_of_body_eq rfl) fun id _ _ _ => bodyOf_eq_nil rfl id
  have hresult : (match copyChain.removeCopies.run none with
      | .ok r => decide (r.1.2 = 2 ∧ r.1.1.body = [4] ∧ r.1.1.kindOf 4 = some (.copy 0 1))
      | .error _ => false) = true := by decide +kernel
  rw [hrun, decide_eq_true_iff] at hresult
  obtain ⟨rfl, hbody, hkind⟩ : count = 2 ∧ g.body = [4] ∧ g.kindOf 4 = some (.copy 0 1) := hresult
  have hreached : g.Reaches 4 := .top (by simp [hbody])
  exact ⟨hverify, g, before, after, ⟨journal, hrun⟩, hbefore, hafter, by omega, hkind,
    hstuck 4 ⟨hreached, 0, 1, hkind⟩, hagain⟩

end Func
end Dataflow
