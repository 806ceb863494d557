/-
# Writes to the caller's memory

What a function writes of its caller's memory are the arguments that its stores have as roots
(`Func.Writes`).  When a copy is removed, the memory that goes is merged into the one that takes its
place: an operation that is left writes there what it wrote to either (`Func.Merge.writes_iff`).

If a buffer goes in favour of an argument, the writes to the buffer become writes to the argument.
The removal of copies checks nothing of the kind, so it makes a function write an argument that it
did not write before exactly when an operation that stays wrote to such a buffer
(`Func.removeCopies_writes_iff`).
-/
import Dataflow.Proofs.CopyRemoval

namespace Dataflow
namespace Kind

theorem mem_operands_of_mem_stores {k : Kind} {v : ValueId} (h : v ∈ k.stores) :
    v ∈ k.operands := by
  cases k with
  | copy source target =>
    cases List.mem_singleton.mp h
    exact List.mem_cons_of_mem _ List.mem_cons_self
  | compute c =>
    simp only [operands, Compute.accesses, List.map_append]
    exact List.mem_append_right _ h
  | _ => cases h

theorem Redirected.stores_eq {σ : ValueId → ValueId} {k k' : Kind} (h : k.Redirected σ k') :
    k'.stores = k.stores.map σ := by
  cases h with
  | operands => cases k <;> simp [stores, mapOperands, Function.comp_def]
  | init => rfl

end Kind

namespace Func

variable {f g : Func}

/-- `f.Writes id r`: the operation in slot `id` is reached, and stores to the memory of `r`. -/
def Writes (f : Func) (id : OpId) (r : ValueId) : Prop :=
  ∃ k, f.Reaches id ∧ f.kindOf id = some k ∧ ∃ v ∈ k.stores, f.root v = .ok (some r)

/-- Some operation writes the memory of `r`. -/
def Written (f : Func) (r : ValueId) : Prop := ∃ id, f.Writes id r

theorem Writes.reaches {id : OpId} {r : ValueId} (h : f.Writes id r) : f.Reaches id :=
  h.elim fun _ hk => hk.1

/-! ## 1. One removal -/

namespace Merge

variable {copy buffer : OpId} {old new : ValueId}

theorem root_new (h : f.Merge copy buffer old new g) {r : ValueId}
    (hr : f.root new = .ok (some r)) (hne : r ≠ old) {v : ValueId} (hv : f.Known v)
    (hold : f.root v = .ok (some old)) : g.root (redirection old new v) = .ok (some r) := by
  obtain ⟨newPath, hnew⟩ := root_eq_some_iff.mp hr
  obtain ⟨path, hchain⟩ := root_eq_some_iff.mp hold
  exact root_eq_some_iff.mpr
    (h.chain_redirected hchain rfl (h.chain_after hnew (.inl hne) h.usable_new.known) hv)

theorem root_kept (h : f.Merge copy buffer old new g) {r : ValueId} (hne : r ≠ old)
    {v : ValueId} (hv : f.Known v) (hr : f.root v = .ok (some r)) :
    g.root (redirection old new v) = .ok (some r) := by
  obtain ⟨path, hchain⟩ := root_eq_some_iff.mp hr
  have hvne : v ≠ old := by
    rintro rfl
    exact hne (hchain.unique (.root h.isRoot_old)).2
  rw [redirection_of_ne hvne]
  exact root_eq_some_iff.mpr ⟨path, h.chain_after hchain (.inl hne) hv⟩

/-- What had the erased value as its root has that of the other side, if it has another. -/
theorem root_of_root_old (h : f.Merge copy buffer old new g) {r : ValueId} (hne : r ≠ old)
    {v : ValueId} (hv : f.Known v) (hold : f.root v = .ok (some old))
    (hr : g.root (redirection old new v) = .ok (some r)) : f.root new = .ok (some r) := by
  obtain ⟨path, hchain⟩ := root_eq_some_iff.mp hold
  obtain ⟨path', hchain'⟩ := root_eq_some_iff.mp hr
  obtain ⟨newPath, newRoot, hnew⟩ := h.rooted
  have hnewRoot : f.root new = .ok (some newRoot) := root_eq_some_iff.mpr ⟨newPath, hnew⟩
  by_cases hroot : newRoot = old
  · subst hroot
    exfalso
    by_cases heq : new = newRoot
    · -- Nothing is redirected, and the root stays.
      have hsame : redirection newRoot new v = v := by rw [heq, redirection_self]
      rw [hsame] at hchain'
      exact hne ((h.chain_after hchain (.inr heq) hv).unique hchain').2.symm
    · -- The other side is a view of what goes, and nothing that had it as its root has one.
      by_cases hvold : v = newRoot
      · rw [hvold, redirection_old] at hchain'
        exact h.not_chain_circular heq hnew hchain' h.usable_new.known heq hnew
      · rw [redirection_of_ne hvold] at hchain'
        exact h.not_chain_circular heq hnew hchain' hv hvold hchain
  · have hafter := h.root_new hnewRoot hroot hv hold
    rw [hr] at hafter
    cases hafter
    exact hnewRoot

/-- **The memory that goes is merged into the one that takes its place**, and the others stay as
they are. -/
theorem root_iff (h : f.Merge copy buffer old new g) {r : ValueId} (hne : r ≠ old) {v : ValueId}
    (hv : f.Known v) : g.root (redirection old new v) = .ok (some r) ↔
      f.root v = .ok (some r) ∨ f.root v = .ok (some old) ∧ f.root new = .ok (some r) := by
  constructor
  · intro hr
    have hrooted : ∃ s, f.root v = .ok (some s) := by
      by_cases hold : v = old
      · rw [hold]
        exact ⟨old, root_eq_some_iff.mpr ⟨_, .root h.isRoot_old⟩⟩
      · rw [redirection_of_ne hold] at hr
        obtain ⟨path, hchain⟩ := root_eq_some_iff.mp hr
        obtain ⟨path', s, hchain'⟩ := h.chain_before hchain hv
        exact ⟨s, root_eq_some_iff.mpr ⟨path', hchain'⟩⟩
    obtain ⟨s, hs⟩ := hrooted
    by_cases hold : s = old
    · subst hold
      exact .inr ⟨hs, h.root_of_root_old hne hv hs hr⟩
    · have hkept := h.root_kept hold hv hs
      rw [hr] at hkept
      cases hkept
      exact .inl hs
  · rintro (hr | ⟨hold, hr⟩)
    · exact h.root_kept hne hv hr
    · exact h.root_new hr hne hv hold

/-- **What is left writes what it wrote**, and where it wrote to the memory that goes, the one that
takes its place. -/
theorem writes_iff (h : f.Merge copy buffer old new g) {r : ValueId} (hne : r ≠ old) {id : OpId} :
    g.Writes id r ↔
      g.Reaches id ∧ (f.Writes id r ∨ f.Writes id old ∧ f.root new = .ok (some r)) := by
  constructor
  · rintro ⟨k', hid, hk', v', hv', hr⟩
    obtain ⟨k, hid', hk, hred⟩ := h.effect.kind_before hid h.compact.toNested hk'
    rw [hred.stores_eq] at hv'
    obtain ⟨v, hv, rfl⟩ := List.mem_map.mp hv'
    have hknown := (h.compact.uses id k hid' hk v (Kind.mem_operands_of_mem_stores hv)).1
    refine ⟨hid, ?_⟩
    rcases (h.root_iff hne hknown).mp hr with hr | ⟨hold, hr⟩
    · exact .inl ⟨k, hid', hk, v, hv, hr⟩
    · exact .inr ⟨⟨k, hid', hk, v, hv, hold⟩, hr⟩
  · rintro ⟨hid, hcase⟩
    have hafter : ∀ {s : ValueId}, f.Writes id s → (∀ v, f.Known v → f.root v = .ok (some s) →
        g.root (redirection old new v) = .ok (some r)) → g.Writes id r := by
      rintro s ⟨k, hid', hk, v, hv, hs⟩ hroot
      obtain ⟨-, k', hk', hred⟩ := h.effect.kind_after hid' ((h.effect.reaches id).mp hid).2 hk
      have hknown := (h.compact.uses id k hid' hk v (Kind.mem_operands_of_mem_stores hv)).1
      refine ⟨k', hid, hk', redirection old new v, ?_, hroot v hknown hs⟩
      rw [hred.stores_eq]
      exact List.mem_map_of_mem hv
    rcases hcase with hwrites | ⟨hwrites, hr⟩
    · exact hafter hwrites fun v hv => h.root_kept hne hv
    · exact hafter hwrites fun v hv => h.root_new hr hne hv

theorem ne_old_of_argument (h : f.Merge copy buffer old new g) {a : ValueId}
    (ha : a ∈ f.arguments) : a ≠ old := by
  rintro rfl
  obtain ⟨position, hposition⟩ := List.mem_iff_getElem?.mp ha
  obtain ⟨value, hvalue, hdef⟩ := h.compact.arguments position a hposition
  obtain ⟨value', hvalue', hdef'⟩ := definerOf_eq_some.mp h.definerOf_old
  rw [hvalue] at hvalue'
  cases hvalue'
  rw [hdef] at hdef'
  cases hdef'

end Merge

end Func

/-! ## 2. Runs -/

/-- The operation in slot `id` wrote to the memory that went, and `a` is the memory that took its
place. -/
def Removal.Carries (m : Removal) (id : OpId) (a : ValueId) : Prop :=
  m.before.Writes id m.what.buffer ∧ m.before.root m.what.replacement = .ok (some a)

namespace Func

variable {f g : Func} {audience : Audience} {ms : List Removal}

/-- **What is left after a run writes the arguments that it wrote, and those to which a removal
carried its writes.** -/
theorem Removes.writes_iff (hrun : Removes audience f ms g) : f.Compact → ∀ {a : ValueId},
    a ∈ f.arguments → ∀ {id : OpId},
      g.Writes id a ↔ g.Reaches id ∧ (f.Writes id a ∨ ∃ m ∈ ms, m.Carries id a) := by
  induction hrun with
  | done f =>
    intro _ a _ id
    simpa using Writes.reaches
  | @step f g h copy what rest hlive hyields hrest ih =>
    intro hcompact a ha id
    obtain ⟨buffer, hmerge⟩ := hcompact.merge_of_yields hlive hyields
    have ha' : a ∈ g.arguments := hmerge.effect.arguments ▸ ha
    rw [ih hmerge.compact_after ha', hmerge.writes_iff (hmerge.ne_old_of_argument ha),
      List.exists_mem_cons_iff]
    refine and_congr_right fun hid => ?_
    rw [and_iff_right (hrest.reaches_before hmerge.compact_after hid), or_assoc]
    rfl

/-- **Removing copies carries writes over to arguments.**  An operation of the result writes an
argument if it did so before, or wrote to a buffer whose place the argument took.  So the result
writes no argument that the function did not write exactly when it wrote every argument to which
a removal carried the writes of an operation that is left. -/
theorem removeCopies_writes_iff (audience : Audience) (f : Func) (hf : f.verify = .ok ())
    (hreached : ∀ id, f.IsLive id → f.Reaches id)
    (hleaves : ∀ id k, f.kindOf id = some k → k.isLeaf = true → f.bodyOf id = []) :
    ∃ (g : Func) (ms : List Removal), f.removeCopies.Yields audience (g, ms.length)
      ∧ Removes audience f ms g
      ∧ (∀ a ∈ f.arguments, ∀ id,
          g.Writes id a ↔ g.Reaches id ∧ (f.Writes id a ∨ ∃ m ∈ ms, m.Carries id a))
      ∧ ((∀ a ∈ f.arguments, g.Written a → f.Written a) ↔
          ∀ a ∈ f.arguments, ∀ m ∈ ms, ∀ id, g.Reaches id → m.Carries id a → f.Written a) := by
  have hcompact : f.Compact := (verify_eq_ok_iff_tidy.mp hf).compact hreached hleaves
  obtain ⟨g, ms, hyields, hrun⟩ := hcompact.removeCopies_yields audience
  refine ⟨g, ms, hyields, hrun, fun a ha id => hrun.writes_iff hcompact ha, ?_⟩
  constructor
  · intro hkept a ha m hm id hid hcarries
    exact hkept a ha ⟨id, (hrun.writes_iff hcompact ha).mpr ⟨hid, .inr ⟨m, hm, hcarries⟩⟩⟩
  · rintro hcarried a ha ⟨id, hwrites⟩
    obtain ⟨hid, hbefore | ⟨m, hm, hcarries⟩⟩ := (hrun.writes_iff hcompact ha).mp hwrites
    · exact ⟨id, hbefore⟩
    · exact hcarried a ha m hm id hid hcarries

theorem not_written_of_all {r : ValueId} (h : f.ops.toList.all fun op =>
      op.kind.stores.all fun v => decide (f.root v ≠ .ok (some r))) : ¬ f.Written r := by
  rintro ⟨id, k, -, hk, v, hv, hr⟩
  obtain ⟨op, hop, rfl⟩ := Option.map_eq_some_iff.mp hk
  have hmem : op ∈ f.ops.toList := Array.mem_toList_iff.mpr (Array.mem_of_getElem? hop)
  exact of_decide_eq_true (List.all_eq_true.mp (List.all_eq_true.mp h op hmem) v hv) hr

/-- An argument is copied to a buffer, and then a computation writes to the buffer. -/
def scratchCopy : Func where
  name := "f"
  arguments := [0]
  body := List.range 3
  ops := #[
    fresh none 0 (.buffer 1 none),
    fresh none 1 (.copy 0 1),
    fresh none 2 (.compute ⟨"s", [], [⟨1, [.const 0]⟩], []⟩)]
  values := #[
    { id := 0, name := "A", shape := [4], space := 0, definition := .argument 0 },
    { id := 1, name := "T", shape := [4], space := 0, definition := .op 0 }]

/-- The copy goes with the buffer, and the computation writes to the argument. -/
theorem removeCopies_scratchCopy :
    ¬ scratchCopy.Written 0 ∧ ∃ (g : Func) (ms : List Removal),
      scratchCopy.removeCopies.Yields none (g, ms.length) ∧ g.Writes 2 0
        ∧ ∃ m ∈ ms, m.Carries 2 0 := by
  have hnot : ¬ scratchCopy.Written 0 := not_written_of_all (by decide)
  obtain ⟨g, ms, ⟨journal, hrun⟩, -, hwrites, -⟩ := removeCopies_writes_iff none scratchCopy
    (by decide) (fun _ => reaches_of_body_eq rfl) fun id _ _ _ => bodyOf_eq_nil rfl id
  have hresult : (match scratchCopy.removeCopies.run none with
      | .ok r => decide (r.1.1.body = [2] ∧ r.1.1.root 0 = .ok (some 0)
          ∧ r.1.1.kindOf 2 = some (.compute ⟨"s", [], [⟨0, [.const 0]⟩], []⟩))
      | .error _ => false) = true := by decide +kernel
  rw [hrun, decide_eq_true_iff] at hresult
  obtain ⟨hbody, hroot, hkind⟩ : g.body = [2] ∧ g.root 0 = .ok (some 0)
    ∧ g.kindOf 2 = some (.compute ⟨"s", [], [⟨0, [.const 0]⟩], []⟩) := hresult
  have hwrite : g.Writes 2 0 :=
    ⟨_, .top (by simp [hbody]), hkind, 0, List.mem_cons_self, hroot⟩
  refine ⟨hnot, g, ms, ⟨journal, hrun⟩, hwrite, ?_⟩
  obtain ⟨-, hbefore | hcarries⟩ := (hwrites 0 List.mem_cons_self 2).mp hwrite
  · exact absurd ⟨2, hbefore⟩ hnot
  · exact hcarries

end Func
end Dataflow
