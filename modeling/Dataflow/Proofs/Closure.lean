/-
# Closure over definitions

What a reached operation mentions has to come from somewhere: it is an argument, or the result of a
buffer or a view.  A function is closed if these buffers and views are reached themselves
(`Func.Closed`); following an operand to its root and on to the node that owns it then stays among
operations that have been checked, and never fails (`Func.Tidy.root_isOk`, `Func.Tidy.owner_isOk`).

The check looks at blocks from the top and at definitions in the table.  All that it asks of a
definer is that it is not erased, so a definer that stands in no block goes unseen, with whatever it
mentions.  A function that is accepted is closed exactly when it would still be accepted with
everything erased that is not reached (`Func.verify_closed_iff`).
-/
import Dataflow.Band.Safeguards
import Dataflow.Proofs.Acceptance
import Dataflow.Proofs.CopySites

namespace Dataflow
namespace Func

variable {f : Func}

/-! ## 1. Operands and their definers -/

/-- `f.Uses v`: a reached operation has the value as an operand. -/
def Uses (f : Func) (v : ValueId) : Prop :=
  ∃ id k, f.Reaches id ∧ f.kindOf id = some k ∧ v ∈ k.operands

/-- `f.Makes d v`: the slot holds a buffer or a view, and the value is its result. -/
def Makes (f : Func) (d : OpId) (v : ValueId) : Prop :=
  (∃ init, f.kindOf d = some (.buffer v init)) ∨ ∃ source, f.kindOf d = some (.view source v)

/-- Every operand is an argument, or made by an operation that is reached. -/
def Closed (f : Func) : Prop :=
  ∀ v, f.Uses v → v ∈ f.arguments ∨ ∃ d, f.Makes d v ∧ f.Reaches d

theorem makes_iff {d : OpId} {v : ValueId} :
    f.Makes d v ↔ ∃ k, f.kindOf d = some k ∧ k.result? = some v := by
  constructor
  · rintro (⟨init, hk⟩ | ⟨source, hk⟩)
    · exact ⟨_, hk, rfl⟩
    · exact ⟨_, hk, rfl⟩
  · rintro ⟨k, hk, hresult⟩
    cases k with
    | buffer result init =>
      cases hresult
      exact .inl ⟨init, hk⟩
    | view source result =>
      cases hresult
      exact .inr ⟨source, hk⟩
    | _ => cases hresult

namespace Tidy

theorem usable (h : f.Tidy) {v : ValueId} (hv : f.Uses v) : f.Usable v := by
  obtain ⟨id, k, hid, hk, hmem⟩ := hv
  obtain ⟨op, hop, rfl⟩ := Option.map_eq_some_iff.mp hk
  exact (h.mentions id op hid hop).uses v (List.mem_append_left _ hmem)

/-- A reached operation is the definer of its result. -/
theorem definerOf_of_makes (h : f.Tidy) {d : OpId} {v : ValueId} (hmakes : f.Makes d v)
    (hd : f.Reaches d) : f.definerOf v = some d := by
  obtain ⟨k, hk, hresult⟩ := makes_iff.mp hmakes
  obtain ⟨op, hop, rfl⟩ := Option.map_eq_some_iff.mp hk
  exact definerOf_eq_some.mpr ((h.mentions d op hd hop).result v hresult)

/-- An operand without a definer is an argument, and no argument has one. -/
theorem mem_arguments_iff (h : f.Tidy) {v : ValueId} (hv : f.Usable v) :
    v ∈ f.arguments ↔ f.definerOf v = none := by
  obtain ⟨value, hvalue, -⟩ := hv
  constructor
  · intro hmem
    obtain ⟨position, hposition⟩ := List.mem_iff_getElem?.mp hmem
    obtain ⟨value', hvalue', hdef⟩ := h.arguments position v hposition
    simp [definerOf, hvalue', hdef, Definition.op?]
  · intro hnone
    have hbacks := h.definitions v value hvalue
    cases hdef : value.definition with
    | argument position =>
      rw [hdef] at hbacks
      exact List.mem_of_getElem? hbacks
    | op d => simp [definerOf, hvalue, hdef, Definition.op?] at hnone

theorem makes_of_definerOf (h : f.Tidy) {d : OpId} {v : ValueId} (hd : f.definerOf v = some d) :
    f.Makes d v :=
  makes_iff.mpr (h.result_of_definerOf hd)

/-- **An operand is an argument, or made by an operation that is not erased.** -/
theorem argument_or_made (h : f.Tidy) {v : ValueId} (hv : f.Uses v) :
    v ∈ f.arguments ∨ ∃ d, f.Makes d v ∧ f.IsLive d := by
  cases hd : f.definerOf v with
  | none => exact .inl ((h.mem_arguments_iff (h.usable hv)).mpr hd)
  | some d => exact .inr ⟨d, h.makes_of_definerOf hd, (h.usable hv).live hd⟩

/-- A function is closed if the definers of its operands are reached. -/
theorem closed_iff (h : f.Tidy) :
    f.Closed ↔ ∀ v, f.Uses v → ∀ d, f.definerOf v = some d → f.Reaches d := by
  constructor
  · intro hclosed v hv d hd
    rcases hclosed v hv with hmem | ⟨d', hmakes, hd'⟩
    · rw [(h.mem_arguments_iff (h.usable hv)).mp hmem] at hd
      cases hd
    · rw [h.definerOf_of_makes hmakes hd'] at hd
      cases hd
      exact hd'
  · intro hreached v hv
    cases hd : f.definerOf v with
    | none => exact .inl ((h.mem_arguments_iff (h.usable hv)).mpr hd)
    | some d => exact .inr ⟨d, h.makes_of_definerOf hd, hreached v hv d hd⟩

/-! ## 2. From an operand to its owner -/

/-- One step of the search for a root: it ends here, or goes on from the source of a view. -/
theorem resolve_step (h : f.Tidy) {v : ValueId} (hv : ∃ value, f.values[v]? = some value)
    (steps : Nat) : f.resolve (steps + 1) v = .ok (some v) ∨ ∃ d source,
      f.definerOf v = some d ∧ f.kindOf d = some (.view source v)
      ∧ f.resolve (steps + 1) v = f.resolve steps source := by
  have hend : f.IsRoot v → f.resolve (steps + 1) v = .ok (some v) := fun hroot =>
    (Chain.root hroot).resolve_eq (Nat.succ_pos steps)
  cases hd : f.definerOf v with
  | none => exact .inl (hend ⟨hv, fun d hd' => by rw [hd] at hd'; cases hd'⟩)
  | some d =>
    rcases h.makes_of_definerOf hd with ⟨init, hk⟩ | ⟨source, hk⟩
    · exact .inl (hend (isRoot_of_buffer hd ⟨v, init, hk⟩))
    · obtain ⟨value, hvalue, hdef⟩ := definerOf_eq_some.mp hd
      refine .inr ⟨d, source, rfl, hk, ?_⟩
      rw [resolve, value_eq_ok_iff.mpr hvalue, Checked.ok_bind, hdef]
      simp [kind_eq_ok.mpr hk]

/-- In a closed function the search for a root never fails, and ends at an operand. -/
theorem resolve_isOk (h : f.Tidy) (hclosed : f.Closed) : ∀ (steps : Nat) {v : ValueId}, f.Uses v →
    ∃ r?, f.resolve steps v = .ok r? ∧ ∀ r, r? = some r → f.Uses r
  | 0, _, _ => ⟨none, rfl, fun _ hr => by cases hr⟩
  | steps + 1, v, hv => by
    obtain ⟨value, hvalue, -⟩ := h.usable hv
    rcases h.resolve_step ⟨value, hvalue⟩ steps with hend | ⟨d, source, hd, hk, hstep⟩
    · refine ⟨some v, hend, ?_⟩
      rintro _ ⟨⟩
      exact hv
    · have hsource : f.Uses source :=
        ⟨d, _, h.closed_iff.mp hclosed v hv d hd, hk, List.mem_singleton_self source⟩
      rw [hstep]
      exact resolve_isOk h hclosed steps hsource

/-- **The search for a root fails at the source of a view that is not reached, and nowhere
else.** -/
theorem resolve_eq_error (h : f.Tidy) {fault : Fault} : ∀ {steps : Nat} {v : ValueId},
    (∃ value, f.values[v]? = some value) → f.resolve steps v = .error fault →
      ∃ d source result, ¬ f.Reaches d ∧ f.kindOf d = some (.view source result)
        ∧ fault = .unknownValue source
  | 0, _, _, hfault => by cases hfault
  | steps + 1, v, hv, hfault => by
    rcases h.resolve_step hv steps with hend | ⟨d, source, hd, hk, hstep⟩
    · rw [hend] at hfault
      cases hfault
    · rw [hstep] at hfault
      cases hsource : f.values[source]? with
      | some value => exact resolve_eq_error h ⟨value, hsource⟩ hfault
      | none =>
        refine ⟨d, source, v, fun hreached => ?_, hk, ?_⟩
        · -- The operands of a reached view exist.
          obtain ⟨value, hvalue, -⟩ :=
            h.usable ⟨d, _, hreached, hk, List.mem_singleton_self source⟩
          rw [hsource] at hvalue
          cases hvalue
        · cases steps with
          | zero => cases hfault
          | succ steps =>
            rw [resolve, value, hsource] at hfault
            cases hfault
            rfl

theorem root_isOk (h : f.Tidy) (hclosed : f.Closed) {v : ValueId} (hv : f.Uses v) :
    ∃ r?, f.root v = .ok r? ∧ ∀ r, r? = some r → f.Uses r :=
  h.resolve_isOk hclosed _ hv

/-- **In a closed function every operand can be followed to the node that owns it.** -/
theorem owner_isOk (h : f.Tidy) (hclosed : f.Closed) {v : ValueId} (hv : f.Uses v) :
    ∃ node?, f.owner v = .ok node? := by
  obtain ⟨r?, hroot, huses⟩ := h.root_isOk hclosed hv
  rw [owner, hroot, Checked.ok_bind]
  cases r? with
  | none => exact ⟨none, rfl⟩
  | some r =>
    have hr := huses r rfl
    obtain ⟨value, hvalue, -⟩ := h.usable hr
    obtain ⟨buffer?, hbuffer⟩ := h.bufferOp_isOk ⟨value, hvalue⟩
    simp only [hbuffer, Checked.ok_bind]
    cases buffer? with
    | none => exact ⟨none, rfl⟩
    | some buffer =>
      obtain ⟨hdefiner, -⟩ := bufferOp_eq_some hbuffer
      exact h.nodeAround_isOk (h.closed_iff.mp hclosed r hr buffer hdefiner)

end Tidy

/-! ## 3. Erasing what is not reached -/

/-- The function with every operation erased that is not listed. -/
def keepOnly (f : Func) (kept : List OpId) : Func :=
  f.edit fun id op => { op with erased := op.erased || !kept.contains id }

section KeepOnly

variable {kept : List OpId}

@[simp] theorem kindOf_keepOnly (id : OpId) : (f.keepOnly kept).kindOf id = f.kindOf id := by
  simp only [kindOf, keepOnly, getElem?_ops_edit, Option.map_map]
  rfl

@[simp] theorem parentOf_keepOnly (id : OpId) : (f.keepOnly kept).parentOf id = f.parentOf id := by
  simp only [parentOf, keepOnly, getElem?_ops_edit]
  cases f.ops[id]? <;> rfl

@[simp] theorem bodyOf_keepOnly (id : OpId) : (f.keepOnly kept).bodyOf id = f.bodyOf id := by
  simp only [bodyOf, keepOnly, getElem?_ops_edit]
  cases f.ops[id]? <;> rfl

@[simp] theorem isLive_keepOnly {id : OpId} :
    (f.keepOnly kept).IsLive id ↔ f.IsLive id ∧ id ∈ kept := by
  simp only [IsLive, keepOnly, getElem?_ops_edit, Option.map_eq_some_iff]
  constructor
  · rintro ⟨_, ⟨op, hop, rfl⟩, hlive⟩
    simp only [Bool.or_eq_false_iff, Bool.not_eq_false', List.contains_iff_mem] at hlive
    exact ⟨⟨op, hop, hlive.1⟩, hlive.2⟩
  · rintro ⟨⟨op, hop, hlive⟩, hmem⟩
    exact ⟨_, ⟨op, hop, rfl⟩, by simp [hlive, hmem]⟩

theorem reaches_keepOnly {id : OpId} : (f.keepOnly kept).Reaches id ↔ f.Reaches id := by
  constructor
  · intro h
    induction h with
    | top hid => exact .top hid
    | nested _ hid ih => exact .nested ih (by simpa using hid)
  · intro h
    induction h with
    | top hid => exact .top hid
    | nested _ hid ih => exact .nested ih (by simpa using hid)

theorem isLoop_keepOnly {id : OpId} : (f.keepOnly kept).IsLoop id ↔ f.IsLoop id := by
  simp only [IsLoop, kindOf_keepOnly]

theorem above_keepOnly : (f.keepOnly kept).Above = f.Above := by
  have hparent : (f.keepOnly kept).IsParent = f.IsParent := by
    funext parent id
    rw [IsParent, IsParent, parentOf_keepOnly]
  rw [Above, Above, hparent]

theorem TablesAgree.keepOnly (h : f.TablesAgree) : (f.keepOnly kept).TablesAgree where
  opSlots := fun i op' hop' => by
    rw [Func.keepOnly, getElem?_ops_edit, Option.map_eq_some_iff] at hop'
    obtain ⟨op, hop, rfl⟩ := hop'
    exact h.opSlots i op hop
  valueSlots := h.valueSlots
  definitions := fun i v hv => by
    have hbacks := h.definitions i v hv
    cases hdef : v.definition with
    | argument position =>
      rw [hdef] at hbacks
      exact hbacks
    | op d =>
      rw [hdef] at hbacks
      obtain ⟨op, hop, hresult⟩ := hbacks
      refine ⟨{ op with erased := op.erased || !kept.contains d }, ?_, hresult⟩
      rw [Func.keepOnly, getElem?_ops_edit, hop]
      rfl
  arguments := h.arguments

theorem Nested.keepOnly (h : f.Nested) (hkept : ∀ id, f.Reaches id → id ∈ kept) :
    (f.keepOnly kept).Nested where
  nodup_body := h.nodup_body
  parentOf_top := fun id hid => by
    rw [parentOf_keepOnly]
    exact h.parentOf_top id hid
  nodup_bodyOf := fun owner howner => by
    rw [bodyOf_keepOnly]
    exact h.nodup_bodyOf owner (reaches_keepOnly.mp howner)
  parentOf_nested := fun owner howner id hid => by
    rw [bodyOf_keepOnly] at hid
    rw [parentOf_keepOnly]
    exact h.parentOf_nested owner (reaches_keepOnly.mp howner) id hid
  live := fun id hid => by
    have hid' := reaches_keepOnly.mp hid
    exact isLive_keepOnly.mpr ⟨h.live id hid', hkept id hid'⟩

theorem usable_keepOnly {v : ValueId} : (f.keepOnly kept).Usable v ↔
    f.Usable v ∧ ∀ d, f.definerOf v = some d → d ∈ kept := by
  constructor
  · rintro ⟨value, hvalue, hlive⟩
    have hboth : ∀ d, value.definition = .op d → f.IsLive d ∧ d ∈ kept := fun d hd =>
      isLive_keepOnly.mp (hlive d hd)
    refine ⟨⟨value, hvalue, fun d hd => (hboth d hd).1⟩, fun d hd => ?_⟩
    obtain ⟨value', hvalue', hdef⟩ := definerOf_eq_some.mp hd
    cases hvalue.symm.trans hvalue'
    exact (hboth d hdef).2
  · rintro ⟨⟨value, hvalue, hlive⟩, hmem⟩
    refine ⟨value, hvalue, fun d hd => isLive_keepOnly.mpr ⟨hlive d hd, hmem d ?_⟩⟩
    exact definerOf_eq_some.mpr ⟨value, hvalue, hd⟩

/-- **Erasing what is not reached leaves a function in order exactly if it is closed.** -/
theorem Tidy.keepOnly_iff (h : f.Tidy) (hkept : ∀ id, id ∈ kept ↔ f.Reaches id) :
    (f.keepOnly kept).Tidy ↔ f.Closed := by
  rw [h.closed_iff]
  constructor
  · rintro hg v ⟨id, k, hid, hk, hmem⟩ d hd
    have huses : (f.keepOnly kept).Uses v :=
      ⟨id, k, reaches_keepOnly.mpr hid, (kindOf_keepOnly id).trans hk, hmem⟩
    exact (hkept d).mp ((usable_keepOnly.mp (hg.usable huses)).2 d hd)
  · intro hclosed
    refine { toTablesAgree := h.toTablesAgree.keepOnly,
             toNested := h.toNested.keepOnly fun id => (hkept id).mpr,
             mentions := fun id op' hid hop' => ?_ }
    rw [reaches_keepOnly] at hid
    rw [Func.keepOnly, getElem?_ops_edit, Option.map_eq_some_iff] at hop'
    obtain ⟨op, hop, rfl⟩ := hop'
    have hmentions := h.mentions id op hid hop
    refine ⟨fun v hv => usable_keepOnly.mpr ⟨hmentions.uses v hv, fun d hd => ?_⟩,
      hmentions.result, fun l hl => ?_, fun c hc l hl => ?_⟩
    · rcases List.mem_append.mp hv with hv | hv
      · exact (hkept d).mpr (hclosed v ⟨id, op.kind, hid, kindOf_eq hop, hv⟩ d hd)
      · -- A result is defined by the operation itself, which is reached.
        have hself := definerOf_eq_some.mpr (hmentions.result v (Option.mem_toList.mp hv))
        cases hself.symm.trans hd
        exact (hkept id).mpr hid
    · refine (hmentions.loop l hl).imp_right fun htile tile hpoint => ?_
      exact isLoop_keepOnly.mpr (htile tile hpoint)
    · rw [above_keepOnly]
      exact (hmentions.compute c hc l hl).imp_left isLoop_keepOnly.mpr

end KeepOnly

/-- The walk over a function lists what is reached. -/
theorem Nested.exists_walk (h : f.Nested) :
    ∃ reached, f.walk = .ok reached ∧ ∀ id, id ∈ reached ↔ f.Reaches id := by
  obtain ⟨reached, hwalk⟩ := h.walk_isOk
  exact ⟨reached, hwalk, fun id => h.mem_walk hwalk⟩

/-! ## 4. What acceptance says about definers -/

/-- **Acceptance closes a function up to operations that stand in no block.**  An operand is an
argument or made by a buffer or a view that is not erased.  That these are reached too follows
neither from this nor from anything else that is checked: it holds exactly if the function is still
accepted with everything erased that is not reached, so in particular if there is nothing else.
Where it holds, an operand can be followed to its root and to its owner; where it does not, the way
to the root can only fail at what a view mentions that is not reached. -/
theorem verify_closed_iff (f : Func) (hf : f.verify = .ok ()) :
    (∀ v, f.Uses v → v ∈ f.arguments ∨ ∃ d, f.Makes d v ∧ f.IsLive d)
    ∧ (∃ reached, f.walk = .ok reached
        ∧ (f.Closed ↔ (f.keepOnly reached).verify = .ok ()))
    ∧ ((∀ id, f.IsLive id → f.Reaches id) → f.Closed)
    ∧ (f.Closed → ∀ v, f.Uses v →
        (∃ r?, f.root v = .ok r?) ∧ ∃ node?, f.owner v = .ok node?)
    ∧ ∀ v fault, f.Uses v → f.root v = .error fault →
        ∃ d source result, ¬ f.Reaches d ∧ f.kindOf d = some (.view source result)
          ∧ fault = .unknownValue source := by
  have h := verify_eq_ok_iff_tidy.mp hf
  refine ⟨fun v => h.argument_or_made, ?_, fun hreached v hv => ?_, fun hclosed v hv => ?_,
    fun v fault hv hfault => ?_⟩
  · obtain ⟨reached, hwalk, hmem⟩ := h.exists_walk
    refine ⟨reached, hwalk, ?_⟩
    rw [verify_eq_ok_iff_tidy]
    exact (h.keepOnly_iff hmem).symm
  · exact (h.argument_or_made hv).imp_right fun ⟨d, hmakes, hlive⟩ => ⟨d, hmakes, hreached d hlive⟩
  · exact ⟨(h.root_isOk hclosed hv).imp fun _ hr => hr.1, h.owner_isOk hclosed hv⟩
  · exact h.resolve_eq_error ((h.usable hv).imp fun _ hvalue => hvalue.1) hfault

/-- A copy to a view that stands in no block, of a value that does not exist. -/
def strayView : Func where
  name := "f"
  arguments := [0]
  body := [0]
  ops := #[fresh none 0 (.copy 0 1), fresh none 1 (.view 7 1)]
  values := #[{ id := 0, name := "A", shape := [4], space := 0, definition := .argument 0 },
              { id := 1, name := "V", shape := [4], space := 0, definition := .op 1 }]

/-- The function with the stray view is accepted, though following the view fails. -/
theorem not_closed_strayView : strayView.verify = .ok () ∧ strayView.Uses 1
    ∧ strayView.root 1 = .error (.unknownValue 7) ∧ ¬ strayView.Closed
    ∧ (strayView.keepOnly [0]).verify ≠ .ok () := by
  have hverify : strayView.verify = .ok () := by decide
  have huses : strayView.Uses 1 := ⟨0, .copy 0 1, .top (by decide), rfl, by decide⟩
  have hroot : strayView.root 1 = .error (.unknownValue 7) := rfl
  obtain ⟨-, ⟨reached, hwalk, hiff⟩, -, hfollow, -⟩ := verify_closed_iff strayView hverify
  have hopen : ¬ strayView.Closed := fun hclosed => by
    obtain ⟨⟨r?, hr⟩, -⟩ := hfollow hclosed 1 huses
    rw [hroot] at hr
    cases hr
  have hreached : reached = [0] := by
    have hlist : strayView.walk = .ok [0] := rfl
    rw [hlist] at hwalk
    cases hwalk
    rfl
  subst hreached
  exact ⟨hverify, huses, hroot, hopen, mt hiff.mpr hopen⟩

end Func
end Dataflow
