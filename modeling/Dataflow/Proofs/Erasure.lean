/-
# Erasing and redirecting

Erasing an operation that nothing is nested in takes it out of its block and flags it
(`Func.detach`): the others stay where they are, and the forest is the old one without a leaf.
Redirecting a value changes what the reached operations are and nothing else.

`Func.Rewritten` says what either leaves of a function, and one after the other they compose
(`Func.Rewritten.trans`).  A copy and a buffer erased, and the uses of the buffer's value redirected
in between, are one rewriting (`Func.Nested.dropBuffer_isOk`).
-/
import Dataflow.Memory.Copy
import Dataflow.Proofs.Edits
import Dataflow.Proofs.Precedence
import Dataflow.Proofs.Roots

namespace Dataflow

/-! ## 1. Kinds with other operands -/

/-- `old` sent to `new`, and every other value to itself. -/
def redirection (old new : ValueId) (v : ValueId) : ValueId := if v = old then new else v

/-- `k.Redirected σ k'`: the operands sent through `σ`, or a buffer with another initial value. -/
inductive Kind.Redirected (σ : ValueId → ValueId) : Kind → Kind → Prop
  | operands (k : Kind) : Redirected σ k (k.mapOperands σ)
  | init (result : ValueId) (init init' : Option Int) :
      Redirected σ (.buffer result init) (.buffer result init')

namespace Kind

theorem mapOperands_id (k : Kind) : k.mapOperands id = k := by
  cases k <;> simp [mapOperands]

theorem mapOperands_mapOperands (σ τ : ValueId → ValueId) (k : Kind) :
    (k.mapOperands σ).mapOperands τ = k.mapOperands (τ ∘ σ) := by
  cases k <;> simp [mapOperands, Function.comp_def]

namespace Redirected

variable {σ τ : ValueId → ValueId} {k k' k'' : Kind}

theorem refl (k : Kind) : k.Redirected id k := by
  have h := Redirected.operands (σ := id) k
  rwa [mapOperands_id] at h

theorem result? (h : k.Redirected σ k') : k'.result? = k.result? := by
  cases h with
  | operands => exact result?_mapOperands σ k
  | init => rfl

theorem operands_eq (h : k.Redirected σ k') : k'.operands = k.operands.map σ := by
  cases h with
  | operands => exact operands_mapOperands σ k
  | init => rfl

theorem isLeaf (h : k.Redirected σ k') : k'.isLeaf = k.isLeaf := by
  cases h with
  | operands => cases k <;> rfl
  | init => rfl

theorem viewResult? (h : k.Redirected σ k') : Func.viewResult? k' = Func.viewResult? k := by
  cases h with
  | operands => cases k <;> rfl
  | init => rfl

theorem view {source result : ValueId} (h : Redirected σ (.view source result) k') :
    k' = .view (σ source) result := by
  cases h
  rfl

theorem of_view {source result : ValueId} (h : k.Redirected σ (.view source result)) :
    ∃ source', k = .view source' result ∧ source = σ source' := by
  cases k with
  | view source' result' =>
    cases h.view
    exact ⟨source', rfl, rfl⟩
  | _ => cases h

theorem buffer {result : ValueId} {init : Option Int} (h : Redirected σ (.buffer result init) k') :
    ∃ init', k' = .buffer result init' := by
  cases h with
  | operands => exact ⟨init, rfl⟩
  | init _ _ init' => exact ⟨init', rfl⟩

theorem trans (h : k.Redirected σ k') (h' : k'.Redirected τ k'') : k.Redirected (τ ∘ σ) k'' := by
  cases k with
  | buffer result init =>
    obtain ⟨init', rfl⟩ := h.buffer
    obtain ⟨init'', rfl⟩ := h'.buffer
    exact .init result init init''
  | _ =>
    cases h
    cases h'
    rw [mapOperands_mapOperands]
    exact .operands _

theorem loop {l : Loop} (h : Redirected σ (.loop l) k') : k' = .loop l := by
  cases h
  rfl

theorem of_loop {l : Loop} (h : k.Redirected σ (.loop l)) : k = .loop l := by
  cases k with
  | loop l' =>
    cases h.loop
    rfl
  | _ => cases h

theorem of_compute {c' : Compute} (h : k.Redirected σ (.compute c')) :
    ∃ c, k = .compute c ∧ c'.loops = c.loops := by
  cases k with
  | compute c =>
    cases h
    exact ⟨c, rfl, by simp [Compute.loops, Compute.accesses, List.flatMap_map]⟩
  | _ => cases h

end Redirected
end Kind

namespace Func

variable {f g : Func}

/-! ## 2. Erasing a leaf -/

/-- The function without an operation, except for a flagged entry. -/
def detach (f : Func) (id : OpId) : Func :=
  { f.edit fun i op =>
      { op with
        body := if f.parentOf id = some i then op.body.filter (· != id) else op.body
        erased := op.erased || decide (i = id) } with
    body := if f.parentOf id = none then f.body.filter (· != id) else f.body }

@[simp] theorem getElem?_ops_detach (f : Func) (id i : OpId) :
    (f.detach id).ops[i]? = f.ops[i]?.map fun op =>
      { op with
        body := if f.parentOf id = some i then op.body.filter (· != id) else op.body
        erased := op.erased || decide (i = id) } :=
  getElem?_ops_edit f _ i

theorem walkFrom_leaf {id : OpId} {op : Op} (hop : f.ops[id]? = some op) (hbody : op.body = []) :
    f.walkFrom id = .ok [id] := by
  simp [walkFrom, entriesOf, depthBound, nest, op_eq_ok_iff.mpr hop, hbody]

/-- **Erasing an operation that nothing is nested in.** -/
theorem erase_eq {id : OpId} {op : Op} (hop : f.ops[id]? = some op) (hbody : op.body = [])
    (hparent : ∀ p, op.parent = some p → p < f.ops.size) : f.erase id = .ok (f.detach id) := by
  have hof : f.parentOf id = op.parent := parentOf_eq hop
  rw [erase, op_eq_ok_iff.mpr hop, Checked.ok_bind]
  cases hp : op.parent with
  | none =>
    rw [modifyBlock, Checked.ok_bind,
      walkFrom_leaf (f := { f with body := f.body.filter (· != id) }) hop hbody, Checked.ok_bind,
      modifyOps_eq, Checked.pure_eq_ok, Except.ok.injEq]
    refine ext_ops rfl rfl ?_ rfl fun i => ?_
    · simp [detach, hof, hp]
    · rw [getElem?_ops_edit, getElem?_ops_detach]
      congr 1
      funext op'
      by_cases hi : i = id <;> simp [hof, hp, hi]
  | some p =>
    rw [modifyBlock, modifyOp_eq_ok.mpr ⟨hparent p hp, rfl⟩, Checked.ok_bind]
    have hop' :
        (f.edit (changeAt p fun op => { op with body := op.body.filter (· != id) })).ops[id]? =
          some (changeAt p (fun op => { op with body := op.body.filter (· != id) }) id op) := by
      rw [getElem?_ops_edit, hop]
      rfl
    have hbody' :
        (changeAt p (fun op => { op with body := op.body.filter (· != id) }) id op).body = [] := by
      by_cases hid : id = p
      · simp [changeAt, hid, hbody]
      · rw [changeAt_of_ne hid, hbody]
    rw [walkFrom_leaf hop' hbody', Checked.ok_bind, modifyOps_eq, edit_edit, Checked.pure_eq_ok,
      Except.ok.injEq]
    refine ext_ops rfl rfl ?_ rfl fun i => ?_
    · simp [detach, hof, hp]
    · rw [getElem?_ops_edit, getElem?_ops_detach]
      congr 1
      funext op'
      by_cases hip : i = p
      · subst hip
        by_cases hi : i = id <;> simp [hof, hp, hi]
      · have hpi : ¬ p = i := fun h => hip h.symm
        rw [changeAt_of_ne hip, hof, hp]
        rcases eq_or_ne i id with rfl | hi
        · simp [hpi]
        · simp [hpi, hi]

@[simp] theorem parentOf_detach (f : Func) (id i : OpId) :
    (f.detach id).parentOf i = f.parentOf i := by
  cases hop : f.ops[i]? <;> simp [parentOf, hop]

@[simp] theorem kindOf_detach (f : Func) (id i : OpId) : (f.detach id).kindOf i = f.kindOf i := by
  cases hop : f.ops[i]? <;> simp [kindOf, hop]

theorem isLive_detach {id i : OpId} : (f.detach id).IsLive i ↔ f.IsLive i ∧ i ≠ id := by
  rw [IsLive, getElem?_ops_detach, IsLive]
  cases f.ops[i]? <;> simp

theorem bodyOf_detach_nil {id i : OpId} (h : f.bodyOf i = []) : (f.detach id).bodyOf i = [] := by
  rw [bodyOf] at h
  rw [bodyOf, getElem?_ops_detach]
  cases hop : f.ops[i]? with
  | none => rfl
  | some op =>
    have hbody : op.body = [] := by simpa [hop] using h
    simp [hbody]

/-- No block gains or moves anything. -/
theorem blockOf_detach_sublist (f : Func) (id : OpId) (owner : Option OpId) :
    ((f.detach id).blockOf owner).Sublist (f.blockOf owner) := by
  cases owner with
  | none =>
    simp only [blockOf, detach]
    split
    · exact List.filter_sublist
    · exact .refl _
  | some i =>
    simp only [blockOf, bodyOf, getElem?_ops_detach]
    cases f.ops[i]? with
    | none => exact .refl _
    | some op =>
      simp only [Option.map_some, Option.getD_some]
      split
      · exact List.filter_sublist
      · exact .refl _

namespace Nested

/-- Only the block of its parent lists an operation, so it leaves every block. -/
theorem body_detach (h : f.Nested) (id : OpId) : (f.detach id).body = f.body.filter (· != id) := by
  rw [detach]
  split
  · rfl
  · rename_i hparent
    refine (List.filter_eq_self.mpr fun i hi => bne_iff_ne.mpr ?_).symm
    rintro rfl
    exact hparent (h.parentOf_top i hi)

theorem bodyOf_detach (h : f.Nested) (id : OpId) {owner : OpId} (howner : f.Reaches owner) :
    (f.detach id).bodyOf owner = (f.bodyOf owner).filter (· != id) := by
  obtain ⟨op, hop, -⟩ := h.live owner howner
  rw [bodyOf, getElem?_ops_detach, bodyOf_eq hop, hop, Option.map_some, Option.map_some,
    Option.getD_some]
  dsimp only
  split
  · rfl
  · rename_i hparent
    refine (List.filter_eq_self.mpr fun i hi => bne_iff_ne.mpr ?_).symm
    rintro rfl
    exact hparent (h.parentOf_nested owner howner i (bodyOf_eq hop ▸ hi))

/-- **Everything else stays reached.** -/
theorem reaches_detach (h : f.Nested) {id : OpId} (hleaf : f.bodyOf id = []) {i : OpId} :
    (f.detach id).Reaches i ↔ f.Reaches i ∧ i ≠ id := by
  constructor
  · intro hi
    induction hi with
    | top hi =>
      rw [h.body_detach, List.mem_filter, bne_iff_ne] at hi
      exact ⟨.top hi.1, hi.2⟩
    | nested _ hi ih =>
      rw [h.bodyOf_detach id ih.1, List.mem_filter, bne_iff_ne] at hi
      exact ⟨.nested ih.1 hi.1, hi.2⟩
  · rintro ⟨hi, hne⟩
    induction hi with
    | top hi =>
      refine .top ?_
      rw [h.body_detach, List.mem_filter, bne_iff_ne]
      exact ⟨hi, hne⟩
    | @nested owner i howner hi ih =>
      -- The owner is not the leaf: something is nested in it.
      have howner' : owner ≠ id := by
        rintro rfl
        rw [hleaf] at hi
        cases hi
      refine .nested (ih howner') ?_
      rw [h.bodyOf_detach id howner, List.mem_filter, bne_iff_ne]
      exact ⟨hi, hne⟩

theorem detach (h : f.Nested) {id : OpId} (hleaf : f.bodyOf id = []) : (f.detach id).Nested where
  nodup_body := by
    rw [h.body_detach]
    exact h.nodup_body.filter _
  parentOf_top := fun i hi => by
    rw [h.body_detach, List.mem_filter] at hi
    rw [parentOf_detach]
    exact h.parentOf_top i hi.1
  nodup_bodyOf := fun owner howner => by
    have howner' := ((h.reaches_detach hleaf).mp howner).1
    rw [h.bodyOf_detach id howner']
    exact (h.nodup_bodyOf owner howner').filter _
  parentOf_nested := fun owner howner i hi => by
    have howner' := ((h.reaches_detach hleaf).mp howner).1
    rw [h.bodyOf_detach id howner', List.mem_filter] at hi
    rw [parentOf_detach]
    exact h.parentOf_nested owner howner' i hi.1
  live := fun i hi => by
    obtain ⟨hi', hne⟩ := (h.reaches_detach hleaf).mp hi
    exact isLive_detach.mpr ⟨h.live i hi', hne⟩

/-- A reached operation that nothing is nested in can be erased. -/
theorem erase_leaf (h : f.Nested) {id : OpId} (hid : f.Reaches id) (hleaf : f.bodyOf id = []) :
    f.erase id = .ok (f.detach id) := by
  obtain ⟨op, hop, -⟩ := h.live id hid
  refine erase_eq hop (bodyOf_eq hop ▸ hleaf) fun p hp => ?_
  exact h.lt_size ((h.mem_blockOf hid).2 p ((parentOf_eq hop).trans hp))

end Nested

/-! ## 3. Rewriting -/

/-- `f.Rewritten gone σ g`: some leaves are gone, and what is left has its operands sent through
`σ`.  Of entries that are not reached only what the tables need is said. -/
structure Rewritten (f : Func) (gone : OpId → Prop) (σ : ValueId → ValueId) (g : Func) : Prop where
  values : g.values = f.values
  arguments : g.arguments = f.arguments
  nested : g.Nested
  reaches : ∀ i, g.Reaches i ↔ f.Reaches i ∧ ¬ gone i
  isLive : ∀ i, g.IsLive i ↔ f.IsLive i ∧ ¬ gone i
  parentOf : ∀ i, g.parentOf i = f.parentOf i
  leaf : ∀ i, f.bodyOf i = [] → g.bodyOf i = []
  blocks : ∀ owner, (g.blockOf owner).Sublist (f.blockOf owner)
  slot : ∀ (i : OpId) (op' : Op), g.ops[i]? = some op' → ∃ op, f.ops[i]? = some op ∧ op'.id = op.id
  kind : ∀ i k, f.kindOf i = some k → ∃ τ k', g.kindOf i = some k' ∧ k.Redirected τ k'
    ∧ (g.Reaches i → τ = σ)

namespace Rewritten

variable {h : Func} {gone gone' : OpId → Prop} {σ τ : ValueId → ValueId}

/-- One rewriting after another is one rewriting. -/
theorem trans (hg : f.Rewritten gone σ g) (hh : g.Rewritten gone' τ h) :
    f.Rewritten (fun i => gone i ∨ gone' i) (τ ∘ σ) h where
  values := hh.values.trans hg.values
  arguments := hh.arguments.trans hg.arguments
  nested := hh.nested
  reaches := fun i => by rw [hh.reaches, hg.reaches, and_assoc, not_or]
  isLive := fun i => by rw [hh.isLive, hg.isLive, and_assoc, not_or]
  parentOf := fun i => (hh.parentOf i).trans (hg.parentOf i)
  leaf := fun i hi => hh.leaf i (hg.leaf i hi)
  blocks := fun owner => (hh.blocks owner).trans (hg.blocks owner)
  slot := fun i op'' hop'' => by
    obtain ⟨op', hop', hid'⟩ := hh.slot i op'' hop''
    obtain ⟨op, hop, hid⟩ := hg.slot i op' hop'
    exact ⟨op, hop, hid'.trans hid⟩
  kind := fun i k hk => by
    obtain ⟨σ', k', hk', hred, hσ⟩ := hg.kind i k hk
    obtain ⟨τ', k'', hk'', hred', hτ⟩ := hh.kind i k' hk'
    refine ⟨τ' ∘ σ', k'', hk'', hred.trans hred', fun hi => ?_⟩
    rw [hτ hi, hσ ((hh.reaches i).mp hi).1]

/-- What is left was there, with other operands... -/
theorem kind_before (hg : f.Rewritten gone σ g) {i : OpId} {k' : Kind} (hi : g.Reaches i)
    (hf : f.Nested) (hk' : g.kindOf i = some k') :
    ∃ k, f.Reaches i ∧ f.kindOf i = some k ∧ k.Redirected σ k' := by
  have hi' := ((hg.reaches i).mp hi).1
  obtain ⟨op, hop, -⟩ := hf.live i hi'
  obtain ⟨τ, k, hk, hred, hτ⟩ := hg.kind i op.kind (kindOf_eq hop)
  rw [hk'] at hk
  cases hk
  exact ⟨op.kind, hi', kindOf_eq hop, hτ hi ▸ hred⟩

/-- ...and what was there and is not gone is left. -/
theorem kind_after (hg : f.Rewritten gone σ g) {i : OpId} {k : Kind} (hi : f.Reaches i)
    (hgone : ¬ gone i) (hk : f.kindOf i = some k) :
    g.Reaches i ∧ ∃ k', g.kindOf i = some k' ∧ k.Redirected σ k' := by
  have hi' := (hg.reaches i).mpr ⟨hi, hgone⟩
  obtain ⟨τ, k', hk', hred, hτ⟩ := hg.kind i k hk
  exact ⟨hi', k', hk', hτ hi' ▸ hred⟩

theorem definerOf (hg : f.Rewritten gone σ g) (v : ValueId) : g.definerOf v = f.definerOf v := by
  rw [Func.definerOf, hg.values, Func.definerOf]

theorem kind_buffer (hg : f.Rewritten gone σ g) {d : OpId} {result : ValueId} {init : Option Int}
    (hk : f.kindOf d = some (.buffer result init)) :
    ∃ init', g.kindOf d = some (.buffer result init') := by
  obtain ⟨τ, k', hk', hred, -⟩ := hg.kind d _ hk
  obtain ⟨init', rfl⟩ := hred.buffer
  exact ⟨init', hk'⟩

theorem isLoop (hg : f.Rewritten gone σ g) {id : OpId} (h : f.IsLoop id) : g.IsLoop id := by
  obtain ⟨l, hl⟩ := h
  obtain ⟨τ, k', hk', hred, -⟩ := hg.kind id _ hl
  exact ⟨l, hred.loop ▸ hk'⟩

/-- A rewritten function is compact if what it uses is there. -/
theorem compact (hg : f.Rewritten gone σ g) (hf : f.Compact)
    (huses : ∀ id k, g.Reaches id → g.kindOf id = some k → ∀ v ∈ k.operands,
      g.Known v ∧ (viewResult? k = none → g.Usable v)) : g.Compact where
  toTablesAgree := by
    refine hf.toTablesAgree.transfer hg.values hg.arguments (fun i op' hop' => ?_)
      fun i op hop => ?_
    · obtain ⟨op, hop, hid⟩ := hg.slot i op' hop'
      exact hid.trans (hf.opSlots i op hop)
    · obtain ⟨τ, k', hk', hred, -⟩ := hg.kind i op.kind (kindOf_eq hop)
      obtain ⟨op', hop', rfl⟩ := Option.map_eq_some_iff.mp hk'
      exact ⟨op', hop', hred.result?⟩
  toNested := hg.nested
  reached := fun id hid => by
    obtain ⟨hlive, hgone⟩ := (hg.isLive id).mp hid
    exact (hg.reaches id).mpr ⟨hf.reached id hlive, hgone⟩
  leaves := fun id k' hk' hleaf => by
    obtain ⟨op', hop', -⟩ := Option.map_eq_some_iff.mp hk'
    obtain ⟨op, hop, -⟩ := hg.slot id op' hop'
    obtain ⟨τ, k'', hk'', hred, -⟩ := hg.kind id op.kind (kindOf_eq hop)
    rw [hk'] at hk''
    cases hk''
    rw [hred.isLeaf] at hleaf
    exact hg.leaf id (hf.leaves id op.kind (kindOf_eq hop) hleaf)
  uses := huses
  result := fun id k' v hid hk' hv => by
    obtain ⟨k, hid', hk, hred⟩ := hg.kind_before hid hf.toNested hk'
    rw [hred.result?] at hv
    rw [hg.definerOf]
    exact hf.result id k v hid' hk hv
  loop := fun id l hid hk' => by
    obtain ⟨k, hid', hk, hred⟩ := hg.kind_before hid hf.toNested hk'
    obtain ⟨hstep, htile⟩ := hf.loop id l hid' (hred.of_loop ▸ hk)
    exact ⟨hstep, fun tile ht => hg.isLoop (htile tile ht)⟩
  compute := fun id c' hid hk' l hl => by
    obtain ⟨k, hid', hk, hred⟩ := hg.kind_before hid hf.toNested hk'
    obtain ⟨c, rfl, hloops⟩ := hred.of_compute
    obtain ⟨hloop, habove⟩ := hf.compute id c hid' hk l (hloops ▸ hl)
    refine ⟨hg.isLoop hloop, Relation.ReflTransGen.mono (fun p i hp => ?_) _ _ habove⟩
    rw [IsParent, hg.parentOf]
    exact hp

theorem congr_gone (hg : f.Rewritten gone σ g) (hiff : ∀ i, gone i ↔ gone' i) :
    f.Rewritten gone' σ g := by
  have heq : gone = gone' := funext fun i => propext (hiff i)
  exact heq ▸ hg

end Rewritten

namespace Nested

theorem rewritten_detach (h : f.Nested) {id : OpId} (hleaf : f.bodyOf id = []) :
    f.Rewritten (· = id) (fun v => v) (f.detach id) where
  values := rfl
  arguments := rfl
  nested := h.detach hleaf
  reaches := fun _ => h.reaches_detach hleaf
  isLive := fun _ => isLive_detach
  parentOf := parentOf_detach f id
  leaf := fun _ => bodyOf_detach_nil
  blocks := blockOf_detach_sublist f id
  slot := fun i op' hop' => by
    rw [getElem?_ops_detach] at hop'
    obtain ⟨op, hop, rfl⟩ := Option.map_eq_some_iff.mp hop'
    exact ⟨op, hop, rfl⟩
  kind := fun i k hk => ⟨_, k, (kindOf_detach f id i).trans hk, .refl k, fun _ => rfl⟩

/-- An edit that sends the operands of every reached operation through `σ`, or changes initial
values. -/
theorem rewritten_edit (h : f.Nested) (change : OpId → Kind → Kind) {σ : ValueId → ValueId}
    (hchange : ∀ i (k : Kind), ∃ τ, k.Redirected τ (change i k) ∧ (f.Reaches i → τ = σ)) :
    f.Rewritten (fun _ => False) σ (f.edit fun i op => { op with kind := change i op.kind }) := by
  have hsame : f.SameNesting (f.edit fun i op => { op with kind := change i op.kind }) :=
    sameNesting_edit (fun _ _ => rfl) (fun _ _ => rfl) fun _ _ => rfl
  refine { values := rfl, arguments := rfl, nested := hsame.nested h, parentOf := hsame.parentOf,
           reaches := fun i => ?_, isLive := fun i => ?_, leaf := fun i hi => ?_,
           blocks := fun owner => ?_, slot := fun i op' hop' => ?_, kind := fun i k hk => ?_ }
  · rw [hsame.reaches_iff, not_false_iff, and_true]
  · rw [hsame.isLive, not_false_iff, and_true]
  · rw [hsame.bodyOf, hi]
  · cases owner with
    | none => rw [blockOf, hsame.body, blockOf]
    | some i => rw [blockOf, hsame.bodyOf, blockOf]
  · rw [getElem?_ops_edit] at hop'
    obtain ⟨op, hop, rfl⟩ := Option.map_eq_some_iff.mp hop'
    exact ⟨op, hop, rfl⟩
  · obtain ⟨op, hop, rfl⟩ := Option.map_eq_some_iff.mp hk
    obtain ⟨τ, hred, hτ⟩ := hchange i op.kind
    refine ⟨τ, change i op.kind, ?_, hred, fun hi => hτ (hsame.reaches_iff.mp hi)⟩
    rw [kindOf, getElem?_ops_edit, hop]
    rfl

theorem rewritten_refl (h : f.Nested) : f.Rewritten (fun _ => False) (fun v => v) f := by
  have hedit := h.rewritten_edit (fun _ k => k) (σ := fun v => v)
    fun _ k => ⟨_, .refl k, fun _ => rfl⟩
  rwa [edit_id] at hedit

/-- Redirecting sends the operands of what is reached somewhere else. -/
theorem redirectUses_eq (h : f.Nested) (old new : ValueId) :
    ∃ ids : List OpId, (∀ i, i ∈ ids ↔ f.Reaches i)
      ∧ f.redirectUses old new = .ok (f.edit fun i op => { op with
          kind := if i ∈ ids then op.kind.mapOperands (redirection old new) else op.kind }) := by
  obtain ⟨es, hes⟩ := h.entries_isOk
  refine ⟨es.map Prod.fst, fun i => ?_, ?_⟩
  · rw [List.mem_map]
    constructor
    · rintro ⟨⟨id, op⟩, he, rfl⟩
      exact ((h.mem_entries hes).mp he).1
    · intro hi
      obtain ⟨op, hop, -⟩ := h.live i hi
      exact ⟨(i, op), (h.mem_entries hes).mpr ⟨hi, hop⟩, rfl⟩
  · rw [redirectUses, walk, hes, Checked.ok_bind, Checked.pure_eq_ok, Checked.ok_bind,
      Checked.pure_eq_ok, modifyOps_eq, Except.ok.injEq]
    congr 1
    funext i op
    split <;> rfl

/-- **Redirecting the uses of a value.** -/
theorem redirectUses_isOk (h : f.Nested) (old new : ValueId) :
    ∃ g, f.redirectUses old new = .ok g
      ∧ f.Rewritten (fun _ => False) (redirection old new) g := by
  obtain ⟨ids, hids, heq⟩ := h.redirectUses_eq old new
  refine ⟨_, heq, h.rewritten_edit (fun i k =>
    if i ∈ ids then k.mapOperands (redirection old new) else k) fun i k => ?_⟩
  by_cases hi : i ∈ ids
  · rw [if_pos hi]
    exact ⟨_, .operands k, fun _ => rfl⟩
  · rw [if_neg hi]
    exact ⟨_, .refl k, fun hreach => absurd ((hids i).mpr hreach) hi⟩

/-- **Dropping a copy and a buffer**, the uses of whose value are redirected. -/
theorem dropBuffer_isOk (h : f.Nested) {copy buffer : OpId} (hcopy : f.Reaches copy)
    (hbuffer : f.Reaches buffer) (hne : buffer ≠ copy) (hcleaf : f.bodyOf copy = [])
    (hbleaf : f.bodyOf buffer = []) (old new : ValueId) :
    ∃ g, f.dropBuffer copy buffer old new = .ok g
      ∧ f.Rewritten (fun i => i = copy ∨ i = buffer) (redirection old new) g := by
  have hfirst := h.rewritten_detach hcleaf
  obtain ⟨g, hg, hsecond⟩ := (h.detach hcleaf).redirectUses_isOk old new
  have hboth := hfirst.trans hsecond
  have hbuffer' : g.Reaches buffer := (hboth.reaches buffer).mpr ⟨hbuffer, by simpa using hne⟩
  have hthird := hboth.nested.rewritten_detach (hboth.leaf buffer hbleaf)
  refine ⟨g.detach buffer, ?_, (hboth.trans hthird).congr_gone fun i => by simp⟩
  rw [dropBuffer, h.erase_leaf hcopy hcleaf, Checked.ok_bind, hg, Checked.ok_bind,
    hboth.nested.erase_leaf hbuffer' (hboth.leaf buffer hbleaf)]

end Nested
end Func
end Dataflow
