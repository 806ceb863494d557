/-
# What the removal of a copy does, exactly

When a copy is removed, the function that is left can be written down: the copy and a buffer are
flagged and gone from every block, the uses of the buffer's value name the other side of the copy,
and the initial value of a source that went is that of the target's buffer (`Func.merged`).  The
removal gives this function and no other (`Func.Compact.removeCopy_merged`).

If the two sides of the copy have different roots, the roots of all that is left follow: what had
the value that went as its root has that of the other side, and everything else keeps its own
(`Func.Merge.root_redirection`).
-/
import Dataflow.Proofs.CallerMemory

namespace Dataflow

/-- What an operation is after it may have inherited an initial value. -/
def Kind.inheriting (inherit : Option (OpId × Int)) (id : OpId) (k : Kind) : Kind :=
  match inherit with
  | none => k
  | some (survivor, init) => if id = survivor then k.withInit init else k

namespace Func

variable {f g : Func} {copy buffer : OpId} {old new : ValueId}

/-! ## 1. The function that is left -/

/-- The function with the copy and the buffer gone, `old` redirected to `new`, and an initial value
inherited.  Erased entries stay as they are. -/
def merged (f : Func) (copy buffer : OpId) (old new : ValueId) (inherit : Option (OpId × Int)) :
    Func :=
  { f.edit fun id op =>
      if id = copy ∨ id = buffer then { op with erased := true }
      else if op.erased then op
      else { op with
        body := op.body.filter fun child => child != copy && child != buffer
        kind := (op.kind.inheriting inherit id).mapOperands (redirection old new) } with
    body := f.body.filter fun child => child != copy && child != buffer }

namespace Nested

/-- Of a reached entry its block goes through the filter... -/
theorem ops_detach_of_reaches (h : f.Nested) (id : OpId) {i : OpId} (hi : f.Reaches i) :
    (f.detach id).ops[i]? = f.ops[i]?.map fun op =>
      { op with body := op.body.filter (· != id), erased := op.erased || decide (i = id) } := by
  obtain ⟨op, hop, -⟩ := h.live i hi
  have hbody := h.bodyOf_detach id hi
  rw [bodyOf, getElem?_ops_detach, hop, bodyOf_eq hop] at hbody
  simp only [Option.map_some, Option.getD_some] at hbody
  simp only [getElem?_ops_detach, hop, Option.map_some, hbody]

/-- ...and one that is not reached stays. -/
theorem ops_detach_of_not_reaches (h : f.Nested) {id : OpId} (hid : f.Reaches id) {i : OpId}
    (hi : ¬ f.Reaches i) : (f.detach id).ops[i]? = f.ops[i]? := by
  have hparent : f.parentOf id ≠ some i := fun hp => hi ((h.mem_blockOf hid).2 i hp)
  have hne : i ≠ id := fun heq => hi (heq ▸ hid)
  rw [getElem?_ops_detach]
  cases f.ops[i]? <;> simp [hparent, hne]

end Nested

/-- **A copy and a buffer dropped, entry by entry.**  What is not reached stays. -/
theorem Nested.dropBuffer_entries (h : f.Nested) (hcopy : f.Reaches copy)
    (hbuffer : f.Reaches buffer) (hne : buffer ≠ copy) (hcleaf : f.bodyOf copy = [])
    (hbleaf : f.bodyOf buffer = []) (old new : ValueId) :
    ∃ g, f.dropBuffer copy buffer old new = .ok g
      ∧ (g.name = f.name ∧ g.arguments = f.arguments ∧ g.values = f.values)
      ∧ g.body = f.body.filter (fun child => child != copy && child != buffer)
      ∧ (∀ i, f.Reaches i → g.ops[i]? = f.ops[i]?.map fun op => { op with
          body := op.body.filter fun child => child != copy && child != buffer
          erased := op.erased || decide (i = copy ∨ i = buffer)
          kind := if i = copy then op.kind else op.kind.mapOperands (redirection old new) })
      ∧ ∀ i, ¬ f.Reaches i → g.ops[i]? = f.ops[i]? := by
  have hfirst := h.detach hcleaf
  obtain ⟨ids, hids, hredirect⟩ := hfirst.redirectUses_eq old new
  have hmem : ∀ i, i ∈ ids ↔ f.Reaches i ∧ i ≠ copy := fun i =>
    (hids i).trans (h.reaches_detach hcleaf)
  generalize hf₂ : ((f.detach copy).edit fun i op => { op with
    kind := if i ∈ ids then op.kind.mapOperands (redirection old new) else op.kind }) = f₂
    at hredirect
  have hsame : (f.detach copy).SameNesting f₂ :=
    hf₂ ▸ sameNesting_edit (fun _ _ => rfl) (fun _ _ => rfl) fun _ _ => rfl
  have hops : ∀ i : Nat, f₂.ops[i]? = (f.detach copy).ops[i]?.map fun op => { op with
      kind := if i ∈ ids then op.kind.mapOperands (redirection old new) else op.kind } :=
    fun i => hf₂ ▸ getElem?_ops_edit _ _ i
  have hsecond := hsame.nested hfirst
  have hreaches : ∀ i, f₂.Reaches i ↔ f.Reaches i ∧ i ≠ copy := fun i =>
    hsame.reaches_iff.trans (h.reaches_detach hcleaf)
  have hleft := (hreaches buffer).mpr ⟨hbuffer, hne⟩
  refine ⟨f₂.detach buffer, ?_, ?_, ?_, fun i hi => ?_, fun i hi => ?_⟩
  · rw [dropBuffer, h.erase_leaf hcopy hcleaf, Checked.ok_bind, hredirect, Checked.ok_bind,
      hsecond.erase_leaf hleft ((hsame.bodyOf buffer).trans (bodyOf_detach_nil hbleaf))]
  · rw [← hf₂]
    exact ⟨rfl, rfl, rfl⟩
  · rw [hsecond.body_detach, hsame.body, h.body_detach, List.filter_filter]
    exact List.filter_congr fun child _ => Bool.and_comm _ _
  · obtain ⟨op, hop, -⟩ := h.live i hi
    by_cases hic : i = copy
    · -- The copy is no longer reached when the rest is redirected, and nothing is nested in it.
      have hbody : op.body = [] := by rw [← bodyOf_eq hop, hic, hcleaf]
      rw [hsecond.ops_detach_of_not_reaches hleft fun hr => ((hreaches i).mp hr).2 hic, hops,
        h.ops_detach_of_reaches copy hi, hop]
      simp [hic, hmem, hbody]
    · rw [hsecond.ops_detach_of_reaches buffer ((hreaches i).mpr ⟨hi, hic⟩), hops,
        h.ops_detach_of_reaches copy hi, hop]
      simp [hic, hmem, hi, List.filter_filter, Bool.and_comm]
  · have hnot : i ∉ ids := fun hin => hi ((hmem i).mp hin).1
    rw [hsecond.ops_detach_of_not_reaches hleft fun hr => hi ((hreaches i).mp hr).1, hops,
      h.ops_detach_of_not_reaches hcopy hi]
    cases f.ops[i]? <;> simp [hnot]

/-- **Dropping a copy and a buffer leaves the merged function.** -/
theorem Compact.dropBuffer_merged (h : f.Compact) (hcopy : f.Reaches copy)
    {source target result : ValueId} {init : Option Int}
    (hcopyKind : f.kindOf copy = some (.copy source target)) (hbuffer : f.Reaches buffer)
    (hbufferKind : f.kindOf buffer = some (.buffer result init)) (inherit : Option (OpId × Int))
    (hsurvivor : ∀ p, inherit = some p → f.Reaches p.1 ∧ p.1 ≠ copy ∧ p.1 ≠ buffer)
    (old new : ValueId) :
    (f.edit fun i op => { op with kind := op.kind.inheriting inherit i }).dropBuffer copy buffer
      old new = .ok (f.merged copy buffer old new inherit) := by
  have hne : buffer ≠ copy := by
    rintro rfl
    rw [hbufferKind] at hcopyKind
    cases hcopyKind
  have hinherit : ∀ {i : OpId} (k : Kind), ¬ f.Reaches i ∨ i = copy ∨ i = buffer →
      k.inheriting inherit i = k := by
    intro i k hi
    cases inherit with
    | none => rfl
    | some p =>
      obtain ⟨hreach, hcopy', hbuffer'⟩ := hsurvivor p rfl
      refine if_neg fun heq => ?_
      rcases hi with hi | hi | hi
      · exact hi (heq ▸ hreach)
      · exact hcopy' (heq ▸ hi)
      · exact hbuffer' (heq ▸ hi)
  have hsame : f.SameNesting (f.edit fun i op =>
      { op with kind := op.kind.inheriting inherit i }) :=
    sameNesting_edit (fun _ _ => rfl) (fun _ _ => rfl) fun _ _ => rfl
  have hcleaf := h.leaves copy _ hcopyKind rfl
  have hbleaf := h.leaves buffer _ hbufferKind rfl
  obtain ⟨g, hdrop, ⟨hname, harguments, hvalues⟩, hbody, hreached, hother⟩ :=
    (hsame.nested h.toNested).dropBuffer_entries (hsame.reaches_iff.mpr hcopy)
      (hsame.reaches_iff.mpr hbuffer) hne ((hsame.bodyOf copy).trans hcleaf)
      ((hsame.bodyOf buffer).trans hbleaf) old new
  rw [hdrop, Except.ok.injEq]
  refine ext_ops hname harguments hbody hvalues fun i => ?_
  rw [show (f.merged copy buffer old new inherit).ops[i]? = f.ops[i]?.map _ from
    getElem?_ops_edit f _ i]
  cases hop : f.ops[i]? with
  | none =>
    have hnot : ¬ f.Reaches i := fun hi => by
      obtain ⟨op, hop', -⟩ := h.live i hi
      rw [hop] at hop'
      cases hop'
    rw [hother i (mt hsame.reaches_iff.mp hnot), getElem?_ops_edit, hop]
    rfl
  | some op =>
    by_cases hi : f.Reaches i
    · obtain ⟨op', hop', hlive⟩ := h.live i hi
      rw [hop] at hop'
      cases hop'
      rw [hreached i (hsame.reaches_iff.mpr hi), getElem?_ops_edit, hop]
      by_cases hic : i = copy
      · have hempty : op.body = [] := by rw [← bodyOf_eq hop, hic, hcleaf]
        simp [hic, hempty, hinherit op.kind (.inr (.inl rfl))]
      · by_cases hib : i = buffer
        · have hempty : op.body = [] := by rw [← bodyOf_eq hop, hib, hbleaf]
          -- A buffer has no operands.
          have hkind : (op.kind.inheriting inherit buffer).mapOperands (redirection old new)
              = op.kind := by
            rw [hib] at hop
            rw [kindOf_eq hop, Option.some.injEq] at hbufferKind
            rw [hinherit _ (.inr (.inr rfl)), hbufferKind]
            rfl
          simp [hib, hne, hempty, hkind]
        · simp [hic, hib, hlive]
    · have herased : op.erased = true := by
        by_contra hlive
        exact hi (h.reached i ⟨op, hop, by simpa using hlive⟩)
      have hic : i ≠ copy := fun heq => hi (heq ▸ hcopy)
      have hib : i ≠ buffer := fun heq => hi (heq ▸ hbuffer)
      rw [hother i (mt hsame.reaches_iff.mp hi), getElem?_ops_edit, hop]
      simp only [Option.map_some, hinherit op.kind (.inl hi), if_neg (not_or.mpr ⟨hic, hib⟩),
        if_pos herased]

/-! ## 2. What one removal gives -/

/-- The memory space of a value. -/
def spaceOf (f : Func) (v : ValueId) : Option Nat := f.values[v]?.map (·.space)

/-- **What a removal found out**: the sides of the copy are in one space, and either the target's
buffer was dropped, or the source's after its initial value was handed on. -/
theorem of_removeCopy {audience : Audience} {source target : ValueId} {what : CopyRemoval}
    (hkind : f.kindOf copy = some (.copy source target))
    (hy : (f.removeCopy copy).Yields audience (g, some what)) :
    ∃ s, f.copySite? copy source target = .ok (some s)
      ∧ ((∃ buffer, f.erasableTarget? s = .ok (some buffer)
          ∧ f.dropBuffer s.copy buffer s.targetRoot s.source = .ok g
          ∧ what = .targetErased s.targetRoot s.source)
        ∨ ∃ buffer f₀, f.erasableSource? s = .ok (some buffer)
          ∧ f.inheritInit? s buffer = .ok (some f₀)
          ∧ f₀.dropBuffer s.copy buffer s.sourceRoot s.target = .ok g
          ∧ what = .sourceErased s.sourceRoot s.target) := by
  obtain ⟨k, hk, hy⟩ := Traced.yields_bind.mp hy
  rw [Traced.yields_lift, kind_eq_ok, hkind] at hk
  cases hk
  obtain ⟨_, -, hy⟩ := Traced.yields_bind.mp hy
  obtain ⟨s?, hs, hy⟩ := Traced.yields_bind.mp hy
  rw [Traced.yields_lift] at hs
  cases s? with
  | none => cases Traced.yields_pure.mp hy
  | some s =>
    refine ⟨s, hs, ?_⟩
    obtain ⟨ordered, -, hy⟩ := Traced.yields_bind.mp hy
    cases ordered with
    | false => cases Traced.yields_pure.mp hy
    | true =>
      obtain ⟨_, -, hy⟩ := Traced.yields_bind.mp hy
      obtain ⟨target?, htarget, hy⟩ := Traced.yields_bind.mp hy
      rw [Traced.yields_lift] at htarget
      cases target? with
      | some buffer =>
        obtain ⟨g', hdrop, hy⟩ := Traced.yields_bind.mp hy
        rw [Traced.yields_lift] at hdrop
        obtain ⟨_, -, hy⟩ := Traced.yields_bind.mp hy
        cases Traced.yields_pure.mp hy
        exact .inl ⟨buffer, htarget, hdrop, rfl⟩
      | none =>
        obtain ⟨source?, hsource, hy⟩ := Traced.yields_bind.mp hy
        rw [Traced.yields_lift] at hsource
        cases source? with
        | none => cases Traced.yields_pure.mp hy
        | some buffer =>
          obtain ⟨f₀?, hinherit, hy⟩ := Traced.yields_bind.mp hy
          rw [Traced.yields_lift] at hinherit
          cases f₀? with
          | none => cases Traced.yields_pure.mp hy
          | some f₀ =>
            obtain ⟨g', hdrop, hy⟩ := Traced.yields_bind.mp hy
            rw [Traced.yields_lift] at hdrop
            obtain ⟨_, -, hy⟩ := Traced.yields_bind.mp hy
            cases Traced.yields_pure.mp hy
            exact .inr ⟨buffer, f₀, hsource, hinherit, hdrop, rfl⟩

theorem spaceOf_of_copySite? {source target : ValueId} {s : CopySite}
    (h : f.copySite? copy source target = .ok (some s)) : f.spaceOf source = f.spaceOf target := by
  obtain ⟨sourceValue, hsource, h⟩ := Checked.bind_eq_ok.mp h
  obtain ⟨targetValue, htarget, h⟩ := Checked.bind_eq_ok.mp h
  rw [value_eq_ok_iff] at hsource htarget
  split at h
  · cases h
  · rename_i hspace
    simpa [spaceOf, hsource, htarget] using hspace

theorem of_erasable? {buffer? : Option OpId} {named other : ValueId} {users : List OpId}
    (h : f.erasable? buffer? named other users = .ok (some buffer)) :
    buffer? = some buffer ∧ f.definerOf named = some buffer := by
  cases buffer? with
  | none => cases h
  | some b =>
    obtain ⟨d?, hd, h⟩ := Checked.bind_eq_ok.mp h
    split at h
    · cases h
    · rename_i heq
      obtain ⟨o?, -, h⟩ := Checked.bind_eq_ok.mp h
      obtain ⟨visible, -, h⟩ := Checked.bind_eq_ok.mp h
      cases visible with
      | false => cases h
      | true =>
        cases h
        exact ⟨rfl, (definer_eq_ok.mp hd).2.trans (not_not.mp heq).symm⟩

/-- Handing on changes at most one buffer, the one of the target's root. -/
theorem of_inheritInit? {s : CopySite} {result : ValueId} {init : Option Int}
    (hk : f.kindOf buffer = some (.buffer result init))
    (h : f.inheritInit? s buffer = .ok (some g)) :
    ∃ inherit, g = (f.edit fun i op => { op with kind := op.kind.inheriting inherit i })
      ∧ (init = none ∧ inherit = none
        ∨ ∃ x survivor, init = some x ∧ s.targetBuffer = some survivor
          ∧ inherit = some (survivor, x)) := by
  rw [inheritInit?, kind_eq_ok.mpr hk, Checked.ok_bind] at h
  cases init with
  | none =>
    cases h
    exact ⟨none, (edit_id f).symm, .inl ⟨rfl, rfl⟩⟩
  | some x =>
    cases hb : s.targetBuffer with
    | none =>
      rw [hb] at h
      cases h
    | some survivor =>
      have hinit : (Kind.buffer result (some x)).init? = some x := rfl
      simp only [hinit, hb] at h
      obtain ⟨k, hk', h⟩ := Checked.bind_eq_ok.mp h
      obtain ⟨d?, -, h⟩ := Checked.bind_eq_ok.mp h
      split at h
      · cases h
      · obtain ⟨op, hop, -⟩ := Option.map_eq_some_iff.mp (kind_eq_ok.mp hk')
        rw [modifyKind_isOk (lt_size_of_some hop)] at h
        cases h
        exact ⟨some (survivor, x), rfl, .inr ⟨x, survivor, rfl, rfl, rfl⟩⟩

/-- The initial value that is handed on, and to which buffer: that of a source that goes, to the
buffer of the target's root. -/
inductive Inherits (f : Func) (source target : ValueId) :
    CopyRemoval → Option Int → Option (OpId × Int) → Prop
  | targetErased (init : Option Int) :
      Inherits f source target (.targetErased target source) init none
  | uninitialized : Inherits f source target (.sourceErased source target) none none
  | handedOn {x : Int} {root : ValueId} {survivor : OpId} {init : Option Int} :
      f.root target = .ok (some root) → f.Reaches survivor →
      f.kindOf survivor = some (.buffer root init) →
      Inherits f source target (.sourceErased source target) (some x) (some (survivor, x))

/-- In a function in order, the root of what can be used can be used. -/
theorem Tidy.usable_root (ht : f.Tidy) (h : f.Compact) {v r : ValueId} {path : List ValueId}
    (hchain : f.Chain v path r) : f.Usable v → f.Usable r := by
  induction hchain with
  | root => exact fun hv => hv
  | @view v source r path hview hchain ih =>
    intro hv
    rcases h.isRoot_or_view hv.known with hroot | ⟨d, source', result, hd, hid, hk, -⟩
    · exact absurd hview hroot.not_viewOf
    · obtain rfl := hview.unique ⟨d, result, hd, hk⟩
      refine ih ?_
      by_contra hnot
      exact h.tidy_iff.mp ht d hid ⟨source, result, hk, hnot⟩

/-- **A removal gives the merged function.**  The value that goes and the one that takes its place
are the two sides of the copy. -/
theorem Compact.removeCopy_merged (h : f.Compact) (ht : f.Tidy) {audience : Audience}
    {source target : ValueId} {what : CopyRemoval} (hcopy : f.Reaches copy)
    (hkind : f.kindOf copy = some (.copy source target)) (hroots : f.root source ≠ f.root target)
    (hy : (f.removeCopy copy).Yields audience (g, some what)) :
    ∃ buffer init inherit, f.Merge copy buffer what.buffer what.replacement g
      ∧ f.kindOf buffer = some (.buffer what.buffer init)
      ∧ f.Inherits source target what init inherit
      ∧ g = f.merged copy buffer what.buffer what.replacement inherit
      ∧ f.spaceOf what.replacement = f.spaceOf what.buffer
      ∧ f.root what.replacement ≠ .ok (some what.buffer) := by
  obtain ⟨buffer, hmerge⟩ := h.merge_of_yields (h.live copy hcopy) hy
  obtain ⟨init, hbuffer⟩ := hmerge.buffer_kind
  obtain ⟨s, hs, hcases⟩ := of_removeCopy hkind hy
  have hspace := spaceOf_of_copySite? hs
  obtain ⟨⟨rfl, rfl, rfl⟩, ⟨hsource, htarget⟩, ⟨hsourceBuffer, htargetBuffer⟩, -⟩ :=
    copySite?_eq_some hs
  have hne : s.sourceRoot ≠ s.targetRoot := by
    intro heq
    rw [hsource, htarget, heq] at hroots
    exact hroots rfl
  obtain ⟨husable, husable'⟩ := h.usable_of_copy hcopy hkind
  rcases hcases with ⟨b, herasable, hdrop, rfl⟩ | ⟨b, f₀, herasable, hinherit, hdrop, rfl⟩
  · obtain ⟨hb, hdefiner⟩ := of_erasable? herasable
    obtain ⟨hdefiner', -⟩ := bufferOp_eq_some (hb ▸ htargetBuffer)
    have hroot : s.targetRoot = s.target := h.eq_of_definerOf hdefiner' hdefiner
    obtain rfl : buffer = b := Option.some.inj (hmerge.definerOf_old.symm.trans hdefiner')
    have hmerged := h.dropBuffer_merged hcopy hkind hmerge.buffer_reached hbuffer none
      (fun p hp => by cases hp) s.targetRoot s.source
    rw [show (f.edit fun i op => { op with kind := op.kind.inheriting none i }) = f from edit_id f,
      hdrop, Except.ok.injEq] at hmerged
    refine ⟨buffer, init, none, hmerge, hbuffer, ?_, hmerged, ?_, ?_⟩
    · rw [hroot]
      exact .targetErased init
    · rwa [CopyRemoval.buffer, hroot]
    · rw [CopyRemoval.replacement, hsource]
      exact fun heq => hne (Option.some.inj (Except.ok.inj heq))
  · obtain ⟨hb, hdefiner⟩ := of_erasable? herasable
    obtain ⟨hdefiner', -⟩ := bufferOp_eq_some (hb ▸ hsourceBuffer)
    have hroot : s.sourceRoot = s.source := h.eq_of_definerOf hdefiner' hdefiner
    obtain rfl : buffer = b := Option.some.inj (hmerge.definerOf_old.symm.trans hdefiner')
    obtain ⟨inherit, rfl, hinit⟩ := of_inheritInit? hbuffer hinherit
    -- The buffer that inherits is another one, and it is there.
    have hhanded : (∀ p, inherit = some p → f.Reaches p.1 ∧ p.1 ≠ s.copy ∧ p.1 ≠ buffer)
        ∧ f.Inherits s.source s.target (.sourceErased s.sourceRoot s.target) init inherit := by
      rw [hroot]
      rcases hinit with ⟨rfl, rfl⟩ | ⟨x, survivor, rfl, hsurvivor, rfl⟩
      · refine ⟨fun p hp => ?_, .uninitialized⟩
        cases hp
      · obtain ⟨hdefines, result, init', hk⟩ := bufferOp_eq_some (hsurvivor ▸ htargetBuffer)
        obtain ⟨k, hk', hresult⟩ := h.result_of_definerOf hdefines
        rw [hk] at hk'
        cases hk'
        cases hresult
        obtain ⟨path, hchain⟩ := root_eq_some_iff.mp htarget
        have hreach := h.reached survivor ((ht.usable_root h hchain husable').live hdefines)
        refine ⟨fun p hp => ?_, .handedOn htarget hreach hk⟩
        cases hp
        refine ⟨hreach, fun heq : survivor = s.copy => ?_, fun heq => ?_⟩
        · rw [heq, hkind] at hk
          cases hk
        · exact hne (h.eq_of_definerOf hdefiner' (heq ▸ hdefines))
    have hmerged := h.dropBuffer_merged hcopy hkind hmerge.buffer_reached hbuffer inherit hhanded.1
      s.sourceRoot s.target
    rw [hdrop, Except.ok.injEq] at hmerged
    refine ⟨buffer, init, inherit, hmerge, hbuffer, hhanded.2, hmerged, ?_, ?_⟩
    · rw [CopyRemoval.buffer, CopyRemoval.replacement, hroot, hspace]
    · rw [CopyRemoval.replacement, htarget]
      exact fun heq => hne (Option.some.inj (Except.ok.inj heq)).symm

namespace Merge

/-- **Roots follow the redirection.**  If the other side has another root, what had the value that
went as its root has that of the other side, and everything else keeps its own, or goes on having
none. -/
theorem root_redirection (h : f.Merge copy buffer old new g) (hne : f.root new ≠ .ok (some old))
    {v : ValueId} (hv : f.Known v) :
    g.root (redirection old new v) =
      if f.root v = .ok (some old) then f.root new else f.root v := by
  obtain ⟨newPath, r, hnew⟩ := h.rooted
  have hr : f.root new = .ok (some r) := root_eq_some_iff.mpr ⟨newPath, hnew⟩
  have hrold : r ≠ old := by
    rintro rfl
    exact hne hr
  obtain ⟨root?, hroot⟩ : ∃ root?, f.root v = .ok root? := h.compact.resolve_isOk _ hv
  cases root? with
  | some s =>
    by_cases hs : s = old
    · subst hs
      rw [if_pos hroot, hr]
      exact h.root_new hr hrold hv hroot
    · rw [hroot, if_neg fun heq => hs (Option.some.inj (Except.ok.inj heq))]
      exact h.root_kept hs hv hroot
  | none =>
    have hvold : v ≠ old := by
      rintro rfl
      rw [root_eq_some_iff.mpr ⟨_, .root h.isRoot_old⟩] at hroot
      cases hroot
    rw [hroot, if_neg (by simp), redirection_of_ne hvold]
    obtain ⟨root?, hafter⟩ : ∃ root?, g.root v = .ok root? :=
      h.compact_after.resolve_isOk _ (h.known hv)
    cases root? with
    | none => exact hafter
    | some s =>
      -- A root that is found afterwards was found before.
      obtain ⟨path, hchain⟩ := root_eq_some_iff.mp hafter
      obtain ⟨path', s', hchain'⟩ := h.chain_before hchain hv
      rw [root_eq_some_iff.mpr ⟨path', hchain'⟩] at hroot
      cases hroot

end Merge

/-- **One removal redirects exactly.**  Take a copy whose sides have different roots, in a function
in order with nothing live unreached and nothing nested in leaves.  Its removal gives a result, and
the function itself if nothing was removed.  Otherwise the result is in order, and exactly the copy
and the buffer of the value that went are no longer reached and live.  In what is left every operand
is what it was, or the value that took the place of the one that went; it is in the same memory
space; and its root is that of the value that took the place where it was the value that went, and
what it was elsewhere.  Nothing else changes but the initial value that a target inherits from a
source that went. -/
theorem removeCopy_redirects_exactly (audience : Audience) (f : Func) (hf : f.verify = .ok ())
    (hreached : ∀ id, f.IsLive id → f.Reaches id)
    (hleaves : ∀ id k, f.kindOf id = some k → k.isLeaf = true → f.bodyOf id = [])
    (copy : OpId) (source target : ValueId) (hcopy : f.Reaches copy)
    (hkind : f.kindOf copy = some (.copy source target)) (hroots : f.root source ≠ f.root target) :
    ∃ g what?, (f.removeCopy copy).Yields audience (g, what?) ∧ (what? = none → g = f)
      ∧ ∀ what, what? = some what → ∃ buffer init inherit,
          (f.Reaches buffer ∧ f.kindOf buffer = some (.buffer what.buffer init))
          ∧ g.verify = .ok ()
          ∧ (∀ id, g.Reaches id ↔ f.Reaches id ∧ ¬ (id = copy ∨ id = buffer))
          ∧ (∀ id, g.IsLive id ↔ f.IsLive id ∧ ¬ (id = copy ∨ id = buffer))
          ∧ (∀ id k, g.Reaches id → f.kindOf id = some k → ∃ k', g.kindOf id = some k'
            ∧ k'.operands = k.operands.map (redirection what.buffer what.replacement)
            ∧ ∀ v ∈ k.operands,
                g.spaceOf (redirection what.buffer what.replacement v) = f.spaceOf v
                ∧ g.root (redirection what.buffer what.replacement v) =
                    if f.root v = .ok (some what.buffer) then f.root what.replacement
                    else f.root v)
          ∧ f.Inherits source target what init inherit
          ∧ g = f.merged copy buffer what.buffer what.replacement inherit := by
  have htidy : f.Tidy := verify_eq_ok_iff_tidy.mp hf
  have hcompact : f.Compact := htidy.compact hreached hleaves
  obtain ⟨g, what?, hyields, houtcome⟩ := hcompact.removeCopy_yields hcopy audience
  refine ⟨g, what?, hyields, ?_, ?_⟩
  · rintro rfl
    cases houtcome
    rfl
  · rintro what rfl
    obtain ⟨buffer, init, inherit, hmerge, hbuffer, hinherits, hmerged, hspace, hroot⟩ :=
      hcompact.removeCopy_merged htidy hcopy hkind hroots hyields
    have hne : what.replacement ≠ what.buffer := by
      intro heq
      rw [heq] at hroot
      exact hroot (root_eq_some_iff.mpr ⟨_, .root hmerge.isRoot_old⟩)
    refine ⟨buffer, init, inherit, ⟨hmerge.buffer_reached, hbuffer⟩, ?_, hmerge.effect.reaches,
      hmerge.effect.isLive, fun id k hid hk => ?_, hinherits, hmerged⟩
    · exact verify_eq_ok_iff_tidy.mpr (hmerge.tidy_iff.mpr ⟨htidy, fun hself => hne hself.1⟩)
    · obtain ⟨hid', hgone⟩ := (hmerge.effect.reaches id).mp hid
      obtain ⟨-, k', hk', hred⟩ := hmerge.effect.kind_after hid' hgone hk
      refine ⟨k', hk', hred.operands_eq, fun v hv => ⟨?_, ?_⟩⟩
      · rw [spaceOf, hmerge.effect.values, ← spaceOf]
        by_cases hv' : v = what.buffer
        · rw [hv', redirection_old, hspace]
        · rw [redirection_of_ne hv']
      · exact hmerge.root_redirection hroot (hcompact.uses id k hid' hk v hv).1

/-- A source with an initial value and a view, and a target that the copy names through a view. -/
def viewedTarget : Func where
  name := "f"
  arguments := []
  body := List.range 7
  ops := #[
    fresh none 0 (.buffer 0 (some 7)),
    fresh none 1 (.buffer 1 none),
    fresh none 2 (.view 1 2),
    fresh none 3 (.view 0 3),
    fresh none 4 (.compute ⟨"p", [], [⟨3, [.const 0]⟩], []⟩),
    fresh none 5 (.copy 0 2),
    fresh none 6 (.compute ⟨"c", [⟨2, [.const 0]⟩], [], []⟩)]
  values := #[
    { id := 0, name := "S", shape := [4], space := 0, definition := .op 0 },
    { id := 1, name := "T", shape := [4], space := 0, definition := .op 1 },
    { id := 2, name := "V", shape := [4], space := 0, definition := .op 2 },
    { id := 3, name := "W", shape := [4], space := 0, definition := .op 3 }]

/-- The source goes, and its view becomes a view of the target's view: what was stored there is
stored to the target, which has the initial value of the source. -/
theorem removeCopy_redirects_viewedTarget : ∃ g, viewedTarget.verify = .ok ()
    ∧ (viewedTarget.removeCopy 5).Yields none (g, some (.sourceErased 0 2)) ∧ g.verify = .ok ()
    ∧ viewedTarget.root 3 = .ok (some 0) ∧ g.root 3 = .ok (some 1)
    ∧ g = viewedTarget.merged 5 0 0 2 (some (1, 7)) := by
  have hverify : viewedTarget.verify = .ok () := by decide
  obtain ⟨g, what?, hyields, -, hwhat⟩ := removeCopy_redirects_exactly none viewedTarget hverify
    (fun _ => reaches_of_body_eq rfl) (fun id _ _ _ => bodyOf_eq_nil rfl id) 5 0 2
    (.top (by decide)) rfl (by decide)
  obtain ⟨g', hg'⟩ : ∃ g', (viewedTarget.removeCopy 5).Yields none (g', some (.sourceErased 0 2)) :=
    Traced.exists_yields (by decide)
  cases hg'.unique hyields
  obtain ⟨buffer, init, inherit, ⟨-, hbuffer⟩, hafter, hreaches, -, hoperands, hinherits,
    hmerged⟩ := hwhat _ rfl
  have hbuffers : ∀ {id r : Nat} {init : Option Int},
      viewedTarget.kindOf id = some (.buffer r init) → id = r := by
    intro id r init hk
    rcases id with _ | _ | _ | _ | _ | _ | _ | id <;> simp [kindOf, viewedTarget, fresh] at hk
    · exact hk.1
    · exact hk.1
  obtain rfl : buffer = 0 := hbuffers hbuffer
  have hstores : g.Reaches 4 := (hreaches 4).mpr ⟨.top (by decide), by decide⟩
  obtain ⟨-, -, -, hroots⟩ := hoperands 4 _ hstores rfl
  have hroot : g.root 3 = .ok (some 1) := (hroots 3 (by decide)).2
  refine ⟨g, hverify, hyields, hafter, rfl, hroot, ?_⟩
  cases (show viewedTarget.kindOf 0 = some (.buffer 0 (some 7)) from rfl).symm.trans hbuffer
  cases hinherits with
  | @handedOn _ root survivor _ htarget _ hkind =>
    cases (show viewedTarget.root 2 = .ok (some 1) from rfl).symm.trans htarget
    obtain rfl : survivor = 1 := hbuffers hkind
    exact hmerged

end Func
end Dataflow
