/-
# Removing one copy

On a compact function every question that the removal of a copy asks has an answer: the roots of
its sides, the users of their memories, the order of those users and what they can see.  What is
removed is then removed by a merge (`Func.Compact.removeCopy_yields`).
-/
import Dataflow.Proofs.Merging

namespace Dataflow

/-- A buffer with an initial value; nothing else takes one. -/
def Kind.withInit (init : Int) : Kind → Kind
  | .buffer result _ => .buffer result (some init)
  | k => k

theorem Kind.Redirected.withInit (init : Int) (k : Kind) :
    k.Redirected (fun v => v) (k.withInit init) := by
  cases k with
  | buffer result init' => exact .init result init' (some init)
  | _ => exact .refl _

/-- The value whose buffer went. -/
def CopyRemoval.buffer : CopyRemoval → ValueId
  | .targetErased buffer _ | .sourceErased buffer _ => buffer

/-- The value that took its place. -/
def CopyRemoval.replacement : CopyRemoval → ValueId
  | .targetErased _ replacement | .sourceErased _ replacement => replacement

namespace Func

variable {f g : Func}

/-! ## 1. Sites -/

/-- What a candidate for removal says of its function is so. -/
structure Sited (f : Func) (s : CopySite) : Prop where
  reached : f.Reaches s.copy
  kind : f.kindOf s.copy = some (.copy s.source s.target)
  source : ∃ path, f.Chain s.source path s.sourceRoot
  target : ∃ path, f.Chain s.target path s.targetRoot
  sourceBuffer : f.bufferOp s.sourceRoot = .ok s.sourceBuffer
  targetBuffer : f.bufferOp s.targetRoot = .ok s.targetBuffer
  sourceUsers : f.aliasUsers s.sourceRoot = .ok s.sourceUsers
  targetUsers : f.aliasUsers s.targetRoot = .ok s.targetUsers

theorem definer_eq_ok {v : ValueId} {d? : Option OpId} :
    f.definer v = .ok d? ↔ (∃ value, f.values[v]? = some value) ∧ f.definerOf v = d? := by
  simp only [definer, Checked.bind_eq_ok, value_eq_ok_iff, Checked.pure_eq_ok, Except.ok.injEq]
  constructor
  · rintro ⟨value, hvalue, hdef⟩
    exact ⟨⟨value, hvalue⟩, by simp [definerOf, hvalue, hdef]⟩
  · rintro ⟨⟨value, hvalue⟩, hdef⟩
    exact ⟨value, hvalue, by simpa [definerOf, hvalue] using hdef⟩

/-- The buffer found is one, and defines the value. -/
theorem bufferOp_eq_some {v : ValueId} {buffer : OpId} (h : f.bufferOp v = .ok (some buffer)) :
    f.definerOf v = some buffer ∧ ∃ result init, f.kindOf buffer = some (.buffer result init) := by
  obtain ⟨d?, hd, h⟩ := Checked.bind_eq_ok.mp h
  obtain ⟨-, hd⟩ := definer_eq_ok.mp hd
  cases d? with
  | none => cases h
  | some d =>
    obtain ⟨k, hk, h⟩ := Checked.bind_eq_ok.mp h
    cases k with
    | buffer result init =>
      cases h
      exact ⟨hd, result, init, kind_eq_ok.mp hk⟩
    | _ => cases h

theorem TablesAgree.bufferOp_isOk (h : f.TablesAgree) {v : ValueId}
    (hv : ∃ value, f.values[v]? = some value) : ∃ buffer?, f.bufferOp v = .ok buffer? := by
  rw [bufferOp, definer_eq_ok.mpr ⟨hv, rfl⟩, Checked.ok_bind]
  cases hd : f.definerOf v with
  | none => exact ⟨none, rfl⟩
  | some d =>
    obtain ⟨k, hk, -⟩ := h.result_of_definerOf hd
    exact ⟨_, Checked.bind_eq_ok.mpr ⟨k, kind_eq_ok.mpr hk, rfl⟩⟩

/-- A candidate is what was found out about the two sides of the copy. -/
theorem copySite?_eq_some {copy : OpId} {source target : ValueId} {s : CopySite}
    (h : f.copySite? copy source target = .ok (some s)) :
    (s.copy = copy ∧ s.source = source ∧ s.target = target)
      ∧ (f.root source = .ok (some s.sourceRoot) ∧ f.root target = .ok (some s.targetRoot))
      ∧ (f.bufferOp s.sourceRoot = .ok s.sourceBuffer
        ∧ f.bufferOp s.targetRoot = .ok s.targetBuffer)
      ∧ f.aliasUsers s.sourceRoot = .ok s.sourceUsers
      ∧ f.aliasUsers s.targetRoot = .ok s.targetUsers := by
  unfold copySite? at h
  obtain ⟨_, -, h⟩ := Checked.bind_eq_ok.mp h
  obtain ⟨_, -, h⟩ := Checked.bind_eq_ok.mp h
  split at h
  · cases h
  · obtain ⟨sourceRoot?, hsource, h⟩ := Checked.bind_eq_ok.mp h
    cases sourceRoot? with
    | none => cases h
    | some sourceRoot =>
      obtain ⟨targetRoot?, htarget, h⟩ := Checked.bind_eq_ok.mp h
      cases targetRoot? with
      | none => cases h
      | some targetRoot =>
        obtain ⟨sourceBuffer, hsourceBuffer, h⟩ := Checked.bind_eq_ok.mp h
        obtain ⟨targetBuffer, htargetBuffer, h⟩ := Checked.bind_eq_ok.mp h
        split at h
        · cases h
        · obtain ⟨sourceUsers, hsourceUsers, h⟩ := Checked.bind_eq_ok.mp h
          obtain ⟨targetUsers, htargetUsers, h⟩ := Checked.bind_eq_ok.mp h
          cases h
          exact ⟨⟨rfl, rfl, rfl⟩, ⟨hsource, htarget⟩, ⟨hsourceBuffer, htargetBuffer⟩,
            hsourceUsers, htargetUsers⟩

/-- **What a candidate says is so.** -/
theorem sited_of_copySite? {copy : OpId} {source target : ValueId} {s : CopySite}
    (hcopy : f.Reaches copy) (hk : f.kindOf copy = some (.copy source target))
    (h : f.copySite? copy source target = .ok (some s)) : f.Sited s ∧ s.copy = copy := by
  obtain ⟨⟨rfl, rfl, rfl⟩, hroots, hbuffers, husers⟩ := copySite?_eq_some h
  exact ⟨⟨hcopy, hk, root_eq_some_iff.mp hroots.1, root_eq_some_iff.mp hroots.2, hbuffers.1,
    hbuffers.2, husers.1, husers.2⟩, rfl⟩

namespace Compact

theorem usable_of_copy (h : f.Compact) {copy : OpId} {source target : ValueId}
    (hcopy : f.Reaches copy) (hk : f.kindOf copy = some (.copy source target)) :
    f.Usable source ∧ f.Usable target :=
  ⟨(h.uses copy _ hcopy hk source (by simp [Kind.operands])).2 rfl,
    (h.uses copy _ hcopy hk target (by simp [Kind.operands])).2 rfl⟩

/-- **Whether a copy is a candidate can be told.** -/
theorem copySite?_isOk (h : f.Compact) {copy : OpId} {source target : ValueId}
    (hcopy : f.Reaches copy) (hk : f.kindOf copy = some (.copy source target)) :
    ∃ s?, f.copySite? copy source target = .ok s? := by
  obtain ⟨husable, husable'⟩ := h.usable_of_copy hcopy hk
  obtain ⟨sourceRoot?, hsource⟩ := h.resolve_isOk (f.values.size + 1) husable.known
  obtain ⟨targetRoot?, htarget⟩ := h.resolve_isOk (f.values.size + 1) husable'.known
  obtain ⟨sourceValue, hsourceValue, -⟩ := husable
  obtain ⟨targetValue, htargetValue, -⟩ := husable'
  rw [copySite?, value_eq_ok_iff.mpr hsourceValue, Checked.ok_bind,
    value_eq_ok_iff.mpr htargetValue, Checked.ok_bind, root, hsource, root, htarget]
  split
  · exact ⟨none, rfl⟩
  · cases sourceRoot? with
    | none => exact ⟨none, rfl⟩
    | some sourceRoot =>
      cases targetRoot? with
      | none => exact ⟨none, rfl⟩
      | some targetRoot =>
        obtain ⟨_, hsourceChain⟩ := resolve_eq_some hsource
        obtain ⟨_, htargetChain⟩ := resolve_eq_some htarget
        obtain ⟨sourceBuffer, hsourceBuffer⟩ := h.bufferOp_isOk hsourceChain.isRoot.1
        obtain ⟨targetBuffer, htargetBuffer⟩ := h.bufferOp_isOk htargetChain.isRoot.1
        obtain ⟨sourceUsers, hsourceUsers⟩ := h.aliasUsers_isOk hsourceChain.isRoot
        obtain ⟨targetUsers, htargetUsers⟩ := h.aliasUsers_isOk htargetChain.isRoot
        simp only [Checked.ok_bind, hsourceBuffer, htargetBuffer, hsourceUsers, htargetUsers]
        split <;> exact ⟨_, rfl⟩

end Compact

/-- In order means that each user of the source precedes the copy, and the copy each user of the
target. -/
theorem usesOrdered_eq_true {s : CopySite} (h : f.usesOrdered s = .ok true) :
    (∀ u ∈ s.sourceUsers, f.precedes u s.copy = .ok true)
      ∧ ∀ u ∈ s.targetUsers, f.precedes s.copy u = .ok true := by
  obtain ⟨before, hbefore, h⟩ := Checked.bind_eq_ok.mp h
  cases before with
  | false => cases h
  | true => exact ⟨Checked.allM_eq_true.mp hbefore, Checked.allM_eq_true.mp h⟩

namespace Sited

variable {s : CopySite}

/-- The order of the uses can be told. -/
theorem usesOrdered_isOk (hs : f.Sited s) (h : f.Nested) : ∃ b, f.usesOrdered s = .ok b := by
  obtain ⟨before, hbefore⟩ := Checked.allM_isOk (p := fun user => f.precedes user s.copy)
    (l := s.sourceUsers) fun u hu =>
      h.precedes_isOk (h.reaches_of_mem_usersThrough hs.sourceUsers u hu) hs.reached
  obtain ⟨after, hafter⟩ := Checked.allM_isOk (p := fun user => f.precedes s.copy user)
    (l := s.targetUsers) fun u hu =>
      h.precedes_isOk hs.reached (h.reaches_of_mem_usersThrough hs.targetUsers u hu)
  rw [usesOrdered, hbefore, Checked.ok_bind]
  cases before with
  | false => exact ⟨false, rfl⟩
  | true => exact ⟨after, hafter⟩

/-- **When both sides are one root, only the copy uses it**, views apart: any other user would come
both before the copy and after it. -/
theorem eq_copy_of_uses (hs : f.Sited s) (h : f.Nested) (hordered : f.usesOrdered s = .ok true)
    {v : ValueId} (hroot : f.IsRoot v) (hsource : s.source = v) (htarget : s.target = v) {u : OpId}
    {k : Kind} (hu : f.Reaches u) (hk : f.kindOf u = some k) (hv : v ∈ k.operands)
    (hview : viewResult? k = none) : u = s.copy := by
  obtain ⟨sourcePath, hsourceChain⟩ := hs.source
  obtain ⟨targetPath, htargetChain⟩ := hs.target
  rw [hsource] at hsourceChain
  rw [htarget] at htargetChain
  obtain ⟨-, hsourceRoot⟩ := hsourceChain.unique (.root hroot)
  obtain ⟨-, htargetRoot⟩ := htargetChain.unique (.root hroot)
  have hsourceUsers := hs.sourceUsers
  have htargetUsers := hs.targetUsers
  rw [hsourceRoot] at hsourceUsers
  rw [htargetRoot] at htargetUsers
  obtain ⟨hbefore, hafter⟩ := usesOrdered_eq_true hordered
  exact h.eq_of_precedes hu hs.reached
    (hbefore u (h.mem_usersThrough hsourceUsers hu hk hv hview))
    (hafter u (h.mem_usersThrough htargetUsers hu hk hv hview))

end Sited

/-! ## 2. Which side goes -/

/-- The buffer of a side, if it can go: the copy names it directly, and the other side is visible
to the users of its memory. -/
def erasable? (f : Func) (buffer? : Option OpId) (named other : ValueId) (users : List OpId) :
    Checked (Option OpId) := do
  match buffer? with
  | none => return none
  | some buffer =>
    if some buffer ≠ (← f.definer named) then return none
    if ← f.visibleTo (← f.definer other) users then return some buffer
    return none

theorem erasableTarget?_eq (f : Func) (s : CopySite) :
    f.erasableTarget? s = f.erasable? s.targetBuffer s.target s.source s.targetUsers := rfl

theorem erasableSource?_eq (f : Func) (s : CopySite) :
    f.erasableSource? s = f.erasable? s.sourceBuffer s.source s.target s.sourceUsers := rfl

theorem TablesAgree.eq_of_definerOf (h : f.TablesAgree) {v w : ValueId} {d : OpId}
    (hv : f.definerOf v = some d) (hw : f.definerOf w = some d) : v = w := by
  obtain ⟨k, hk, hresult⟩ := h.result_of_definerOf hv
  obtain ⟨k', hk', hresult'⟩ := h.result_of_definerOf hw
  rw [hk] at hk'
  cases hk'
  exact Option.some.inj (hresult.symm.trans hresult')

namespace Compact

theorem visibleTo_isOk (h : f.Compact) {v : ValueId} (hv : f.Usable v) {users : List OpId}
    (husers : ∀ u ∈ users, f.Reaches u) : ∃ b, f.visibleTo (f.definerOf v) users = .ok b := by
  cases hd : f.definerOf v with
  | none => exact ⟨true, rfl⟩
  | some d =>
    have hreach := h.reached d (hv.live hd)
    exact Checked.allM_isOk fun u hu => h.dominates_isOk hreach (husers u hu)

theorem erasable?_isOk (h : f.Compact) {named other : ValueId} (hnamed : f.Usable named)
    (hother : f.Usable other) {users : List OpId} (husers : ∀ u ∈ users, f.Reaches u)
    (buffer? : Option OpId) : ∃ erased?, f.erasable? buffer? named other users = .ok erased? ∧
      ∀ b, erased? = some b → buffer? = some b ∧ f.definerOf named = some b
        ∧ ∀ d, f.definerOf other = some d → ∀ u ∈ users, f.dominates d u = .ok true := by
  have hnone : ∃ erased?, (Except.ok none : Checked (Option OpId)) = .ok erased? ∧
      ∀ b, erased? = some b → buffer? = some b ∧ f.definerOf named = some b
        ∧ ∀ d, f.definerOf other = some d → ∀ u ∈ users, f.dominates d u = .ok true :=
    ⟨none, rfl, fun _ hb => by cases hb⟩
  obtain ⟨visible, hvisible⟩ := h.visibleTo_isOk hother husers
  have hdefiner : ∀ {v : ValueId}, f.Usable v → f.definer v = .ok (f.definerOf v) := fun hv =>
    definer_eq_ok.mpr ⟨hv.imp fun _ hvalue => hvalue.1, rfl⟩
  cases buffer? with
  | none => exact hnone
  | some buffer =>
    rw [erasable?, hdefiner hnamed, Checked.ok_bind]
    split
    · exact hnone
    · rename_i heq
      rw [hdefiner hother, Checked.ok_bind, hvisible, Checked.ok_bind]
      cases visible with
      | false => exact hnone
      | true =>
        refine ⟨some buffer, rfl, fun b hb => ?_⟩
        cases hb
        refine ⟨rfl, (not_not.mp heq).symm, fun d hd => ?_⟩
        rw [hd] at hvisible
        exact Checked.allM_eq_true.mp hvisible

end Compact

theorem modifyKind_isOk {id : OpId} (hid : id < f.ops.size) (change : Kind → Kind) :
    f.modifyKind id change = .ok (f.edit fun i op =>
      { op with kind := if i = id then change op.kind else op.kind }) := by
  rw [modifyKind, modifyOp_eq_ok.mpr ⟨hid, rfl⟩]
  congr 2
  funext i op
  rw [changeAt]
  split <;> rfl

/-- The initial value is handed on, or the copy stays; nothing but a buffer changes. -/
theorem Nested.inheritInit?_isOk (h : f.Nested) {s : CopySite} {buffer : OpId} {k : Kind}
    (hk : f.kindOf buffer = some k) (htarget : ∃ value, f.values[s.target]? = some value)
    (hsurvivor : ∀ b, s.targetBuffer = some b → ∃ k, f.kindOf b = some k) :
    ∃ g?, f.inheritInit? s buffer = .ok g? ∧
      ∀ g, g? = some g → f.Rewritten (fun _ => False) (fun v => v) g := by
  have hnone : ∃ g?, (Except.ok none : Checked (Option Func)) = .ok g? ∧
      ∀ g, g? = some g → f.Rewritten (fun _ => False) (fun v => v) g :=
    ⟨none, rfl, fun _ hg => by cases hg⟩
  rw [inheritInit?, kind_eq_ok.mpr hk, Checked.ok_bind]
  cases k.init? with
  | none =>
    refine ⟨some f, rfl, fun g hg => ?_⟩
    cases hg
    exact h.rewritten_refl
  | some init =>
    cases hb : s.targetBuffer with
    | none => exact hnone
    | some survivor =>
      obtain ⟨k', hk'⟩ := hsurvivor survivor hb
      obtain ⟨op, hop, -⟩ := Option.map_eq_some_iff.mp hk'
      simp only [kind_eq_ok.mpr hk', Checked.ok_bind, definer_eq_ok.mpr ⟨htarget, rfl⟩]
      split
      · exact hnone
      · rw [modifyKind_isOk (lt_size_of_some hop)]
        refine ⟨_, rfl, fun g hg => ?_⟩
        cases hg
        refine h.rewritten_edit (fun i k => if i = survivor then k.withInit init else k)
          fun i k => ⟨_, ?_, fun _ => rfl⟩
        by_cases hi : i = survivor
        · rw [if_pos hi]
          exact .withInit init k
        · rw [if_neg hi]
          exact .refl k

/-! ## 3. One copy -/

/-- **Dropping the side that a copy names directly is a merge.** -/
theorem Sited.drop {s : CopySite} (hs : f.Sited s) (h : f.Compact)
    (hordered : f.usesOrdered s = .ok true) {f₀ : Func}
    (hf₀ : f.Rewritten (fun _ => False) (fun v => v) f₀) {buffer : OpId} {old new : ValueId}
    (hdefiner : f.definerOf old = some buffer)
    (hkind : ∃ result init, f.kindOf buffer = some (.buffer result init))
    (hsides : s.source = old ∧ s.target = new ∨ s.source = new ∧ s.target = old)
    {users : List OpId} (husers : f.aliasUsers old = .ok users)
    (hvisible : ∀ d, f.definerOf new = some d → ∀ u ∈ users, f.dominates d u = .ok true) :
    ∃ g, f₀.dropBuffer s.copy buffer old new = .ok g ∧ f.Merge s.copy buffer old new g := by
  obtain ⟨husable, husable'⟩ := h.usable_of_copy hs.reached hs.kind
  have hold : f.Usable old := by
    rcases hsides with ⟨rfl, -⟩ | ⟨-, rfl⟩
    · exact husable
    · exact husable'
  have hreached : f.Reaches buffer := h.reached buffer (hold.live hdefiner)
  have hroot : f.IsRoot old := isRoot_of_buffer hdefiner hkind
  obtain ⟨result, init, hk⟩ := hkind
  obtain ⟨k, hk', hresult⟩ := h.result_of_definerOf hdefiner
  rw [hk] at hk'
  cases hk'
  cases hresult
  have hne : buffer ≠ s.copy := by
    rintro rfl
    have := hs.kind
    rw [hk] at this
    cases this
  obtain ⟨g, hg, heffect⟩ := hf₀.nested.dropBuffer_isOk
    ((hf₀.reaches s.copy).mpr ⟨hs.reached, not_false⟩)
    ((hf₀.reaches buffer).mpr ⟨hreached, not_false⟩) hne
    (hf₀.leaf s.copy (h.leaves s.copy _ hs.kind rfl)) (hf₀.leaf buffer (h.leaves buffer _ hk rfl))
    old new
  refine ⟨g, hg, ?_⟩
  refine { compact := h, copy_reached := hs.reached, copy_kind := ⟨_, _, hs.kind, hsides⟩,
           buffer_reached := hreached, buffer_kind := ⟨init, hk⟩, rooted := ?_, alone := ?_,
           visible := fun d hd u k hu hku hv hview =>
             hvisible d hd u (h.mem_usersThrough husers hu hku hv hview),
           effect := (hf₀.trans heffect).congr_gone fun i => by simp }
  · rcases hsides with ⟨-, rfl⟩ | ⟨rfl, -⟩
    · obtain ⟨path, hchain⟩ := hs.target
      exact ⟨path, _, hchain⟩
    · obtain ⟨path, hchain⟩ := hs.source
      exact ⟨path, _, hchain⟩
  · intro heq u k hu hku hv hview
    obtain ⟨hsource, htarget⟩ : s.source = old ∧ s.target = old := by
      rcases hsides with ⟨hsource, htarget⟩ | ⟨hsource, htarget⟩
      · exact ⟨hsource, htarget.trans heq⟩
      · exact ⟨hsource.trans heq, htarget⟩
    exact hs.eq_copy_of_uses h.toNested hordered hroot hsource htarget hu hku hv hview

/-- What became of a copy: it is kept with all else, or it is gone by a merge. -/
inductive Outcome (f : Func) (copy : OpId) : Option CopyRemoval → Func → Prop
  | kept : Outcome f copy none f
  | merged {what : CopyRemoval} {buffer : OpId} {g : Func} :
      f.Merge copy buffer what.buffer what.replacement g → Outcome f copy (some what) g

/-- **On a compact function a candidate is removed by a merge, or left alone.** -/
theorem Sited.removeSite_yields {s : CopySite} (hs : f.Sited s) (h : f.Compact)
    (hordered : f.usesOrdered s = .ok true) (audience : Audience) :
    ∃ g what?, (f.removeSite s).Yields audience (g, what?) ∧ f.Outcome s.copy what? g := by
  obtain ⟨husable, husable'⟩ := h.usable_of_copy hs.reached hs.kind
  obtain ⟨target?, htarget, htargetSpec⟩ := h.erasable?_isOk husable' husable
    (h.reaches_of_mem_usersThrough hs.targetUsers) s.targetBuffer
  obtain ⟨source?, hsource, hsourceSpec⟩ := h.erasable?_isOk husable husable'
    (h.reaches_of_mem_usersThrough hs.sourceUsers) s.sourceBuffer
  have hnote : ∀ {g : Func} {text : String} {v : ValueId}, g.values = f.values → f.Usable v →
      (Traced.note .debug "dfopt::transform::simplify_copy"
        (do return text ++ (← g.value v).name)).Yields audience () := by
    rintro g text v hvalues ⟨value, hvalue, -⟩
    rw [← hvalues] at hvalue
    exact Traced.yields_note.mpr fun _ => ⟨_, Checked.bind_eq_ok.mpr
      ⟨value, value_eq_ok_iff.mpr hvalue, rfl⟩⟩
  unfold removeSite
  simp only [erasableTarget?_eq, erasableSource?_eq, Traced.yields_lift_bind htarget]
  cases target? with
  | some buffer =>
    obtain ⟨hbuffer, hdefiner, hvisible⟩ := htargetSpec buffer rfl
    obtain ⟨hdefiner', hkind⟩ := bufferOp_eq_some (hbuffer ▸ hs.targetBuffer)
    have hroot := h.eq_of_definerOf hdefiner' hdefiner
    obtain ⟨g, hg, hmerge⟩ := hs.drop h hordered h.rewritten_refl hdefiner hkind (.inr ⟨rfl, rfl⟩)
      (hroot ▸ hs.targetUsers) hvisible
    rw [← hroot] at hg hmerge
    refine ⟨g, some (.targetErased s.targetRoot s.source), ?_, .merged hmerge⟩
    rw [Traced.yields_lift_bind hg]
    exact Traced.yields_bind.mpr
      ⟨(), hnote hmerge.effect.values hmerge.usable_old, Traced.yields_pure.mpr rfl⟩
  | none =>
    simp only [Traced.yields_lift_bind hsource]
    cases source? with
    | none => exact ⟨f, none, Traced.yields_pure.mpr rfl, .kept⟩
    | some buffer =>
      obtain ⟨hbuffer, hdefiner, hvisible⟩ := hsourceSpec buffer rfl
      obtain ⟨hdefiner', hkind⟩ := bufferOp_eq_some (hbuffer ▸ hs.sourceBuffer)
      have hroot := h.eq_of_definerOf hdefiner' hdefiner
      obtain ⟨k, hk, -⟩ := h.result_of_definerOf hdefiner
      obtain ⟨f₀?, hinherit, hinheritSpec⟩ := h.inheritInit?_isOk (s := s) hk
        (husable'.imp fun _ hvalue => hvalue.1) fun b hb => by
          obtain ⟨-, _, _, hkind⟩ := bufferOp_eq_some (hb ▸ hs.targetBuffer)
          exact ⟨_, hkind⟩
      simp only [Traced.yields_lift_bind hinherit]
      cases f₀? with
      | none => exact ⟨f, none, Traced.yields_pure.mpr rfl, .kept⟩
      | some f₀ =>
        obtain ⟨g, hg, hmerge⟩ := hs.drop h hordered (hinheritSpec f₀ rfl) hdefiner hkind
          (.inl ⟨rfl, rfl⟩) (hroot ▸ hs.sourceUsers) hvisible
        rw [← hroot] at hg hmerge
        refine ⟨g, some (.sourceErased s.sourceRoot s.target), ?_, .merged hmerge⟩
        rw [Traced.yields_lift_bind hg]
        exact Traced.yields_bind.mpr
          ⟨(), hnote hmerge.effect.values hmerge.usable_old, Traced.yields_pure.mpr rfl⟩

/-- **Removing a copy from a compact function** gives a result, and is a merge if it does
anything. -/
theorem Compact.removeCopy_yields (h : f.Compact) {copy : OpId} (hcopy : f.Reaches copy)
    (audience : Audience) :
    ∃ g what?, (f.removeCopy copy).Yields audience (g, what?) ∧ f.Outcome copy what? g := by
  obtain ⟨op, hop, -⟩ := h.live copy hcopy
  have hkind := kindOf_eq hop
  unfold removeCopy
  simp only [Traced.yields_lift_bind (kind_eq_ok.mpr hkind)]
  cases hk : op.kind with
  | copy source target =>
    rw [hk] at hkind
    have hlabel : f.label copy = .ok ("copy " ++ opText copy) := by
      simp [label, op_eq_ok_iff.mpr hop, hk]
    have hnote : ∀ {text : String}, (Traced.note .debug "dfopt::transform::simplify_copy"
        (do return text ++ (← f.label copy))).Yields audience () := fun {text} =>
      Traced.yields_note.mpr fun _ => ⟨_, Checked.bind_eq_ok.mpr ⟨_, hlabel, rfl⟩⟩
    obtain ⟨s?, hs?⟩ := h.copySite?_isOk hcopy hkind
    cases s? with
    | none =>
      exact ⟨f, none, Traced.yields_bind.mpr ⟨(), hnote,
        (Traced.yields_lift_bind hs?).mpr (Traced.yields_pure.mpr rfl)⟩, .kept⟩
    | some s =>
      obtain ⟨hs, rfl⟩ := sited_of_copySite? hcopy hkind hs?
      obtain ⟨ordered, hordered⟩ := hs.usesOrdered_isOk h.toNested
      cases ordered with
      | false =>
        exact ⟨f, none, Traced.yields_bind.mpr ⟨(), hnote, (Traced.yields_lift_bind hs?).mpr
          ((Traced.yields_lift_bind hordered).mpr (Traced.yields_pure.mpr rfl))⟩, .kept⟩
      | true =>
        obtain ⟨g, what?, hyields, houtcome⟩ := hs.removeSite_yields h hordered audience
        exact ⟨g, what?, Traced.yields_bind.mpr ⟨(), hnote, (Traced.yields_lift_bind hs?).mpr
          ((Traced.yields_lift_bind hordered).mpr
            (Traced.yields_bind.mpr ⟨(), hnote, hyields⟩))⟩, houtcome⟩
  | _ => exact ⟨f, none, Traced.yields_pure.mpr rfl, .kept⟩

end Func
end Dataflow
