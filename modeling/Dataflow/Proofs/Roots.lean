/-
# Roots of memrefs

A memref is the root of its own memory, or a view of another memref.  `Func.Chain` follows views
to the root.  A chain repeats no memref, so it is shorter than either table: the search for a root
finds it whenever there is one (`Func.root_eq_some_iff`), and going forwards from a root the
collection of users never crosses more views than it may (`Func.Nested.aliasUsers_isOk`).

`Func.Compact` is what the removal of copies works on: a function in order, except that a view may
be left of a buffer that is gone.
-/
import Mathlib.Data.Finset.Card
import Mathlib.Data.Finset.Range
import Dataflow.Memory.Alias
import Dataflow.Proofs.Nesting

namespace Dataflow

/-- True for the operations that nothing is nested in. -/
def Kind.isLeaf : Kind → Bool
  | .buffer _ _ | .view _ _ | .copy _ _ | .compute _ => true
  | .schedule _ | .node _ | .loop _ => false

namespace Func

variable {f : Func}

/-! ## 1. Chains of views -/

/-- The operation that defines a value. -/
def definerOf (f : Func) (v : ValueId) : Option OpId := f.values[v]?.bind (·.definition.op?)

/-- The value is an argument or the result of a buffer. -/
def IsRoot (f : Func) (v : ValueId) : Prop :=
  (∃ value, f.values[v]? = some value)
    ∧ ∀ d, f.definerOf v = some d → ∃ result init, f.kindOf d = some (.buffer result init)

/-- The value is the result of a view of another. -/
def ViewOf (f : Func) (v source : ValueId) : Prop :=
  ∃ d result, f.definerOf v = some d ∧ f.kindOf d = some (.view source result)

/-- `f.Chain v path r`: going from view to source leads from `v` to the root `r`, through the
views of the path. -/
inductive Chain (f : Func) : ValueId → List ValueId → ValueId → Prop
  | root {v : ValueId} : f.IsRoot v → f.Chain v [] v
  | view {v source r : ValueId} {path : List ValueId} : f.ViewOf v source →
      f.Chain source path r → f.Chain v (v :: path) r

theorem definerOf_eq_some {v : ValueId} {d : OpId} :
    f.definerOf v = some d ↔ ∃ value, f.values[v]? = some value ∧ value.definition = .op d := by
  simp only [definerOf, Option.bind_eq_some_iff]
  refine exists_congr fun value => and_congr_right fun _ => ?_
  cases value.definition <;> simp [Definition.op?]

theorem isRoot_of_buffer {v : ValueId} {d : OpId} (hd : f.definerOf v = some d)
    (hk : ∃ result init, f.kindOf d = some (.buffer result init)) : f.IsRoot v := by
  refine ⟨(definerOf_eq_some.mp hd).imp fun _ hvalue => hvalue.1, fun d' hd' => ?_⟩
  rw [hd] at hd'
  cases hd'
  exact hk

theorem ViewOf.unique {v s s' : ValueId} (h : f.ViewOf v s) (h' : f.ViewOf v s') : s = s' := by
  obtain ⟨d, result, hd, hk⟩ := h
  obtain ⟨d', result', hd', hk'⟩ := h'
  rw [hd] at hd'
  cases hd'
  rw [hk] at hk'
  cases hk'
  rfl

theorem IsRoot.not_viewOf {v s : ValueId} (h : f.IsRoot v) : ¬ f.ViewOf v s := by
  rintro ⟨d, result, hd, hk⟩
  obtain ⟨result', init, hbuffer⟩ := h.2 d hd
  rw [hk] at hbuffer
  cases hbuffer

theorem Chain.isRoot {v r : ValueId} {path : List ValueId} (h : f.Chain v path r) : f.IsRoot r := by
  induction h with
  | root hv => exact hv
  | view _ _ ih => exact ih

theorem Chain.unique {v r : ValueId} {path : List ValueId} (h : f.Chain v path r) :
    ∀ {r' : ValueId} {path' : List ValueId}, f.Chain v path' r' → path = path' ∧ r = r' := by
  induction h with
  | root hv =>
    intro r' path' h'
    cases h' with
    | root => exact ⟨rfl, rfl⟩
    | view hview _ => exact absurd hview hv.not_viewOf
  | view hview _ ih =>
    intro r' path' h'
    cases h' with
    | root hv => exact absurd hview hv.not_viewOf
    | view hview' h' =>
      cases hview.unique hview'
      obtain ⟨rfl, rfl⟩ := ih h'
      exact ⟨rfl, rfl⟩

/-- What a chain goes through has the rest of it as its own chain. -/
theorem Chain.of_mem {v w r : ValueId} {path : List ValueId} (h : f.Chain v path r)
    (hw : w ∈ path) : ∃ path', path' <:+ path ∧ f.Chain w path' r := by
  induction h with
  | root => cases hw
  | @view v source r path hview h ih =>
    rcases List.mem_cons.mp hw with rfl | hw
    · exact ⟨_, List.suffix_rfl, .view hview h⟩
    · obtain ⟨path', hsuffix, h'⟩ := ih hw
      exact ⟨path', hsuffix.trans (List.suffix_cons _ _), h'⟩

/-- **A chain repeats no memref.** -/
theorem Chain.nodup {v r : ValueId} {path : List ValueId} (h : f.Chain v path r) : path.Nodup := by
  induction h with
  | root => exact List.nodup_nil
  | @view v source r path hview h ih =>
    refine List.nodup_cons.mpr ⟨fun hv => ?_, ih⟩
    -- The rest of the chain from a second `v` would be the whole of it.
    obtain ⟨path', hsuffix, h'⟩ := h.of_mem hv
    obtain ⟨rfl, -⟩ := h'.unique (.view hview h)
    have := hsuffix.length_le
    rw [List.length_cons] at this
    omega

theorem Chain.viewOf_of_mem {v w r : ValueId} {path : List ValueId} (h : f.Chain v path r)
    (hw : w ∈ path) : ∃ s, f.ViewOf w s := by
  induction h with
  | root => cases hw
  | view hview _ ih =>
    rcases List.mem_cons.mp hw with rfl | hw
    · exact ⟨_, hview⟩
    · exact ih hw

/-- What defines a value has it as its result. -/
theorem TablesAgree.result_of_definerOf (h : f.TablesAgree) {v : ValueId} {d : OpId}
    (hd : f.definerOf v = some d) : ∃ k, f.kindOf d = some k ∧ k.result? = some v := by
  obtain ⟨value, hvalue, hdef⟩ := definerOf_eq_some.mp hd
  have hbacks := h.definitions v value hvalue
  rw [hdef] at hbacks
  obtain ⟨op, hop, hresult⟩ := hbacks
  exact ⟨op.kind, kindOf_eq hop, hresult⟩

/-- A chain goes through fewer memrefs than there are... -/
theorem Chain.length_le_values {v r : ValueId} {path : List ValueId} (h : f.Chain v path r) :
    path.length ≤ f.values.size := by
  have hsub : path ⊆ List.range f.values.size := by
    intro w hw
    obtain ⟨s, d, result, hd, -⟩ := h.viewOf_of_mem hw
    obtain ⟨value, hvalue, -⟩ := definerOf_eq_some.mp hd
    exact List.mem_range.mpr (Array.getElem?_eq_some_iff.mp hvalue).1
  simpa using h.nodup.length_le_of_subset hsub

/-- ...and, since no operation defines two of them, at most as many as there are operations. -/
theorem Chain.length_le_ops (ht : f.TablesAgree) {v r : ValueId} {path : List ValueId}
    (h : f.Chain v path r) : path.length ≤ f.ops.size := by
  have hdefines : ∀ w ∈ path, ∃ d k, f.definerOf w = some d ∧ f.kindOf d = some k
      ∧ k.result? = some w := by
    intro w hw
    obtain ⟨s, d, result, hd, -⟩ := h.viewOf_of_mem hw
    obtain ⟨k, hk, hresult⟩ := ht.result_of_definerOf hd
    exact ⟨d, k, hd, hk, hresult⟩
  have hcard := Finset.card_le_card_of_injOn (s := path.toFinset) (t := Finset.range f.ops.size)
    (fun w => (f.definerOf w).getD 0) ?_ ?_
  · rwa [List.toFinset_card_of_nodup h.nodup, Finset.card_range] at hcard
  · intro w hw
    obtain ⟨d, k, hd, hk, -⟩ := hdefines w (List.mem_toFinset.mp hw)
    obtain ⟨op, hop, -⟩ := Option.map_eq_some_iff.mp hk
    simpa [hd] using (Array.getElem?_eq_some_iff.mp hop).1
  · intro w hw w' hw' heq
    obtain ⟨d, k, hd, hk, hresult⟩ := hdefines w (List.mem_toFinset.mp hw)
    obtain ⟨d', k', hd', hk', hresult'⟩ := hdefines w' (List.mem_toFinset.mp hw')
    simp only [hd, hd', Option.getD_some] at heq
    rw [heq, hk'] at hk
    cases hk
    rw [hresult] at hresult'
    exact Option.some.inj hresult'

/-! ## 2. The search for a root -/

theorem resolve_eq_some : ∀ {steps : Nat} {v r : ValueId}, f.resolve steps v = .ok (some r) →
    ∃ path, f.Chain v path r
  | 0, _, _, h => by cases h
  | steps + 1, v, r, h => by
    rw [resolve] at h
    obtain ⟨value, hvalue, h⟩ := Checked.bind_eq_ok.mp h
    have hval := value_eq_ok_iff.mp hvalue
    split at h
    · rename_i position hdef
      cases h
      refine ⟨[], .root ⟨⟨value, hval⟩, fun d hd => ?_⟩⟩
      obtain ⟨value', hval', hdef'⟩ := definerOf_eq_some.mp hd
      rw [hval] at hval'
      cases hval'
      rw [hdef] at hdef'
      cases hdef'
    · rename_i d hdef
      have hd : f.definerOf v = some d := definerOf_eq_some.mpr ⟨value, hval, hdef⟩
      obtain ⟨k, hk, h⟩ := Checked.bind_eq_ok.mp h
      have hkind := kind_eq_ok.mp hk
      split at h
      · rename_i result init
        cases h
        exact ⟨[], .root (isRoot_of_buffer hd ⟨result, init, hkind⟩)⟩
      · rename_i source result
        obtain ⟨path, hpath⟩ := resolve_eq_some h
        exact ⟨v :: path, .view ⟨d, result, hd, hkind⟩ hpath⟩
      · cases h

theorem Chain.resolve_eq {v r : ValueId} {path : List ValueId} (h : f.Chain v path r) :
    ∀ {steps : Nat}, path.length < steps → f.resolve steps v = .ok (some r) := by
  induction h with
  | @root v hv =>
    intro steps hlt
    obtain ⟨⟨value, hvalue⟩, hbuffer⟩ := hv
    obtain ⟨steps, rfl⟩ := Nat.exists_eq_succ_of_ne_zero (Nat.ne_zero_of_lt hlt)
    rw [Nat.succ_eq_add_one, resolve, value_eq_ok_iff.mpr hvalue, Checked.ok_bind]
    cases hdef : value.definition with
    | argument position => rfl
    | op d =>
      obtain ⟨result, init, hk⟩ := hbuffer d (definerOf_eq_some.mpr ⟨value, hvalue, hdef⟩)
      simp [kind_eq_ok.mpr hk]
  | @view v source r path hview _ ih =>
    intro steps hlt
    obtain ⟨d, result, hd, hk⟩ := hview
    obtain ⟨value, hvalue, hdef⟩ := definerOf_eq_some.mp hd
    obtain ⟨steps, rfl⟩ := Nat.exists_eq_succ_of_ne_zero (Nat.ne_zero_of_lt hlt)
    rw [Nat.succ_eq_add_one, resolve, value_eq_ok_iff.mpr hvalue, Checked.ok_bind, hdef]
    simpa [kind_eq_ok.mpr hk] using ih (Nat.lt_of_succ_lt_succ hlt)

/-- **The search finds the root of a memref whenever it has one.** -/
theorem root_eq_some_iff {v r : ValueId} :
    f.root v = .ok (some r) ↔ ∃ path, f.Chain v path r :=
  ⟨resolve_eq_some, fun ⟨_, h⟩ => h.resolve_eq (Nat.lt_succ_of_le h.length_le_values)⟩

/-! ## 3. Compact functions -/

/-- The value exists, and is no result of an erased operation other than a buffer. -/
def Known (f : Func) (v : ValueId) : Prop :=
  ∃ value, f.values[v]? = some value ∧ ∀ d, f.definerOf v = some d →
    f.IsLive d ∨ ∃ result init, f.kindOf d = some (.buffer result init)

/-- A function with nothing in it but what is reached and what is erased, in order except that the
source of a view may be a buffer that is gone. -/
structure Compact (f : Func) : Prop extends f.TablesAgree, f.Nested where
  reached : ∀ id, f.IsLive id → f.Reaches id
  leaves : ∀ id k, f.kindOf id = some k → k.isLeaf = true → f.bodyOf id = []
  uses : ∀ id k, f.Reaches id → f.kindOf id = some k → ∀ v ∈ k.operands,
    f.Known v ∧ (viewResult? k = none → f.Usable v)
  result : ∀ id k v, f.Reaches id → f.kindOf id = some k → k.result? = some v →
    f.definerOf v = some id
  loop : ∀ id l, f.Reaches id → f.kindOf id = some (.loop l) →
    0 < l.step ∧ ∀ tile, l.pointOf = some tile → f.IsLoop tile
  compute : ∀ id c, f.Reaches id → f.kindOf id = some (.compute c) → ∀ l ∈ c.loops,
    f.IsLoop l ∧ f.Above l id

/-- `f.Outlived id`: the slot holds a view whose source is gone. -/
def Outlived (f : Func) (id : OpId) : Prop :=
  ∃ source result, f.kindOf id = some (.view source result) ∧ ¬ f.Usable source

theorem Usable.known {v : ValueId} (h : f.Usable v) : f.Known v := by
  obtain ⟨value, hvalue, hlive⟩ := h
  refine ⟨value, hvalue, fun d hd => .inl (hlive d ?_)⟩
  obtain ⟨value', hvalue', hdef⟩ := definerOf_eq_some.mp hd
  rw [hvalue] at hvalue'
  cases hvalue'
  exact hdef

theorem Usable.live {v : ValueId} {d : OpId} (h : f.Usable v) (hd : f.definerOf v = some d) :
    f.IsLive d := by
  obtain ⟨value, hvalue, hlive⟩ := h
  obtain ⟨value', hvalue', hdef⟩ := definerOf_eq_some.mp hd
  rw [hvalue] at hvalue'
  cases hvalue'
  exact hlive d hdef

/-- A function in order is compact if nothing live is unreached and nothing nested in leaves. -/
theorem Tidy.compact (h : f.Tidy) (hreached : ∀ id, f.IsLive id → f.Reaches id)
    (hleaves : ∀ id k, f.kindOf id = some k → k.isLeaf = true → f.bodyOf id = []) : f.Compact where
  toTablesAgree := h.toTablesAgree
  toNested := h.toNested
  reached := hreached
  leaves := hleaves
  uses := fun id k hid hk v hv => by
    obtain ⟨op, hop, rfl⟩ := Option.map_eq_some_iff.mp hk
    have husable := (h.mentions id op hid hop).uses v (List.mem_append_left _ hv)
    exact ⟨husable.known, fun _ => husable⟩
  result := fun id k v hid hk hv => by
    obtain ⟨op, hop, rfl⟩ := Option.map_eq_some_iff.mp hk
    exact definerOf_eq_some.mpr ((h.mentions id op hid hop).result v hv)
  loop := fun id l hid hk => by
    obtain ⟨op, hop, hl⟩ := Option.map_eq_some_iff.mp hk
    exact (h.mentions id op hid hop).loop l hl
  compute := fun id c hid hk => by
    obtain ⟨op, hop, hc⟩ := Option.map_eq_some_iff.mp hk
    exact (h.mentions id op hid hop).compute c hc

namespace Compact

/-- **A compact function is in order exactly when no view outlives its source.** -/
theorem tidy_iff (h : f.Compact) : f.Tidy ↔ ∀ id, f.Reaches id → ¬ f.Outlived id := by
  constructor
  · rintro ht id hid ⟨source, result, hk, hnot⟩
    obtain ⟨op, hop, hop'⟩ := Option.map_eq_some_iff.mp hk
    refine hnot ((ht.mentions id op hid hop).uses source (List.mem_append_left _ ?_))
    simp [hop', Kind.operands]
  · intro hview
    refine { toTablesAgree := h.toTablesAgree, toNested := h.toNested,
             mentions := fun id op hid hop => ?_ }
    have hk := kindOf_eq hop
    have hresult : ∀ v, op.kind.result? = some v →
        ∃ value, f.values[v]? = some value ∧ value.definition = .op id := fun v hv =>
      definerOf_eq_some.mp (h.result id op.kind v hid hk hv)
    refine ⟨fun v hv => ?_, hresult, fun l hl => h.loop id l hid (hl ▸ hk),
      fun c hc => h.compute id c hid (hc ▸ hk)⟩
    rcases List.mem_append.mp hv with hv | hv
    · by_cases hcase : viewResult? op.kind = none
      · exact (h.uses id op.kind hid hk v hv).2 hcase
      · cases hkind : op.kind with
        | view source result =>
          by_contra hnot
          rw [hkind] at hk hv
          cases List.mem_singleton.mp hv
          exact hview id hid ⟨_, result, hk, hnot⟩
        | _ => simp [hkind, viewResult?] at hcase
    · obtain ⟨value, hvalue, hdef⟩ := hresult v (Option.mem_toList.mp hv)
      refine ⟨value, hvalue, fun d hd => ?_⟩
      rw [hdef] at hd
      cases hd
      exact h.live id hid

/-- A known memref is a root, or a view that is reached of one that is known. -/
theorem isRoot_or_view (h : f.Compact) {v : ValueId} (hv : f.Known v) :
    f.IsRoot v ∨ ∃ d source result, f.definerOf v = some d ∧ f.Reaches d
      ∧ f.kindOf d = some (.view source result) ∧ f.Known source := by
  obtain ⟨value, hvalue, hdefiner⟩ := hv
  cases hd : f.definerOf v with
  | none => exact .inl ⟨⟨value, hvalue⟩, fun d hd' => by rw [hd] at hd'; cases hd'⟩
  | some d =>
    rcases hdefiner d hd with hlive | hbuffer
    · have hreach := h.reached d hlive
      obtain ⟨k, hk, hresult⟩ := h.result_of_definerOf hd
      cases k with
      | buffer result init => exact .inl (isRoot_of_buffer hd ⟨result, init, hk⟩)
      | view source result =>
        exact .inr ⟨d, source, result, rfl, hreach, hk,
          (h.uses d _ hreach hk source List.mem_cons_self).1⟩
      | _ => cases hresult
    · exact .inl (isRoot_of_buffer hd hbuffer)

/-- From a known memref the search for a root never fails. -/
theorem resolve_isOk (h : f.Compact) : ∀ (steps : Nat) {v : ValueId}, f.Known v →
    ∃ r, f.resolve steps v = .ok r
  | 0, _, _ => ⟨none, rfl⟩
  | steps + 1, v, hv => by
    rcases h.isRoot_or_view hv with hroot | ⟨d, source, result, hd, -, hk, hsource⟩
    · exact ⟨some v, (Chain.root hroot).resolve_eq (Nat.succ_pos steps)⟩
    · obtain ⟨r, hr⟩ := h.resolve_isOk steps hsource
      obtain ⟨value, hvalue, hdef⟩ := definerOf_eq_some.mp hd
      refine ⟨r, ?_⟩
      rw [resolve, value_eq_ok_iff.mpr hvalue, Checked.ok_bind, hdef]
      simpa [kind_eq_ok.mpr hk] using hr

end Compact

/-! ## 4. Users of a memory -/

theorem usersThrough_eq_ok {views : Nat} {v : ValueId} {users : List OpId} :
    f.usersThrough (views + 1) v = .ok users ↔ ∃ es parts, f.entries = .ok es ∧
      List.Forall₂ (fun w part => f.usersThrough views w = .ok part)
        ((es.filter fun e => e.2.kind.operands.contains v).filterMap
          fun e => viewResult? e.2.kind).reverse parts ∧
      users = ((es.filter fun e => e.2.kind.operands.contains v).filter
        fun e => (viewResult? e.2.kind).isNone).map Prod.fst ++ parts.flatten := by
  rw [usersThrough, Checked.bind_eq_ok]
  constructor
  · rintro ⟨es, hes, h⟩
    obtain ⟨parts, hparts, h⟩ := Checked.bind_eq_ok.mp h
    cases h
    exact ⟨es, parts, hes, Checked.mapM_eq_ok.mp hparts, rfl⟩
  · rintro ⟨es, parts, hes, hparts, rfl⟩
    exact ⟨es, hes, Checked.bind_eq_ok.mpr ⟨parts, Checked.mapM_eq_ok.mpr hparts, rfl⟩⟩

/-- Users are reached. -/
theorem Nested.reaches_of_mem_usersThrough (h : f.Nested) : ∀ {views : Nat} {v : ValueId}
    {users : List OpId}, f.usersThrough views v = .ok users → ∀ u ∈ users, f.Reaches u
  | 0, _, _, husers => by cases husers
  | views + 1, v, users, husers => by
    obtain ⟨es, parts, hes, hparts, rfl⟩ := usersThrough_eq_ok.mp husers
    intro u hu
    rcases List.mem_append.mp hu with hu | hu
    · obtain ⟨⟨id, op⟩, he, rfl⟩ := List.mem_map.mp hu
      exact ((h.mem_entries hes).mp (List.mem_of_mem_filter (List.mem_of_mem_filter he))).1
    · obtain ⟨part, hpart, hu⟩ := List.mem_flatten.mp hu
      obtain ⟨w, -, hw⟩ := Checked.forall₂_left hparts hpart
      exact h.reaches_of_mem_usersThrough hw u hu

/-- Whatever uses a memref itself and is no view is among its users. -/
theorem Nested.mem_usersThrough (h : f.Nested) {views : Nat} {v : ValueId} {users : List OpId}
    (husers : f.usersThrough views v = .ok users) {u : OpId} {k : Kind} (hu : f.Reaches u)
    (hk : f.kindOf u = some k) (hv : v ∈ k.operands) (hview : viewResult? k = none) :
    u ∈ users := by
  cases views with
  | zero => cases husers
  | succ views =>
    obtain ⟨es, parts, hes, -, rfl⟩ := usersThrough_eq_ok.mp husers
    obtain ⟨op, hop, rfl⟩ := Option.map_eq_some_iff.mp hk
    refine List.mem_append_left _ (List.mem_map.mpr ⟨(u, op), ?_, rfl⟩)
    simp [(h.mem_entries hes).mpr ⟨hu, hop⟩, hv, hview]

/-- Every reached operation is the definer of its result. -/
def NamesResults (f : Func) : Prop :=
  ∀ id k v, f.Reaches id → f.kindOf id = some k → k.result? = some v → f.definerOf v = some id

theorem Compact.namesResults (h : f.Compact) : f.NamesResults := h.result

/-- A view of a memref with a root has that root too. -/
theorem NamesResults.chain_view (h : f.NamesResults) {v w r : ValueId} {path : List ValueId}
    (hv : f.Chain v path r) {u : OpId} {k : Kind} (hu : f.Reaches u) (hk : f.kindOf u = some k)
    (hmem : v ∈ k.operands) (hw : viewResult? k = some w) : f.Chain w (w :: path) r := by
  cases k with
  | view source result =>
    cases List.mem_singleton.mp hmem
    cases hw
    exact .view ⟨u, _, h u _ _ hu hk rfl, hk⟩ hv
  | _ => cases hw

/-- The collection of users from a memref on crosses no more views than its chain leaves room
for. -/
theorem Nested.usersThrough_isOk (h : f.Nested) (ht : f.TablesAgree) (hr : f.NamesResults) :
    ∀ {views : Nat} {v r : ValueId} {path : List ValueId}, f.Chain v path r →
      f.ops.size + 2 ≤ views + path.length → ∃ users, f.usersThrough views v = .ok users
  | 0, v, r, path, hv, hlen => by
    have := hv.length_le_ops ht
    omega
  | views + 1, v, r, path, hv, hlen => by
    obtain ⟨es, hes⟩ := h.entries_isOk
    obtain ⟨parts, hparts⟩ := Checked.mapM_isOk (k := f.usersThrough views)
      (l := ((es.filter fun e => e.2.kind.operands.contains v).filterMap
          fun e => viewResult? e.2.kind).reverse) fun w hw => by
        obtain ⟨⟨u, op⟩, he, hw⟩ := List.mem_filterMap.mp (List.mem_reverse.mp hw)
        obtain ⟨he, hmem⟩ := List.mem_filter.mp he
        obtain ⟨hu, hop⟩ := (h.mem_entries hes).mp he
        refine h.usersThrough_isOk ht hr
          (hr.chain_view hv hu (kindOf_eq hop) (by simpa using hmem) hw) ?_
        rw [List.length_cons]
        omega
    exact ⟨_, usersThrough_eq_ok.mpr ⟨es, parts, hes, Checked.mapM_eq_ok.mp hparts, rfl⟩⟩

/-- **The users of a root can always be told.** -/
theorem Nested.aliasUsers_isOk (h : f.Nested) (ht : f.TablesAgree) (hresults : f.NamesResults)
    {r : ValueId} (hr : f.IsRoot r) : ∃ users, f.aliasUsers r = .ok users :=
  h.usersThrough_isOk ht hresults (.root hr) (Nat.le_refl _)

theorem Compact.aliasUsers_isOk (h : f.Compact) {r : ValueId} (hr : f.IsRoot r) :
    ∃ users, f.aliasUsers r = .ok users :=
  h.toNested.aliasUsers_isOk h.toTablesAgree h.namesResults hr

end Func
end Dataflow
