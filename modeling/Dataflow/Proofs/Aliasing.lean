/-
# Forwards and backwards along views

Two searches follow views.  The one goes backwards, from a memref to the root of its memory, and
gives up after a number of steps; the other goes forwards from a root, to every operation that
touches its memory, and remembers nothing of where it has been.

In a closed function the two agree.  Views either lead to a root or run in a circle
(`Func.Tidy.root_eq_none_iff`), and a circle cannot be entered from a root, for a view has one
source only.  So the search forwards ends, and finds an operation exactly if the search backwards
leads from one of its operands to the root (`Func.alias_searches_agree`).
-/
import Dataflow.Proofs.Closure
import Dataflow.Proofs.CopyOrder

namespace Dataflow
namespace Func

variable {f : Func}

/-! ## 1. Circles of views -/

/-- `f.Circles v`: going on from view to source leads from `v` to a memref that is met again. -/
def Circles (f : Func) (v : ValueId) : Prop :=
  ∃ w, Relation.ReflTransGen f.ViewOf v w ∧ Relation.TransGen f.ViewOf w w

/-- The source of a view has the rest of the view's chain. -/
theorem Chain.of_viewOf {v s r : ValueId} {path : List ValueId} (h : f.Chain v path r)
    (hview : f.ViewOf v s) : ∃ path', path = v :: path' ∧ f.Chain s path' r := by
  cases h with
  | root hv => exact absurd hview hv.not_viewOf
  | view hview' h =>
    cases hview.unique hview'
    exact ⟨_, rfl, h⟩

theorem Chain.of_transGen {v w r : ValueId} {path : List ValueId} (h : f.Chain v path r)
    (hvw : Relation.TransGen f.ViewOf v w) :
    ∃ path', f.Chain w path' r ∧ path'.length < path.length := by
  induction hvw with
  | single hview =>
    obtain ⟨path', rfl, h'⟩ := h.of_viewOf hview
    exact ⟨path', h', by simp⟩
  | tail _ hview ih =>
    obtain ⟨path', h', hlt⟩ := ih
    obtain ⟨path'', rfl, h''⟩ := h'.of_viewOf hview
    rw [List.length_cons] at hlt
    exact ⟨path'', h'', by omega⟩

/-- **What has a root runs in no circle.** -/
theorem Chain.not_circles {v r : ValueId} {path : List ValueId} (h : f.Chain v path r) :
    ¬ f.Circles v := by
  rintro ⟨w, hvw, hcircle⟩
  obtain ⟨path', h'⟩ : ∃ path', f.Chain w path' r := by
    rcases Relation.reflTransGen_iff_eq_or_transGen.mp hvw with rfl | hvw
    · exact ⟨path, h⟩
    · exact (h.of_transGen hvw).imp fun _ h' => h'.1
  -- Once around the circle the chain would be a shorter one of the same memref.
  obtain ⟨path'', h'', hlt⟩ := h'.of_transGen hcircle
  obtain ⟨rfl, -⟩ := h'.unique h''
  exact Nat.lt_irrefl _ hlt

/-- More steps from view to source than there are memrefs come to one of them twice. -/
theorem circles_of_long {v : ValueId} {walk : List ValueId} (hwalk : (v :: walk).IsChain f.ViewOf)
    (hlong : f.values.size < walk.length) : f.Circles v := by
  by_contra hnone
  have hsteps : (v :: walk).Pairwise (Relation.TransGen f.ViewOf) :=
    List.isChain_iff_pairwise.mp (hwalk.imp fun _ _ => Relation.TransGen.single)
  have hfrom : ∀ w ∈ v :: walk, Relation.ReflTransGen f.ViewOf v w := by
    intro w hw
    rcases List.mem_cons.mp hw with rfl | hw
    · exact .refl
    · exact ((List.pairwise_cons.mp hsteps).1 w hw).to_reflTransGen
  have hnodup : (v :: walk).Nodup := by
    refine List.Pairwise.imp_of_mem ?_ hsteps
    rintro a b ha - hab rfl
    exact hnone ⟨a, hfrom a ha, hab⟩
  -- All memrefs of the walk but the last are views, so they stand in the table.
  have hviews : (v :: walk).dropLast ⊆ List.range f.values.size := by
    intro w hw
    obtain ⟨i, hi, rfl⟩ := List.getElem_of_mem hw
    rw [List.length_dropLast] at hi
    obtain ⟨d, result, hd, -⟩ := List.isChain_iff_getElem.mp hwalk i (by omega)
    obtain ⟨value, hvalue, -⟩ := definerOf_eq_some.mp hd
    simpa using (Array.getElem?_eq_some_iff.mp hvalue).1
  have hcount := (hnodup.sublist (List.dropLast_sublist _)).length_le_of_subset hviews
  rw [List.length_dropLast, List.length_cons, List.length_range] at hcount
  omega

namespace Tidy

/-- A function is closed if every operation that defines a value is erased or reached. -/
theorem closed_of_definers (h : f.Tidy)
    (hdefiners : ∀ v d, f.definerOf v = some d → f.IsLive d → f.Reaches d) : f.Closed := by
  rw [h.closed_iff]
  intro v hv d hd
  exact hdefiners v d hd ((h.usable hv).live hd)

theorem namesResults (h : f.Tidy) : f.NamesResults := by
  intro id k v hid hk hv
  exact h.definerOf_of_makes (makes_iff.mpr ⟨k, hk, hv⟩) hid

/-- An operand of a closed function is a root, or a view of another operand that is reached. -/
theorem isRoot_or_renamed (h : f.Tidy) (hclosed : f.Closed) {v : ValueId} (hv : f.Uses v) :
    f.IsRoot v ∨ ∃ source, f.ViewOf v source ∧ f.Renames source v ∧ f.Uses source := by
  obtain ⟨value, hvalue, -⟩ := h.usable hv
  cases hd : f.definerOf v with
  | none => exact .inl ⟨⟨value, hvalue⟩, fun d hd' => by rw [hd] at hd'; cases hd'⟩
  | some d =>
    have hreached : f.Reaches d := h.closed_iff.mp hclosed v hv d hd
    rcases h.makes_of_definerOf hd with ⟨init, hk⟩ | ⟨source, hk⟩
    · exact .inl (isRoot_of_buffer hd ⟨v, init, hk⟩)
    · exact .inr ⟨source, ⟨d, v, hd, hk⟩, ⟨d, hreached, hk⟩,
        ⟨d, _, hreached, hk, List.mem_singleton_self source⟩⟩

/-- From an operand on, views lead to a root or go on for any number of steps. -/
theorem chain_or_walk (h : f.Tidy) (hclosed : f.Closed) : ∀ (steps : Nat) {v : ValueId},
    f.Uses v → (∃ path r, f.Chain v path r) ∨
      ∃ walk, walk.length = steps ∧ (v :: walk).IsChain f.ViewOf
  | 0, v, _ => .inr ⟨[], rfl, .singleton v⟩
  | steps + 1, v, hv => by
    rcases h.isRoot_or_renamed hclosed hv with hroot | ⟨source, hview, -, hsource⟩
    · exact .inl ⟨[], v, .root hroot⟩
    · rcases h.chain_or_walk hclosed steps hsource with ⟨path, r, hchain⟩ | ⟨walk, hlen, hwalk⟩
      · exact .inl ⟨v :: path, r, .view hview hchain⟩
      · exact .inr ⟨source :: walk, by simp [hlen], .cons_cons hview hwalk⟩

/-- **An operand of a closed function has a root, unless its views run in a circle.** -/
theorem chain_or_circles (h : f.Tidy) (hclosed : f.Closed) {v : ValueId} (hv : f.Uses v) :
    (∃ path r, f.Chain v path r) ∨ f.Circles v := by
  rcases h.chain_or_walk hclosed (f.values.size + 1) hv with hchain | ⟨walk, hlen, hwalk⟩
  · exact .inl hchain
  · exact .inr (circles_of_long hwalk (by omega))

/-- The search for the root of an operand ends, and finds none exactly in a circle. -/
theorem root_eq_none_iff (h : f.Tidy) (hclosed : f.Closed) {v : ValueId} (hv : f.Uses v) :
    (∃ r?, f.root v = .ok r?) ∧ (f.root v = .ok none ↔ f.Circles v) := by
  obtain ⟨r?, hr, -⟩ := h.root_isOk hclosed hv
  refine ⟨⟨r?, hr⟩, ?_, ?_⟩
  · intro hnone
    rcases h.chain_or_circles hclosed hv with ⟨path, r, hchain⟩ | hcircles
    · rw [root_eq_some_iff.mpr ⟨path, hchain⟩] at hnone
      cases hnone
    · exact hcircles
  · intro hcircles
    cases r? with
    | none => exact hr
    | some r =>
      obtain ⟨path, hchain⟩ := root_eq_some_iff.mp hr
      exact absurd hcircles hchain.not_circles

/-! ## 2. Both directions -/

/-- Going forwards from a root leads to memrefs that have it as their root... -/
theorem chain_of_renames (h : f.Tidy) {r v : ValueId} (hr : f.IsRoot r)
    (hrv : Relation.ReflTransGen f.Renames r v) : ∃ path, f.Chain v path r := by
  induction hrv with
  | refl => exact ⟨[], .root hr⟩
  | @tail v w _ hrename ih =>
    obtain ⟨path, hchain⟩ := ih
    obtain ⟨id, hid, hk⟩ := hrename
    exact ⟨w :: path, h.namesResults.chain_view hchain hid hk (List.mem_singleton_self v) rfl⟩

/-- ...and the chain of an operand is a way forwards, through views that are reached. -/
theorem renames_of_chain (h : f.Tidy) (hclosed : f.Closed) {v r : ValueId} {path : List ValueId}
    (hchain : f.Chain v path r) : f.Uses v → Relation.ReflTransGen f.Renames r v := by
  induction hchain with
  | root => exact fun _ => .refl
  | @view v source r path hview hchain ih =>
    intro hv
    rcases h.isRoot_or_renamed hclosed hv with hroot | ⟨source', hview', hrename, hsource⟩
    · exact absurd hview hroot.not_viewOf
    · cases hview.unique hview'
      exact (ih hsource).tail hrename

/-- **What touches the memory of a root has an operand with that root.** -/
theorem touches_iff (h : f.Tidy) (hclosed : f.Closed) {r : ValueId} (hr : f.IsRoot r) {u : OpId} :
    f.Touches r u ↔ ∃ k, f.Reaches u ∧ f.kindOf u = some k ∧ viewResult? k = none
      ∧ ∃ v ∈ k.operands, f.root v = .ok (some r) := by
  constructor
  · rintro ⟨k, v, hu, hk, hview, hv, hrv⟩
    exact ⟨k, hu, hk, hview, v, hv, root_eq_some_iff.mpr (h.chain_of_renames hr hrv)⟩
  · rintro ⟨k, hu, hk, hview, v, hv, hroot⟩
    obtain ⟨path, hchain⟩ := root_eq_some_iff.mp hroot
    exact ⟨k, v, hu, hk, hview, hv, h.renames_of_chain hclosed hchain ⟨u, k, hu, hk, hv⟩⟩

end Tidy

/-- **The two searches agree.**  If every operation that defines a value is erased or reached, the
users of a root can be told, and they are the reached operations other than views that have an
operand with that root.  Every operand has a root, found however long its chain of views is, unless
the chain runs in a circle. -/
theorem alias_searches_agree (f : Func) (hf : f.verify = .ok ())
    (hdefiners : ∀ v d, f.definerOf v = some d → f.IsLive d → f.Reaches d) :
    (∀ r, f.root r = .ok (some r) → ∃ users, f.aliasUsers r = .ok users ∧
        ∀ u, u ∈ users ↔ ∃ k, f.Reaches u ∧ f.kindOf u = some k ∧ viewResult? k = none
          ∧ ∃ v ∈ k.operands, f.root v = .ok (some r))
    ∧ ∀ v, f.Uses v → (∃ r?, f.root v = .ok r?) ∧ (f.root v = .ok none ↔ f.Circles v) := by
  have h : f.Tidy := verify_eq_ok_iff_tidy.mp hf
  have hclosed : f.Closed := h.closed_of_definers hdefiners
  refine ⟨fun r hroot => ?_, fun v hv => h.root_eq_none_iff hclosed hv⟩
  obtain ⟨path, hchain⟩ := root_eq_some_iff.mp hroot
  have hr : f.IsRoot r := hchain.isRoot
  obtain ⟨users, husers⟩ := h.toNested.aliasUsers_isOk h.toTablesAgree h.namesResults hr
  refine ⟨users, husers, fun u => ?_⟩
  rw [h.toNested.mem_aliasUsers_iff husers, h.touches_iff hclosed hr]

/-- A buffer seen through two views, and two views of each other. -/
def mirrors : Func where
  name := "f"
  arguments := [0]
  body := [0, 1, 2, 3, 4, 5, 6]
  ops := #[
    ⟨0, .buffer 1 none, none, [], false⟩,
    ⟨1, .view 1 2, none, [], false⟩,
    ⟨2, .view 2 3, none, [], false⟩,
    ⟨3, .view 5 4, none, [], false⟩,
    ⟨4, .view 4 5, none, [], false⟩,
    ⟨5, .copy 0 3, none, [], false⟩,
    ⟨6, .compute ⟨"s", [⟨4, [.const 0]⟩], [], []⟩, none, [], false⟩]
  values := #[
    { id := 0, name := "A", shape := [4], space := 0, definition := .argument 0 },
    { id := 1, name := "B", shape := [16], space := 0, definition := .op 0 },
    { id := 2, name := "B0", shape := [8], space := 0, definition := .op 1 },
    { id := 3, name := "B1", shape := [4], space := 0, definition := .op 2 },
    { id := 4, name := "M", shape := [4], space := 0, definition := .op 3 },
    { id := 5, name := "W", shape := [4], space := 0, definition := .op 4 }]

/-- The copy is a user of the buffer, two views away, and the compute is none: what it reads runs in
a circle. -/
theorem alias_searches_agree_mirrors : mirrors.verify = .ok ()
    ∧ (∃ users, mirrors.aliasUsers 1 = .ok users ∧ 5 ∈ users ∧ 6 ∉ users)
    ∧ mirrors.Uses 4 ∧ mirrors.Circles 4 := by
  have hverify : mirrors.verify = .ok () := by decide
  have hdefiners : ∀ v d, mirrors.definerOf v = some d → mirrors.IsLive d → mirrors.Reaches d := by
    rintro v d - ⟨op, hop, -⟩
    have hlt : d < 7 := (Array.getElem?_eq_some_iff.mp hop).1
    exact .top (List.mem_range.mpr hlt)
  obtain ⟨hforwards, hbackwards⟩ := alias_searches_agree mirrors hverify hdefiners
  obtain ⟨users, husers, hmem⟩ := hforwards 1 rfl
  have huses : mirrors.Uses 4 := ⟨6, _, .top (by decide), rfl, by decide⟩
  refine ⟨hverify, ⟨users, husers, ?_, ?_⟩, huses, (hbackwards 4 huses).2.mp rfl⟩
  · exact (hmem 5).mpr ⟨_, .top (by decide), rfl, rfl, 3, by decide, rfl⟩
  · rintro hsix
    obtain ⟨k, -, hk, -, v, hv, hroot⟩ := (hmem 6).mp hsix
    cases hk
    cases List.mem_singleton.mp hv
    cases hroot

end Func
end Dataflow
