/-
# Bands are perfect nests

A band that the analyses find is a perfect nest of loops (`Func.PerfectNest`): each but the last
holds the next and nothing else.  All its loops stand in one node, with no other node between.
The bands of a node that end at an innermost loop have no loop in common, for a loop of a perfect
nest tells the rest of it.
-/
import Mathlib.Data.List.Chain
import Dataflow.Band.Safeguards
import Dataflow.Proofs.Nesting

namespace Dataflow
namespace Func

variable {f : Func}

/-! ## 1. Perfect nests -/

/-- `f.PerfectNest band`: loops that are reached, each but the last with the next as its whole
body. -/
structure PerfectNest (f : Func) (band : Band) : Prop where
  reaches : ∀ id ∈ band, f.Reaches id
  isLoop : ∀ id ∈ band, f.IsLoop id
  chain : band.IsChain fun outer inner => f.bodyOf outer = [inner]

namespace PerfectNest

theorem nil (f : Func) : f.PerfectNest [] where
  reaches := fun _ hid => by cases hid
  isLoop := fun _ hid => by cases hid
  chain := .nil

theorem singleton {id : OpId} (hid : f.Reaches id) (hloop : f.IsLoop id) : f.PerfectNest [id] where
  reaches := fun x hx => by
    rw [List.mem_singleton] at hx
    exact hx ▸ hid
  isLoop := fun x hx => by
    rw [List.mem_singleton] at hx
    exact hx ▸ hloop
  chain := .singleton id

/-- A loop around a perfect nest. -/
theorem cons {outer inner : OpId} {band : Band} (h : f.PerfectNest (inner :: band))
    (hreach : f.Reaches outer) (hloop : f.IsLoop outer) (hbody : f.bodyOf outer = [inner]) :
    f.PerfectNest (outer :: inner :: band) where
  reaches := List.forall_mem_cons.mpr ⟨hreach, h.reaches⟩
  isLoop := List.forall_mem_cons.mpr ⟨hloop, h.isLoop⟩
  chain := .cons_cons hbody h.chain

/-- What is left of a perfect nest without its outer loops is one. -/
theorem of_append {outer inner : Band} (h : f.PerfectNest (outer ++ inner)) :
    f.PerfectNest inner where
  reaches := fun id hid => h.reaches id (List.mem_append_right outer hid)
  isLoop := fun id hid => h.isLoop id (List.mem_append_right outer hid)
  chain := h.chain.right_of_append

theorem tail {id : OpId} {band : Band} (h : f.PerfectNest (id :: band)) : f.PerfectNest band :=
  @of_append f [id] band h

theorem bodyOf_head {outer inner : OpId} {band : Band}
    (h : f.PerfectNest (outer :: inner :: band)) : f.bodyOf outer = [inner] :=
  (List.isChain_cons_cons.mp h.chain).1

theorem isParent_head (hn : f.Nested) {outer inner : OpId} {band : Band}
    (h : f.PerfectNest (outer :: inner :: band)) : f.IsParent outer inner :=
  hn.parentOf_nested outer (h.reaches outer List.mem_cons_self) inner
    (by rw [h.bodyOf_head]; exact List.mem_cons_self)

/-- The outermost loop is above all. -/
theorem above_of_head (hn : f.Nested) : ∀ {first : OpId} {band : Band},
    f.PerfectNest (first :: band) → ∀ id ∈ first :: band, f.Above first id
  | first, [], _, id, hid => by
    rw [List.mem_singleton] at hid
    exact hid ▸ .refl
  | first, second :: band, h, id, hid => by
    rcases List.mem_cons.mp hid with rfl | hid
    · exact .refl
    · exact (above_of_head hn h.tail id hid).head (h.isParent_head hn)

/-- **The innermost loop has all others above it.** -/
theorem above_last (hn : f.Nested) : ∀ {band : Band} {innermost : OpId}, f.PerfectNest band →
    band.getLast? = some innermost → ∀ id ∈ band, f.Above id innermost
  | [], _, _, hlast, _, _ => by cases hlast
  | first :: band, innermost, h, hlast, id, hid => by
    rcases List.mem_cons.mp hid with rfl | hid
    · exact h.above_of_head hn innermost (List.mem_of_getLast? hlast)
    · cases band with
      | nil => cases hid
      | cons second band =>
        rw [List.getLast?_cons_cons] at hlast
        exact above_last hn h.tail hlast id hid

theorem nodup (hn : f.Nested) : ∀ {band : Band}, f.PerfectNest band → band.Nodup
  | [], _ => List.nodup_nil
  | first :: band, h => by
    refine List.nodup_cons.mpr ⟨fun hmem => ?_, nodup hn h.tail⟩
    cases band with
    | nil => cases hmem
    | cons second band =>
      have hup : f.Above second first := h.tail.above_of_head hn first hmem
      have hbody : second ∈ f.bodyOf first := by rw [h.bodyOf_head]; exact List.mem_cons_self
      exact hn.not_above_owner (h.reaches first List.mem_cons_self) hbody hup

end PerfectNest

/-- No loop stands directly in the operation. -/
def HoldsNoLoop (f : Func) (id : OpId) : Prop := ∀ child ∈ f.bodyOf id, ¬ f.IsLoop child

/-- Two perfect nests from one loop that both end where no loop follows end at the same loop. -/
theorem PerfectNest.last_eq {first last last' : OpId} (hlast : f.HoldsNoLoop last)
    (hlast' : f.HoldsNoLoop last') : ∀ {band band' : Band}, f.PerfectNest (first :: band) →
      f.PerfectNest (first :: band') → (first :: band).getLast? = some last →
      (first :: band').getLast? = some last' → last = last'
  | [], [], _, _, hl, hl' => Option.some.inj (hl.symm.trans hl')
  | [], second :: _, _, h', hl, _ => by
    have heq : first = last := by simpa using hl
    subst heq
    refine absurd (h'.isLoop second (by simp)) (hlast second ?_)
    rw [h'.bodyOf_head]
    exact List.mem_cons_self
  | second :: _, [], h, _, _, hl' => by
    have heq : first = last' := by simpa using hl'
    subst heq
    refine absurd (h.isLoop second (by simp)) (hlast' second ?_)
    rw [h.bodyOf_head]
    exact List.mem_cons_self
  | second :: band, second' :: band', h, h', hl, hl' => by
    have heq : [second] = [second'] := h.bodyOf_head.symm.trans h'.bodyOf_head
    cases heq
    rw [List.getLast?_cons_cons] at hl hl'
    exact last_eq hlast hlast' h.tail h'.tail hl hl'

/-- **Perfect nests that end at different innermost loops have no loop in common.** -/
theorem PerfectNest.disjoint {band band' : Band} {last last' : OpId} (h : f.PerfectNest band)
    (h' : f.PerfectNest band') (hl : band.getLast? = some last) (hl' : band'.getLast? = some last')
    (hlast : f.HoldsNoLoop last) (hlast' : f.HoldsNoLoop last') (hne : last ≠ last') :
    band.Disjoint band' := by
  intro id hid hid'
  obtain ⟨outer, inner, rfl⟩ := List.append_of_mem hid
  obtain ⟨outer', inner', rfl⟩ := List.append_of_mem hid'
  rw [List.getLast?_append_cons] at hl hl'
  exact hne (PerfectNest.last_eq hlast hlast' h.of_append h'.of_append hl hl')

/-- The nest goes no deeper: the last loop of the band does not hold a loop and nothing else. -/
def EndsNest (f : Func) (band : Band) : Prop :=
  ∀ last, band.getLast? = some last → ∀ inner, f.bodyOf last = [inner] → ¬ f.IsLoop inner

theorem endsNest_singleton {id : OpId} (h : ∀ inner, f.bodyOf id = [inner] → ¬ f.IsLoop inner) :
    f.EndsNest [id] := by
  intro last hlast
  rw [List.getLast?_singleton, Option.some.injEq] at hlast
  exact hlast ▸ h

theorem EndsNest.of_append {outer inner : Band} (h : f.EndsNest (outer ++ inner)) :
    f.EndsNest inner := by
  intro last hlast
  cases inner with
  | nil => cases hlast
  | cons first inner => exact h last (by rwa [List.getLast?_append_cons])

/-- **From a loop on, a perfect nest is the beginning of the one that goes to the end.** -/
theorem PerfectNest.prefix_of_endsNest {first : OpId} : ∀ {band band' : Band},
    f.PerfectNest (first :: band) → f.PerfectNest (first :: band') → f.EndsNest (first :: band') →
      band <+: band'
  | [], band', _, _, _ => List.nil_prefix
  | second :: band, [], h, _, hends =>
    absurd (h.isLoop second (by simp)) (hends first rfl second h.bodyOf_head)
  | second :: band, second' :: band', h, h', hends => by
    have heq : [second] = [second'] := h.bodyOf_head.symm.trans h'.bodyOf_head
    cases heq
    rw [List.prefix_cons_inj]
    exact prefix_of_endsNest h.tail h'.tail (@EndsNest.of_append f [first] (second :: band') hends)

/-! ## 2. Bands of a node -/

theorem isLoop_of_kind {id : OpId} {op : Op} (hop : f.ops[id]? = some op)
    (h : op.kind.isLoop = true) : f.IsLoop id := by
  rw [Kind.isLoop, Option.isSome_iff_exists] at h
  obtain ⟨l, hl⟩ := h
  exact ⟨l, (kindOf_eq hop).trans (congrArg some (Kind.eq_loop_of_loop? hl))⟩

theorem IsLoop.kind {id : OpId} {op : Op} (h : f.IsLoop id) (hop : f.ops[id]? = some op) :
    ∃ l, op.kind = .loop l := by
  obtain ⟨l, hl⟩ := h
  rw [kindOf_eq hop] at hl
  exact ⟨l, Option.some.inj hl⟩

/-- A loop and the operations of its body stand in the same node. -/
theorem inNode_iff_of_isParent {node parent id : OpId} (hp : f.parentOf id = some parent)
    (hloop : f.IsLoop parent) : f.InNode node id ↔ f.InNode node parent := by
  obtain ⟨l, hl⟩ := hloop
  obtain ⟨op, hop, hkind⟩ := Option.map_eq_some_iff.mp hl
  have hnode : op.kind.isNode = false := by rw [hkind]; rfl
  rw [InNode, InNode, hp, parentOf_eq hop]
  constructor
  · intro h
    cases h with
    | here hop' hnode' =>
      rw [hop] at hop'
      cases hop'
      rw [hnode] at hnode'
      cases hnode'
    | up hop' _ h =>
      rw [hop] at hop'
      cases hop'
      exact h
  · exact fun h => .up hop hnode h

/-- `f.OwnBand node band`: a perfect nest of loops that stand in the node. -/
structure OwnBand (f : Func) (node : OpId) (band : Band) : Prop extends f.PerfectNest band where
  inNode : ∀ id ∈ band, f.InNode node id

theorem OwnBand.nil (f : Func) (node : OpId) : f.OwnBand node [] where
  toPerfectNest := .nil f
  inNode := fun _ hid => by cases hid

theorem OwnBand.of_append {node : OpId} {outer inner : Band} (h : f.OwnBand node (outer ++ inner)) :
    f.OwnBand node inner where
  toPerfectNest := h.toPerfectNest.of_append
  inNode := fun id hid => h.inNode id (List.mem_append_right outer hid)

/-- `f.InnerBand node band`: a band of the node that goes as deep as its nest. -/
structure InnerBand (f : Func) (node : OpId) (band : Band) : Prop extends f.OwnBand node band where
  endsNest : f.EndsNest band

theorem InnerBand.of_append {node : OpId} {outer inner : Band}
    (h : f.InnerBand node (outer ++ inner)) : f.InnerBand node inner where
  toOwnBand := h.toOwnBand.of_append
  endsNest := h.endsNest.of_append

/-- Where there is one operation only, it is the one that is known to be there. -/
theorem bodyOf_eq_singleton {parent id : OpId} {op : Op} (hop : f.ops[parent]? = some op)
    (hmem : id ∈ f.bodyOf parent) (hlen : op.body.length = 1) : f.bodyOf parent = [id] := by
  rw [bodyOf_eq hop] at hmem ⊢
  obtain ⟨x, hx⟩ := List.length_eq_one_iff.mp hlen
  rw [hx, List.mem_singleton] at hmem
  rw [hx, hmem]

/-- Extending a band outwards keeps it a band of its node, with the same innermost loop. -/
theorem extendOutward_spec (hn : f.Nested) {node : OpId} : ∀ {levels : Nat} {first : OpId}
    {inner band : Band}, f.OwnBand node (first :: inner) →
      f.extendOutward levels first (first :: inner) = .ok band →
      f.OwnBand node band ∧ band.getLast? = (first :: inner).getLast?
  | 0, _, _, _, _, h => by cases h
  | levels + 1, first, inner, band, hown, h => by
    obtain ⟨op, hop, h⟩ := Checked.bind_eq_ok.mp h
    rw [op_eq_ok_iff] at hop
    cases hp : op.parent with
    | none =>
      simp only [hp, Checked.pure_eq_ok, Except.ok.injEq] at h
      exact h ▸ ⟨hown, rfl⟩
    | some parent =>
      simp only [hp] at h
      obtain ⟨pop, hpop, h⟩ := Checked.bind_eq_ok.mp h
      rw [op_eq_ok_iff] at hpop
      split at h
      · rename_i htest
        simp only [Bool.and_eq_true, beq_iff_eq] at htest
        have hparent : f.parentOf first = some parent := (parentOf_eq hop).trans hp
        have hfirst := hown.reaches first List.mem_cons_self
        obtain ⟨hreach, hmem⟩ := hn.holds_of_isParent hfirst hparent
        have hloop : f.IsLoop parent := isLoop_of_kind hpop htest.1
        have hbody : f.bodyOf parent = [first] := bodyOf_eq_singleton hpop hmem htest.2
        have hown' : f.OwnBand node (parent :: first :: inner) :=
          { toPerfectNest := hown.toPerfectNest.cons hreach hloop hbody
            inNode := List.forall_mem_cons.mpr
              ⟨(inNode_iff_of_isParent hparent hloop).mp (hown.inNode first List.mem_cons_self),
                hown.inNode⟩ }
        obtain ⟨hband, hlast⟩ := extendOutward_spec hn hown' h
        exact ⟨hband, by rw [hlast, List.getLast?_cons_cons]⟩
      · cases h
        exact ⟨hown, rfl⟩

theorem holdsNoLoop_of_isInnermost {id : OpId} {op : Op} (hop : f.ops[id]? = some op)
    (h : f.isInnermost op = .ok true) : f.HoldsNoLoop id := by
  intro child hchild hloop
  rw [bodyOf_eq hop] at hchild
  obtain ⟨kind, hkind, hnot⟩ := Checked.bind_eq_ok.mp (Checked.allM_eq_true.mp h child hchild)
  obtain ⟨cop, hcop, heq⟩ := Checked.bind_eq_ok.mp hkind
  cases heq
  obtain ⟨l, hl⟩ := hloop.kind (op_eq_ok_iff.mp hcop)
  rw [hl] at hnot
  cases hnot

theorem HoldsNoLoop.endsNest {band : Band} {last : OpId} (h : f.HoldsNoLoop last)
    (hlast : band.getLast? = some last) : f.EndsNest band := by
  intro last' hlast' inner hbody
  rw [hlast] at hlast'
  cases hlast'
  exact h inner (by rw [hbody]; exact List.mem_cons_self)

/-- **The bands of a node**: perfect nests of its own loops, without a loop in common. -/
theorem nodeBands_spec (hn : f.Nested) {node : OpId} {bands : List Band} (hnode : f.Reaches node)
    (h : f.nodeBands node = .ok bands) :
    (∀ band ∈ bands, f.InnerBand node band) ∧ bands.Pairwise List.Disjoint := by
  obtain ⟨es, hes, h⟩ := Checked.bind_eq_ok.mp h
  obtain ⟨own, hown, h⟩ := Checked.bind_eq_ok.mp h
  obtain ⟨innermost, hinner, h⟩ := Checked.bind_eq_ok.mp h
  have hbands := Checked.mapM_eq_ok.mp h
  have hsub : innermost.Sublist es :=
    (Checked.filterM_sublist hinner).trans
      ((Checked.filterM_sublist hown).trans List.filter_sublist)
  have hnd : innermost.Nodup := (hsub.map Prod.fst).nodup (hn.nodup_nest hnode hes) |>.of_map _
  -- What is known of each band, from the loop that it ends at.
  have hband : ∀ e ∈ innermost, ∀ band, f.bandEndingAt e.1 = .ok band →
      f.OwnBand node band ∧ band.getLast? = some e.1 ∧ f.HoldsNoLoop e.1 := by
    intro e he band hb
    obtain ⟨heown, hetest⟩ := (Checked.mem_filterM hinner).mp he
    obtain ⟨heloop, hearound⟩ := (Checked.mem_filterM hown).mp heown
    obtain ⟨hees, hloop⟩ := List.mem_filter.mp heloop
    obtain ⟨hop, hreach, -⟩ := hn.of_mem_nest hnode hes e hees
    obtain ⟨around, haround, heq⟩ := Checked.bind_eq_ok.mp hearound
    simp only [Checked.pure_eq_ok, Except.ok.injEq, beq_iff_eq] at heq
    subst heq
    have hown : f.OwnBand node [e.1] :=
      { toPerfectNest := .singleton hreach (isLoop_of_kind hop hloop)
        inNode := fun x hx => by
          rw [List.mem_singleton] at hx
          exact hx ▸ inNode_of_nodeAround haround }
    obtain ⟨hband, hlast⟩ := extendOutward_spec hn hown hb
    exact ⟨hband, hlast, holdsNoLoop_of_isInnermost hop hetest⟩
  constructor
  · intro band hmem
    obtain ⟨e, he, hb⟩ := Checked.forall₂_left hbands hmem
    obtain ⟨hown, hlast, hnone⟩ := hband e he band hb
    exact ⟨hown, hnone.endsNest hlast⟩
  · refine Checked.pairwise_of_forall₂ hbands hnd fun e e' band band' he he' hne hb hb' => ?_
    obtain ⟨hown, hlast, hnone⟩ := hband e he band hb
    obtain ⟨hown', hlast', hnone'⟩ := hband e' he' band' hb'
    refine hown.toPerfectNest.disjoint hown'.toPerfectNest hlast hlast' hnone hnone' fun heq => ?_
    exact hne (List.inj_on_of_nodup_map ((hsub.map Prod.fst).nodup (hn.nodup_nest hnode hes))
      he he' heq)

/-- The slot holds a node. -/
def IsNode (f : Func) (id : OpId) : Prop := ∃ op, f.ops[id]? = some op ∧ op.kind.isNode = true

/-- A node around an operation is strictly above it. -/
theorem InNode.transGen {node x : OpId} (h : f.InNode node x) :
    Relation.TransGen f.IsParent node x := by
  rw [InNode] at h
  generalize hstart : f.parentOf x = start at h
  induction h generalizing x with
  | here => exact .single hstart
  | up hop _ _ ih => exact (ih (parentOf_eq hop)).tail hstart

theorem InNode.above {node x : OpId} (h : f.InNode node x) : f.Above node x ∧ f.IsNode node := by
  obtain ⟨name, hk⟩ := NodeOver.isNode h
  obtain ⟨op, hop, hkind⟩ := Option.map_eq_some_iff.mp hk
  exact ⟨h.transGen.to_reflTransGen, op, hop, by rw [hkind]; rfl⟩

theorem IsNode.ne_of_isLoop {node x : OpId} (hnode : f.IsNode node) (hloop : f.IsLoop x) :
    node ≠ x := by
  rintro rfl
  obtain ⟨op, hop, hkind⟩ := hnode
  obtain ⟨l, hl⟩ := hloop.kind hop
  rw [hl] at hkind
  cases hkind

/-- Above an operation with a node above it there is a nearest one. -/
theorem Nested.exists_nodeOver (h : f.Nested) {node x : OpId} (hx : f.Reaches x)
    (hup : f.Above node x) (hnode : f.IsNode node) : ∃ nearest, f.NodeOver (some x) nearest := by
  induction hup with
  | refl =>
    obtain ⟨op, hop, hkind⟩ := hnode
    exact ⟨node, .here hop hkind⟩
  | @tail owner x _ hparent ih =>
    obtain ⟨op, hop, -⟩ := h.live x hx
    cases hkind : op.kind.isNode with
    | true => exact ⟨x, .here hop hkind⟩
    | false =>
      obtain ⟨nearest, hover⟩ := ih (h.reaches_of_above (.single hparent) hx)
      have hp : op.parent = some owner := (parentOf_eq hop).symm.trans hparent
      exact ⟨nearest, .up hop hkind (hp ▸ hover)⟩

theorem Nested.exists_inNode (h : f.Nested) {node x : OpId} (hx : f.Reaches x)
    (hup : f.Above node x) (hne : node ≠ x) (hnode : f.IsNode node) :
    ∃ nearest, f.InNode nearest x := by
  rcases above_iff.mp hup with heq | ⟨parent, hp, hup⟩
  · exact absurd heq hne
  · obtain ⟨nearest, hover⟩ := h.exists_nodeOver (h.holds_of_isParent hx hp).1 hup hnode
    exact ⟨nearest, by rwa [InNode, hp]⟩

theorem extendInward_spec (hn : f.Nested) {node : OpId} : ∀ {levels : Nat} {current : OpId}
    {band : Band}, f.OwnBand node [current] → f.extendInward levels current = .ok band →
      f.InnerBand node band ∧ band.head? = some current
  | 0, _, _, _, h => by cases h
  | levels + 1, current, band, hown, h => by
    obtain ⟨op, hop, h⟩ := Checked.bind_eq_ok.mp h
    rw [op_eq_ok_iff] at hop
    split at h
    · rename_i only hbody
      obtain ⟨kind, hkind, h⟩ := Checked.bind_eq_ok.mp h
      obtain ⟨oop, hoop, heq⟩ := Checked.bind_eq_ok.mp hkind
      cases heq
      rw [op_eq_ok_iff] at hoop
      split at h
      · rename_i hisLoop
        obtain ⟨inner, hinner, h⟩ := Checked.bind_eq_ok.mp h
        cases h
        have hcurrent := hown.reaches current List.mem_cons_self
        have hbody : f.bodyOf current = [only] := (bodyOf_eq hop).trans hbody
        have hmem : only ∈ f.bodyOf current := by rw [hbody]; exact List.mem_cons_self
        have hparent : f.parentOf only = some current :=
          hn.parentOf_nested current hcurrent only hmem
        have hloop := hown.isLoop current List.mem_cons_self
        have hown' : f.OwnBand node [only] :=
          { toPerfectNest := .singleton (.nested hcurrent hmem) (isLoop_of_kind hoop hisLoop)
            inNode := fun x hx => by
              rw [List.mem_singleton] at hx
              rw [hx, inNode_iff_of_isParent hparent hloop]
              exact hown.inNode current List.mem_cons_self }
        obtain ⟨hband, hhead⟩ := extendInward_spec hn hown' hinner
        cases inner with
        | nil => cases hhead
        | cons first inner =>
          cases hhead
          refine ⟨⟨⟨hband.toPerfectNest.cons hcurrent hloop hbody, ?_⟩, ?_⟩, rfl⟩
          · exact List.forall_mem_cons.mpr ⟨hown.inNode current List.mem_cons_self, hband.inNode⟩
          · intro last hlast
            rw [List.getLast?_cons_cons] at hlast
            exact hband.endsNest last hlast
      · rename_i hnoLoop
        cases h
        refine ⟨⟨hown, endsNest_singleton fun inner hinner hloop => hnoLoop ?_⟩, rfl⟩
        rw [bodyOf_eq hop, hbody] at hinner
        cases hinner
        obtain ⟨l, hl⟩ := hloop.kind hoop
        rw [hl]
        rfl
    · rename_i hnotOne
      cases h
      exact ⟨⟨hown, endsNest_singleton fun inner hinner _ =>
        hnotOne inner ((bodyOf_eq hop).symm.trans hinner)⟩, rfl⟩

/-- The primary band is empty, or follows a loop of the node's body inwards. -/
theorem primaryBand_eq_ok {node : OpId} {band : Band} (h : f.primaryBand node = .ok band) :
    band = [] ∨ ∃ first ∈ f.bodyOf node,
      f.IsLoop first ∧ f.extendInward f.depthBound first = .ok band := by
  obtain ⟨op, hop, h⟩ := Checked.bind_eq_ok.mp h
  rw [op_eq_ok_iff] at hop
  obtain ⟨first?, hfirst, h⟩ := Checked.bind_eq_ok.mp h
  cases first? with
  | none =>
    cases h
    exact .inl rfl
  | some first =>
    obtain ⟨hmem, htest⟩ := Checked.of_findM?_eq_some hfirst
    obtain ⟨kind, hkind, htest⟩ := Checked.bind_eq_ok.mp htest
    obtain ⟨fop, hfop, heq⟩ := Checked.bind_eq_ok.mp hkind
    cases heq
    simp only [Checked.pure_eq_ok, Except.ok.injEq] at htest
    rw [op_eq_ok_iff] at hfop
    exact .inr ⟨first, bodyOf_eq hop ▸ hmem, isLoop_of_kind hfop htest, h⟩

/-- **The primary band of a node** is a perfect nest of its own loops, and starts in its body. -/
theorem primaryBand_of_body (hn : f.Nested) {node : OpId} {band : Band} (hreach : f.Reaches node)
    (hnode : f.IsNode node) (h : f.primaryBand node = .ok band) :
    f.InnerBand node band ∧ ∀ first, band.head? = some first → first ∈ f.bodyOf node := by
  rcases primaryBand_eq_ok h with rfl | ⟨first, hmem, hloop, h⟩
  · exact ⟨⟨.nil f node, fun last hlast => by cases hlast⟩, fun first hfirst => by cases hfirst⟩
  · have hown : f.OwnBand node [first] :=
      { toPerfectNest := .singleton (.nested hreach hmem) hloop
        inNode := fun x hx => by
          rw [List.mem_singleton] at hx
          rw [hx, InNode, hn.parentOf_nested node hreach first hmem]
          obtain ⟨nop, hnop, hisNode⟩ := hnode
          exact .here hnop hisNode }
    obtain ⟨hband, hhead⟩ := extendInward_spec hn hown h
    refine ⟨hband, fun first' hfirst' => ?_⟩
    rw [hhead] at hfirst'
    cases hfirst'
    exact hmem

theorem primaryBand_spec (hn : f.Nested) {node : OpId} {band : Band} (hreach : f.Reaches node)
    (hnode : f.IsNode node) (h : f.primaryBand node = .ok band) : f.InnerBand node band :=
  (primaryBand_of_body hn hreach hnode h).1

/-! ## 3. Point loops -/

/-- The tile loops come before the point loops, and together they are the band. -/
theorem append_of_splitFrom : ∀ {band tile point tile' point' : Band},
    f.splitFrom tile point band = .ok (some (tile', point')) →
      tile' ++ point' = tile ++ point ++ band
  | [], tile, point, _, _, h => by
    cases h
    simp
  | id :: band, tile, point, tile', point', h => by
    obtain ⟨l?, hl, h⟩ := Checked.bind_eq_ok.mp h
    cases l? with
    | none => cases h
    | some l =>
      simp only at h
      split at h
      · split at h
        · rw [append_of_splitFrom h]
          simp
        · cases h
      · split at h
        · rename_i hempty
          rw [append_of_splitFrom h, List.isEmpty_iff.mp hempty]
          simp
        · cases h

theorem append_of_splitBand {band tile point : Band}
    (h : f.splitBand band = .ok (some (tile, point))) : tile ++ point = band := by
  simpa using append_of_splitFrom h

/-! ## 4. Trip counts -/

/-- The trip counts of a band, read off the table. -/
def tripsOf (f : Func) (band : Band) : List (Option Nat) :=
  band.map fun id => ((f.kindOf id).bind Kind.loop?).bind Loop.tripCount

@[simp] theorem length_tripsOf (f : Func) (band : Band) :
    (f.tripsOf band).length = band.length := by
  simp [tripsOf]

theorem bandTrips_eq_ok : ∀ {band : Band} {trips : List (Option Nat)},
    f.bandTrips band = .ok trips → trips = f.tripsOf band
  | [], _, h => by
    cases h
    rfl
  | id :: band, trips, h => by
    rw [bandTrips, List.mapM_cons] at h
    obtain ⟨trip, htrip, h⟩ := Checked.bind_eq_ok.mp h
    obtain ⟨l?, hl, htrip⟩ := Checked.bind_eq_ok.mp htrip
    obtain ⟨k, hk, rfl⟩ := loop?_eq_ok.mp hl
    obtain ⟨rest, hrest, h⟩ := Checked.bind_eq_ok.mp h
    cases h
    cases htrip
    rw [bandTrips_eq_ok hrest]
    simp [tripsOf, hk]

end Func
end Dataflow
