/-
# Bands partition the innermost nests

Bands are discovered in two ways.  The search upwards starts at a loop that holds neither a loop nor
a schedule and goes on while the nest stays perfect; the search downwards starts at the first loop
of a node's body.  They stop for different reasons, and a nest may hold nodes, schedules and several
loops at any level.

Seen from its last loop, a band of a node is the longest perfect nest that ends there
(`Func.NodeBand`), so two bands with a loop in common have the same last loop.  The last loops are
those of the node's own loops that hold neither a loop nor a schedule, each once.  Hence no loop is
in two bands, whichever nodes they belong to, and the search downwards finds one of the bands
whenever it ends at such a loop (`Func.nodeBands_partition`).
-/
import Dataflow.Proofs.AgreementRuns
import Dataflow.Proofs.TilingCandidates

namespace Dataflow
namespace Func

variable {f : Func}

/-! ## 1. One band -/

/-- `f.NodeBand node band`: loops of the node, each but the last with the next as its whole body.
Neither a loop nor a schedule stands directly in the last, and no loop holds the first and nothing
else. -/
structure NodeBand (f : Func) (node : OpId) (band : Band) : Prop where
  isLoop : ∀ x ∈ band, f.IsLoop x
  chain : band.IsChain fun outer inner => f.bodyOf outer = [inner]
  own : ∀ x ∈ band, f.nodeAround x = .ok (some node)
  last : ∃ x, band.getLast? = some x ∧ f.Innermost x
  first : ∀ x parent, band.head? = some x → f.parentOf x = some parent → f.IsLoop parent →
    (f.bodyOf parent).length ≠ 1

/-- A loop that holds one operation holds nothing but that. -/
theorem StartsNest.length_ne_one (h : f.Nested) {band : Band} (hstarts : f.StartsNest band)
    {x parent : OpId} (hx : f.Reaches x) (hhead : band.head? = some x)
    (hparent : f.parentOf x = some parent) (hloop : f.IsLoop parent) :
    (f.bodyOf parent).length ≠ 1 := by
  intro hlen
  obtain ⟨hreach, hmem⟩ := h.holds_of_isParent hx hparent
  obtain ⟨op, hop, -⟩ := h.live parent hreach
  rw [bodyOf_eq hop] at hlen
  exact hstarts x hhead parent hreach hloop (bodyOf_eq_singleton hop hmem hlen)

/-- **A perfect nest that goes no further out and ends at an innermost loop is a band of the node
that this loop stands in.** -/
theorem PerfectNest.nodeBand (h : f.Nested) {node x : OpId} {band : Band}
    (hnest : f.PerfectNest band) (hstarts : f.StartsNest band) (hlast : band.getLast? = some x)
    (hin : ∀ y ∈ band, f.InNode node y) (hinner : f.Innermost x) : f.NodeBand node band where
  isLoop := hnest.isLoop
  chain := hnest.chain
  own := fun y hy => (h.nodeAround_eq_some_iff (hnest.reaches y hy)).mpr (hin y hy)
  last := ⟨x, hlast, hinner⟩
  first := fun y _ hhead hparent hloop =>
    hstarts.length_ne_one h (hnest.reaches y (List.mem_of_mem_head? hhead)) hhead hparent hloop

/-- The loops of a perfect nest all stand in the node that its last one stands in. -/
theorem PerfectNest.inNode (h : f.Nested) {node x : OpId} : ∀ {band : Band}, f.PerfectNest band →
    band.getLast? = some x → f.InNode node x → ∀ y ∈ band, f.InNode node y
  | [], _, hlast, _, _, _ => by cases hlast
  | [first], _, hlast, hin, y, hy => by
    rw [List.getLast?_singleton, Option.some.injEq] at hlast
    rw [List.mem_singleton.mp hy, hlast]
    exact hin
  | first :: second :: band, hnest, hlast, hin, y, hy => by
    rw [List.getLast?_cons_cons] at hlast
    have hinner : ∀ y ∈ second :: band, f.InNode node y := hnest.tail.inNode h hlast hin
    rcases List.mem_cons.mp hy with rfl | hy
    · exact (inNode_iff_of_isParent (hnest.isParent_head h)
        (hnest.isLoop _ List.mem_cons_self)).mp (hinner second List.mem_cons_self)
    · exact hinner y hy

/-- The band that ends at an innermost loop of a node. -/
theorem Nested.bandEndingAt_spec (h : f.Nested) {node x : OpId} {band : Band} (hx : f.Reaches x)
    (hloop : f.IsLoop x) (hin : f.InNode node x) (hinner : f.Innermost x)
    (hband : f.bandEndingAt x = .ok band) :
    f.NodeBand node band ∧ band.getLast? = some x := by
  obtain ⟨band', hband', hnest, hstarts, hlast⟩ := h.bandEndingAt_isOk hx hloop
  rw [hband] at hband'
  cases hband'
  exact ⟨hnest.nodeBand h hstarts hlast (hnest.inNode h hlast hin) hinner, hlast⟩

/-! ## 2. The primary band -/

/-- The primary band goes no further out: its first loop stands in a node. -/
theorem Nested.primaryBand_startsNest (h : f.Nested) {node : OpId} {band : Band}
    (hreach : f.Reaches node) (hnode : f.IsNode node) (hband : f.primaryBand node = .ok band) :
    f.StartsNest band := by
  intro first hfirst outer houter hloop hbody
  have hmem := (primaryBand_of_body h hreach hnode hband).2 first hfirst
  have hparent := h.parentOf_nested outer houter first (by simp [hbody])
  rw [h.parentOf_nested node hreach first hmem, Option.some.injEq] at hparent
  subst hparent
  obtain ⟨op, hop, hkind⟩ := hnode
  obtain ⟨l, hl⟩ := hloop.kind hop
  simp [hl, Kind.isNode] at hkind

/-- **Where the search downwards ends at an innermost loop, the search upwards from there leads
back.** -/
theorem Nested.bandEndingAt_primaryBand (h : f.Nested) {node x : OpId} {band : Band}
    (hreach : f.Reaches node) (hnode : f.IsNode node) (hband : f.primaryBand node = .ok band)
    (hlast : band.getLast? = some x) : f.bandEndingAt x = .ok band := by
  have hprimary := primaryBand_spec h hreach hnode hband
  have hmem : x ∈ band := List.mem_of_getLast? hlast
  obtain ⟨band', hband', hnest, hstarts, hlast'⟩ :=
    h.bandEndingAt_isOk (hprimary.reaches x hmem) (hprimary.isLoop x hmem)
  rw [hband', hnest.eq_of_last h hprimary.toPerfectNest hstarts
    (h.primaryBand_startsNest hreach hnode hband) hlast' hlast]

/-! ## 3. All bands -/

/-- The bands of different nodes have no loop in common. -/
theorem OwnBand.disjoint {node node' : OpId} {band band' : Band} (hne : node ≠ node')
    (hband : f.OwnBand node band) (hband' : f.OwnBand node' band') : band.Disjoint band' :=
  fun x hx hx' => hne ((hband.inNode x hx).unique (hband'.inNode x hx'))

/-- **No loop is in two bands, or twice in one.** -/
theorem Nested.nodup_nodeBands (h : f.Nested) {nodes : List OpId} {parts : List (List Band)}
    (hnodes : f.nodes = .ok nodes) (hparts : nodes.mapM f.nodeBands = .ok parts) :
    parts.flatten.flatten.Nodup := by
  have hreach : ∀ node ∈ nodes, f.Reaches node := fun node hnode =>
    ((h.mem_findAll hnodes).mp hnode).1
  have hdistinct : nodes.Nodup := by
    obtain ⟨nodes', hnodes', hdistinct⟩ := h.findAll_isOk (·.kind.isNode)
    rw [show f.findAll (·.kind.isNode) = .ok nodes from hnodes] at hnodes'
    cases hnodes'
    exact hdistinct
  have hforall := Checked.mapM_eq_ok.mp hparts
  rw [List.nodup_flatten, List.pairwise_flatten]
  refine ⟨fun band hband => ?_, fun bands hbands => ?_, ?_⟩
  · obtain ⟨bands, hbands, hband⟩ := List.mem_flatten.mp hband
    obtain ⟨node, hnode, hbands⟩ := Checked.forall₂_left hforall hbands
    exact ((nodeBands_spec h (hreach node hnode) hbands).1 band hband).toPerfectNest.nodup h
  · obtain ⟨node, hnode, hbands⟩ := Checked.forall₂_left hforall hbands
    exact (nodeBands_spec h (hreach node hnode) hbands).2
  · refine Checked.pairwise_of_forall₂ hforall hdistinct
      fun node node' bands bands' hnode hnode' hne hbands hbands' band hband band' hband' => ?_
    exact OwnBand.disjoint hne
      ((nodeBands_spec h (hreach node hnode) hbands).1 band hband).toOwnBand
      ((nodeBands_spec h (hreach node' hnode') hbands').1 band' hband').toOwnBand

/-- **Bands partition the innermost nests.**  The bands of all nodes can be told, and no loop occurs
in two of them or twice in one.  Of each node: its bands are chains of its own loops, as long as can
be; they end at its loops that hold neither a loop nor a schedule directly, one band at each, in the
order of the walk; and its primary band is one of them if it ends at such a loop. -/
theorem nodeBands_partition {f : Func} (hf : f.verify = .ok ()) :
    ∃ nodes parts, f.nodes = .ok nodes ∧ nodes.mapM f.nodeBands = .ok parts
      ∧ parts.flatten.flatten.Nodup
      ∧ ∀ node ∈ nodes, ∃ (bands : List Band) (ends order : List OpId) (primary : Band),
          (f.nodeBands node = .ok bands ∧ f.walkFrom node = .ok order
            ∧ f.primaryBand node = .ok primary)
          ∧ (∀ band ∈ bands, f.NodeBand node band)
          ∧ (List.Forall₂ (fun x band => band.getLast? = some x) ends bands
            ∧ ends.Sublist order ∧ ends.Nodup
            ∧ ∀ x, x ∈ ends ↔ f.Reaches x ∧ f.IsLoop x ∧ f.nodeAround x = .ok (some node)
                ∧ f.Innermost x)
          ∧ ∀ x, primary.getLast? = some x → f.Innermost x → primary ∈ bands := by
  have h := (verify_eq_ok_iff_tidy.mp hf).toNested
  obtain ⟨nodes, parts, hnodes, hparts, -⟩ := h.exists_bands
  refine ⟨nodes, parts, hnodes, hparts, h.nodup_nodeBands hnodes hparts, fun node hnode => ?_⟩
  obtain ⟨hreach, hisNode⟩ : f.Reaches node ∧ f.IsNode node := (h.mem_findAll hnodes).mp hnode
  obtain ⟨order, horder⟩ := h.walkFrom_isOk hreach
  obtain ⟨bands, ends, hbands, hsub, hends, hforall⟩ := h.nodeBands_ends hreach horder
  obtain ⟨primary, hprimary⟩ := h.primaryBand_isOk hreach
  have hdistinct : order.Nodup := by
    obtain ⟨es, hes, heq⟩ := Checked.bind_eq_ok.mp horder
    cases heq
    exact h.nodup_nest hreach hes
  have hspec : ∀ {x band}, x ∈ ends → f.bandEndingAt x = .ok band →
      f.NodeBand node band ∧ band.getLast? = some x := by
    intro x band hx hband
    obtain ⟨hxreach, hloop, hin, hinner⟩ := (hends x).mp hx
    exact h.bandEndingAt_spec hxreach hloop hin hinner hband
  refine ⟨bands, ends, order, primary, ⟨hbands, horder, hprimary⟩, fun band hband => ?_,
    ⟨?_, hsub, hdistinct.sublist hsub, fun x => ?_⟩, fun x hlast hinner => ?_⟩
  · obtain ⟨x, hx, hband⟩ := Checked.forall₂_left hforall hband
    exact (hspec hx hband).1
  · have hboth := (List.forall₂_and_left _ _).mpr ⟨fun x hx => hx, hforall⟩
    exact hboth.imp fun x band hband => (hspec hband.1 hband.2).2
  · rw [hends]
    refine and_congr_right fun hxreach => and_congr_right fun _ => and_congr_left' ?_
    exact (h.nodeAround_eq_some_iff hxreach).symm
  · have hown := (primaryBand_spec h hreach hisNode hprimary)
    have hmem : x ∈ primary := List.mem_of_getLast? hlast
    have hx : x ∈ ends := (hends x).mpr
      ⟨hown.reaches x hmem, hown.isLoop x hmem, hown.inNode x hmem, hinner⟩
    obtain ⟨band, hband, hending⟩ := Checked.forall₂_right hforall hx
    rw [h.bandEndingAt_primaryBand hreach hisNode hprimary hlast, Except.ok.injEq] at hending
    exact hending ▸ hband

/-- A node whose loop holds a compute, a nest of two loops, and a schedule with a node of two
loops. -/
def splitNest : Func where
  name := "f"
  arguments := []
  body := [0]
  ops := #[
    { fresh none 0 (.node "outer") with body := [1] },
    { fresh (some 0) 1 (.loop (.plain "i" 0 (some 4) 1)) with body := [2, 3, 5] },
    fresh (some 1) 2 (.compute ⟨"pre", [], [], []⟩),
    { fresh (some 1) 3 (.loop (.plain "j" 0 (some 4) 1)) with body := [4] },
    fresh (some 3) 4 (.loop (.plain "k" 0 (some 4) 1)),
    { fresh (some 1) 5 (.schedule { name := "inner", increase := none, decrease := none }) with
      body := [6] },
    { fresh (some 5) 6 (.node "task") with body := [7, 9] },
    { fresh (some 6) 7 (.loop (.plain "x" 0 (some 4) 1)) with body := [8] },
    fresh (some 7) 8 (.compute ⟨"s", [], [], []⟩),
    fresh (some 6) 9 (.loop (.plain "y" 0 (some 4) 1))]
  values := #[]

/-- The outer loop is in no band, although it is the primary band of its node; the loops of the
inner node are bands of that node. -/
theorem nodeBands_splitNest : splitNest.verify = .ok ()
    ∧ [[[3, 4]], [[7], [9]]].flatten.flatten.Nodup
    ∧ (splitNest.nodeBands 0 = .ok [[3, 4]] ∧ splitNest.primaryBand 0 = .ok [1]
      ∧ splitNest.NodeBand 0 [3, 4])
    ∧ splitNest.nodeBands 6 = .ok [[7], [9]] ∧ splitNest.primaryBand 6 = .ok [7]
    ∧ splitNest.NodeBand 6 [7] ∧ splitNest.NodeBand 6 [9] := by
  have hverify : splitNest.verify = .ok () := by decide
  have hlisted : splitNest.nodes = .ok [0, 6] := rfl
  have hbands : splitNest.nodeBands 0 = .ok [[3, 4]] ∧ splitNest.nodeBands 6 = .ok [[7], [9]] :=
    ⟨rfl, rfl⟩
  have hall : [0, 6].mapM splitNest.nodeBands = .ok [[[3, 4]], [[7], [9]]] := rfl
  obtain ⟨nodes, parts, hnodes, hparts, hnodup, hnode⟩ := nodeBands_partition hverify
  cases hlisted.symm.trans hnodes
  cases hall.symm.trans hparts
  obtain ⟨_, _, _, _, ⟨hbands₀, -, -⟩, hband₀, -⟩ := hnode 0 (by simp)
  obtain ⟨_, _, _, _, ⟨hbands₆, -, -⟩, hband₆, -⟩ := hnode 6 (by simp)
  cases hbands.1.symm.trans hbands₀
  cases hbands.2.symm.trans hbands₆
  exact ⟨hverify, hnodup, ⟨hbands.1, rfl, hband₀ _ (by simp)⟩, hbands.2, rfl, hband₆ _ (by simp),
    hband₆ _ (by simp)⟩

end Func
end Dataflow
