/-
# Which bands the tiling pass tries

The pass goes through the nodes, takes every loop of a node that holds neither a loop nor a
schedule, extends it outwards to a band, and tries the bands that may be tiled.  Seen from the band:
it is found exactly if it is a perfect nest that goes no further out, whose last loop holds neither
a loop nor a schedule and stands in a node (`Func.Nested.exists_bands`).  Two bands that are found
are the same or have no loop in common (`Func.FoundBand.eq_or_disjoint`).

Finding the bands never fails.  The question which of them may be tiled follows operands to their
memory, and can be stopped there, but by nothing else (`Func.Tidy.tilingCandidates_stopsBy`).
-/
import Dataflow.Proofs.Closure
import Dataflow.Proofs.TiledParallelism

namespace Dataflow

namespace Checked

variable {α β : Type} {P : Fault → Prop}

/-! ## 1. What a computation is stopped by -/

/-- `StopsBy P x`: if `x` is stopped by a fault, `P` holds of the fault. -/
def StopsBy (P : Fault → Prop) (x : Checked α) : Prop := ∀ fault, x = .error fault → P fault

theorem stopsBy_ok (a : α) : StopsBy P (.ok a) := fun _ h => by cases h

theorem stopsBy_bind {x : Checked α} {k : α → Checked β} (hx : StopsBy P x)
    (hk : ∀ a, x = .ok a → StopsBy P (k a)) : StopsBy P (x >>= k) := by
  cases x with
  | error fault =>
    intro fault' h
    cases h
    exact hx fault rfl
  | ok a => exact hk a rfl

theorem stopsBy_mapM {k : α → Checked β} : ∀ {l : List α}, (∀ a ∈ l, StopsBy P (k a)) →
    StopsBy P (l.mapM k)
  | [], _ => stopsBy_ok []
  | a :: l, h => by
    obtain ⟨ha, hl⟩ := List.forall_mem_cons.mp h
    rw [List.mapM_cons]
    exact stopsBy_bind ha fun b _ => stopsBy_bind (stopsBy_mapM hl) fun bs _ => stopsBy_ok _

theorem stopsBy_filterMapM {k : α → Checked (Option β)} : ∀ {l : List α},
    (∀ a ∈ l, StopsBy P (k a)) → StopsBy P (l.filterMapM k)
  | [], _ => stopsBy_ok []
  | a :: l, h => by
    obtain ⟨ha, hl⟩ := List.forall_mem_cons.mp h
    rw [List.filterMapM_cons]
    refine stopsBy_bind ha fun o _ => ?_
    cases o with
    | none => exact stopsBy_filterMapM hl
    | some b => exact stopsBy_bind (stopsBy_filterMapM hl) fun bs _ => stopsBy_ok _

/-- A test of every element is stopped by what stops the test of one. -/
theorem stopsBy_allM {p : α → Checked Bool} : ∀ {l : List α}, (∀ a ∈ l, StopsBy P (p a)) →
    StopsBy P (l.allM p)
  | [], _ => stopsBy_ok true
  | a :: l, h => by
    obtain ⟨ha, hl⟩ := List.forall_mem_cons.mp h
    rw [List.allM]
    refine stopsBy_bind ha fun b _ => ?_
    cases b with
    | false => exact stopsBy_ok false
    | true => exact stopsBy_allM hl

theorem stopsBy_filterAuxM {p : α → Checked Bool} : ∀ {l acc : List α},
    (∀ a ∈ l, StopsBy P (p a)) → StopsBy P (l.filterAuxM p acc)
  | [], acc, _ => stopsBy_ok acc
  | a :: l, acc, h => by
    obtain ⟨ha, hl⟩ := List.forall_mem_cons.mp h
    rw [List.filterAuxM]
    exact stopsBy_bind ha fun b _ => stopsBy_filterAuxM hl

/-- So is a filter. -/
theorem stopsBy_filterM {p : α → Checked Bool} {l : List α} (h : ∀ a ∈ l, StopsBy P (p a)) :
    StopsBy P (l.filterM p) :=
  stopsBy_bind (stopsBy_filterAuxM h) fun kept _ => stopsBy_ok kept.reverse

theorem filterM_isOk {p : α → Checked Bool} {l : List α} (h : ∀ a ∈ l, ∃ b, p a = .ok b) :
    ∃ kept, l.filterM p = .ok kept := by
  refine ⟨_, filterM_of_ok (q := fun a => (p a).toOption.getD false) fun a ha => ?_⟩
  obtain ⟨b, hb⟩ := h a ha
  rw [hb]
  rfl

end Checked

namespace Func

variable {f : Func}

/-! ## 2. Nests that go no further out -/

/-- The nest goes no further out: no loop holds the first loop of the band and nothing else. -/
def StartsNest (f : Func) (band : Band) : Prop :=
  ∀ first, band.head? = some first → ∀ outer, f.Reaches outer → f.IsLoop outer →
    f.bodyOf outer ≠ [first]

/-- **Two perfect nests that go no further out and have their inner loops in common are the
same.** -/
theorem PerfectNest.outer_eq (hn : f.Nested) {outer outer' : Band} {first : OpId} {inner : Band}
    (h : f.PerfectNest (outer ++ first :: inner)) (h' : f.PerfectNest (outer' ++ first :: inner))
    (hstarts : f.StartsNest (outer ++ first :: inner))
    (hstarts' : f.StartsNest (outer' ++ first :: inner)) : outer = outer' := by
  -- A further loop holds the first one and nothing else.
  have hholds : ∀ {outer : Band} {x first : OpId} {inner : Band},
      f.PerfectNest (outer ++ x :: first :: inner) →
        f.Reaches x ∧ f.IsLoop x ∧ f.bodyOf x = [first] := fun hnest =>
    ⟨hnest.reaches _ (by simp), hnest.isLoop _ (by simp), hnest.of_append.bodyOf_head⟩
  induction outer using List.reverseRecOn generalizing first inner outer' with
  | nil =>
    rcases List.eq_nil_or_concat outer' with rfl | ⟨outer', x, rfl⟩
    · rfl
    · rw [List.concat_eq_append, List.append_assoc, List.singleton_append] at h'
      obtain ⟨hx, hloop, hbody⟩ := hholds h'
      exact absurd hbody (hstarts first rfl x hx hloop)
  | append_singleton outer x ih =>
    rw [List.append_assoc, List.singleton_append] at h hstarts
    obtain ⟨hx, hloop, hbody⟩ := hholds h
    rcases List.eq_nil_or_concat outer' with rfl | ⟨outer', x', rfl⟩
    · exact absurd hbody (hstarts' first rfl x hx hloop)
    · rw [List.concat_eq_append, List.append_assoc, List.singleton_append] at h' hstarts'
      obtain ⟨hx', -, hbody'⟩ := hholds h'
      have hmem : first ∈ f.bodyOf x := hbody ▸ List.mem_cons_self
      have hmem' : first ∈ f.bodyOf x' := hbody' ▸ List.mem_cons_self
      have heq : some x = some x' :=
        (hn.parentOf_nested x hx first hmem).symm.trans (hn.parentOf_nested x' hx' first hmem')
      cases heq
      rw [ih h h' hstarts hstarts', List.concat_eq_append]

/-- Extending a band outwards ends, and where it ends the nest goes no further. -/
theorem Nested.extendOutward_isOk (h : f.Nested) : ∀ id, f.Reaches id → ∀ inner,
    f.PerfectNest (id :: inner) → ∃ band, f.extendOutward f.depthBound id (id :: inner) = .ok band ∧
      f.PerfectNest band ∧ f.StartsNest band ∧ band.getLast? = (id :: inner).getLast? := by
  refine h.upward (motive := fun levels id => ∀ inner, f.PerfectNest (id :: inner) →
    ∃ band, f.extendOutward levels id (id :: inner) = .ok band ∧ f.PerfectNest band ∧
      f.StartsNest band ∧ band.getLast? = (id :: inner).getLast?) ?_ ?_
  · intro levels id op hop hparent inner hnest
    refine ⟨id :: inner, ?_, hnest, ?_, rfl⟩
    · rw [extendOutward, op_eq_ok_iff.mpr hop, Checked.ok_bind, hparent]
      rfl
    · -- A loop around it would be its parent.
      rintro _ ⟨⟩ outer houter - hbody
      have hup := h.parentOf_nested outer houter id (hbody ▸ List.mem_cons_self)
      rw [parentOf_eq hop, hparent] at hup
      cases hup
  · intro levels id op parent hop hparent hreach ih inner hnest
    obtain ⟨pop, hpop, -⟩ := h.live parent hreach
    have hup : f.parentOf id = some parent := (parentOf_eq hop).trans hparent
    have hmem := (h.holds_of_isParent (hnest.reaches id List.mem_cons_self) hup).2
    rw [extendOutward, op_eq_ok_iff.mpr hop, Checked.ok_bind, hparent]
    simp only [op_eq_ok_iff.mpr hpop, Checked.ok_bind]
    split
    · rename_i htest
      simp only [Bool.and_eq_true, beq_iff_eq] at htest
      obtain ⟨band, hband, hperfect, hstarts, hlast⟩ := ih (id :: inner) (hnest.cons hreach
        (isLoop_of_kind hpop htest.1) (bodyOf_eq_singleton hpop hmem htest.2))
      exact ⟨band, hband, hperfect, hstarts, by rw [hlast, List.getLast?_cons_cons]⟩
    · rename_i htest
      refine ⟨id :: inner, rfl, hnest, ?_, rfl⟩
      rintro _ ⟨⟩ outer houter hloop hbody
      have hup' := h.parentOf_nested outer houter id (hbody ▸ List.mem_cons_self)
      rw [hup] at hup'
      cases hup'
      obtain ⟨l, hl⟩ := hloop.kind hpop
      rw [bodyOf_eq hpop] at hbody
      simp [hl, Kind.isLoop, Kind.loop?, hbody] at htest

/-- **The band that ends at a loop** is the perfect nest up to it that goes no further out. -/
theorem Nested.bandEndingAt_isOk (h : f.Nested) {x : OpId} (hx : f.Reaches x) (hloop : f.IsLoop x) :
    ∃ band, f.bandEndingAt x = .ok band ∧ f.PerfectNest band ∧ f.StartsNest band ∧
      band.getLast? = some x :=
  h.extendOutward_isOk x hx [] (.singleton hx hloop)

/-! ## 3. Bands that are found -/

/-- Neither a loop nor a schedule stands directly in the operation. -/
def Innermost (f : Func) (id : OpId) : Prop :=
  ∀ child ∈ f.bodyOf id, ∀ k, f.kindOf child = some k → k.isLoop = false ∧ k.isSchedule = false

theorem Innermost.holdsNoLoop {id : OpId} (h : f.Innermost id) : f.HoldsNoLoop id := by
  rintro child hchild ⟨l, hl⟩
  cases (h child hchild _ hl).1

theorem Nested.isInnermost_decides (h : f.Nested) {id : OpId} (hid : f.Reaches id) {op : Op}
    (hop : f.ops[id]? = some op) : ∃ b, f.isInnermost op = .ok b ∧ (b = true ↔ f.Innermost id) := by
  have hkind : ∀ child ∈ op.body, ∃ k, f.kindOf child = some k := by
    intro child hchild
    rw [← bodyOf_eq hop] at hchild
    obtain ⟨cop, hcop, -⟩ := h.live child (.nested hid hchild)
    exact ⟨cop.kind, kindOf_eq hcop⟩
  obtain ⟨b, hb⟩ : ∃ b, f.isInnermost op = .ok b := by
    refine Checked.allM_isOk fun child hchild => ?_
    obtain ⟨k, hk⟩ := hkind child hchild
    rw [kind_eq_ok.mpr hk, Checked.ok_bind]
    exact ⟨_, rfl⟩
  refine ⟨b, hb, ?_⟩
  have htrue : b = true ↔ f.isInnermost op = .ok true := by
    rw [hb, Except.ok.injEq]
  rw [htrue, isInnermost, Checked.allM_eq_true, Innermost, bodyOf_eq hop]
  refine forall₂_congr fun child hchild => ?_
  obtain ⟨k, hk⟩ := hkind child hchild
  rw [kind_eq_ok.mpr hk, Checked.ok_bind, hk]
  simp

/-- `f.FoundBand band`: a perfect nest that goes no further out, in a node, whose last loop holds
neither a loop nor a schedule. -/
structure FoundBand (f : Func) (band : Band) : Prop extends f.PerfectNest band where
  starts : f.StartsNest band
  last : ∃ innermost, band.getLast? = some innermost ∧ f.Innermost innermost ∧
    ∃ node, f.IsNode node ∧ f.Above node innermost

theorem FoundBand.ne_nil {band : Band} (h : f.FoundBand band) : band ≠ [] := by
  rintro rfl
  obtain ⟨innermost, hlast, -⟩ := h.last
  cases hlast

/-- Bands that end at one loop are the same. -/
theorem PerfectNest.eq_of_last (hn : f.Nested) {band band' : Band} {x : OpId}
    (h : f.PerfectNest band) (h' : f.PerfectNest band') (hstarts : f.StartsNest band)
    (hstarts' : f.StartsNest band') (hlast : band.getLast? = some x)
    (hlast' : band'.getLast? = some x) : band = band' := by
  obtain ⟨outer, rfl⟩ := List.getLast?_eq_some_iff.mp hlast
  obtain ⟨outer', rfl⟩ := List.getLast?_eq_some_iff.mp hlast'
  rw [h.outer_eq hn h' hstarts hstarts']

/-- **Two bands that are found are the same or have no loop in common.** -/
theorem FoundBand.eq_or_disjoint (hn : f.Nested) {band band' : Band} (h : f.FoundBand band)
    (h' : f.FoundBand band') : band = band' ∨ band.Disjoint band' := by
  obtain ⟨x, hlast, hinner, -⟩ := h.last
  obtain ⟨x', hlast', hinner', -⟩ := h'.last
  by_cases heq : x = x'
  · subst heq
    exact .inl (h.toPerfectNest.eq_of_last hn h'.toPerfectNest h.starts h'.starts hlast hlast')
  · exact .inr (h.toPerfectNest.disjoint h'.toPerfectNest hlast hlast' hinner.holdsNoLoop
      hinner'.holdsNoLoop heq)

/-- The loops of a node are found among everything below it. -/
theorem Nested.ownLoops_isOk (h : f.Nested) {node : OpId} (hnode : f.Reaches node)
    {es : List (OpId × Op)} (hes : f.entriesOf node = .ok es) :
    ∃ own, ((es.filter fun e => e.2.kind.isLoop).filterM fun e =>
        return (← f.nodeAround e.1) == some node) = .ok own ∧
      ∀ e, e ∈ own ↔ f.ops[e.1]? = some e.2 ∧ f.Reaches e.1 ∧ f.IsLoop e.1 ∧ f.InNode node e.1 := by
  have haround : ∀ x, f.Reaches x → ∃ b,
      (do return (← f.nodeAround x) == some node : Checked Bool) = .ok b ∧
        (b = true ↔ f.InNode node x) := by
    intro x hx
    obtain ⟨node?, haround⟩ := h.nodeAround_isOk hx
    refine ⟨node? == some node, Checked.bind_eq_ok.mpr ⟨node?, haround, rfl⟩, ?_⟩
    rw [beq_iff_eq, ← h.nodeAround_eq_some_iff hx, haround, Except.ok.injEq]
  obtain ⟨own, hown⟩ := Checked.filterM_isOk (l := es.filter fun e => e.2.kind.isLoop)
    (p := fun e => return (← f.nodeAround e.1) == some node) fun e he => by
      obtain ⟨-, hreach, -⟩ := h.of_mem_nest hnode hes e (List.mem_filter.mp he).1
      exact (haround e.1 hreach).imp fun b hb => hb.1
  refine ⟨own, hown, fun e => ?_⟩
  rw [Checked.mem_filterM hown, List.mem_filter]
  constructor
  · rintro ⟨⟨he, hloop⟩, hin⟩
    obtain ⟨hop, hreach, -⟩ := h.of_mem_nest hnode hes e he
    obtain ⟨b, hb, hiff⟩ := haround e.1 hreach
    rw [hb, Except.ok.injEq] at hin
    exact ⟨hop, hreach, isLoop_of_kind hop hloop, hiff.mp hin⟩
  · rintro ⟨hop, hreach, hloop, hin⟩
    obtain ⟨b, hb, hiff⟩ := haround e.1 hreach
    obtain ⟨l, hl⟩ := hloop.kind hop
    refine ⟨⟨h.mem_nest_of_above hnode hes hreach hop hin.above.1, by rw [hl]; rfl⟩, ?_⟩
    rw [hb, hiff.mpr hin]

/-- **The bands of a node** end at its innermost loops, one at each, in the order of the walk. -/
theorem Nested.nodeBands_ends (h : f.Nested) {node : OpId} (hnode : f.Reaches node)
    {order : List OpId} (horder : f.walkFrom node = .ok order) :
    ∃ bands ends, f.nodeBands node = .ok bands ∧ ends.Sublist order ∧
      (∀ x, x ∈ ends ↔ f.Reaches x ∧ f.IsLoop x ∧ f.InNode node x ∧ f.Innermost x) ∧
      List.Forall₂ (fun x band => f.bandEndingAt x = .ok band) ends bands := by
  obtain ⟨es, hes, rfl⟩ := walkFrom_eq_ok.mp horder
  obtain ⟨own, hown, hmemOwn⟩ := h.ownLoops_isOk hnode hes
  obtain ⟨kept, hkept⟩ := Checked.filterM_isOk (p := fun e => f.isInnermost e.2) (l := own)
    fun e he => by
      obtain ⟨hop, hreach, -⟩ := (hmemOwn e).mp he
      exact (h.isInnermost_decides hreach hop).imp fun b hb => hb.1
  have hmemKept : ∀ e, e ∈ kept ↔ e ∈ own ∧ f.Innermost e.1 := by
    intro e
    rw [Checked.mem_filterM hkept]
    refine and_congr_right fun he => ?_
    obtain ⟨hop, hreach, -⟩ := (hmemOwn e).mp he
    obtain ⟨b, hb, hiff⟩ := h.isInnermost_decides hreach hop
    rw [hb, Except.ok.injEq, hiff]
  obtain ⟨bands, hbands⟩ := Checked.mapM_isOk (k := fun e => f.bandEndingAt e.1) (l := kept)
    fun e he => by
      obtain ⟨-, hreach, hloop, -⟩ := (hmemOwn e).mp ((hmemKept e).mp he).1
      exact (h.bandEndingAt_isOk hreach hloop).imp fun band hband => hband.1
  have hsub : kept.Sublist es := (Checked.filterM_sublist hkept).trans
    ((Checked.filterM_sublist hown).trans List.filter_sublist)
  refine ⟨bands, kept.map Prod.fst, ?_, hsub.map Prod.fst, fun x => ?_, ?_⟩
  · rw [nodeBands, hes, Checked.ok_bind]
    exact Checked.bind_eq_ok.mpr ⟨own, hown, Checked.bind_eq_ok.mpr ⟨kept, hkept, hbands⟩⟩
  · rw [List.mem_map]
    constructor
    · rintro ⟨e, he, rfl⟩
      obtain ⟨heown, hinner⟩ := (hmemKept e).mp he
      obtain ⟨-, hreach, hloop, hin⟩ := (hmemOwn e).mp heown
      exact ⟨hreach, hloop, hin, hinner⟩
    · rintro ⟨hreach, hloop, hin, hinner⟩
      obtain ⟨op, hop, -⟩ := h.live x hreach
      exact ⟨(x, op), (hmemKept _).mpr ⟨(hmemOwn _).mpr ⟨hop, hreach, hloop, hin⟩, hinner⟩, rfl⟩
  · rw [List.forall₂_map_left_iff]
    exact Checked.mapM_eq_ok.mp hbands

theorem Nested.nodeBands_isOk (h : f.Nested) {node : OpId} (hnode : f.Reaches node) :
    ∃ bands, f.nodeBands node = .ok bands ∧ ∀ band, band ∈ bands ↔ ∃ x, f.Reaches x ∧ f.IsLoop x ∧
      f.InNode node x ∧ f.Innermost x ∧ f.bandEndingAt x = .ok band := by
  obtain ⟨order, horder⟩ := h.walkFrom_isOk hnode
  obtain ⟨bands, ends, hbands, -, hends, hforall⟩ := h.nodeBands_ends hnode horder
  refine ⟨bands, hbands, fun band => ⟨fun hmem => ?_, ?_⟩⟩
  · obtain ⟨x, hx, hband⟩ := Checked.forall₂_left hforall hmem
    obtain ⟨hreach, hloop, hin, hinner⟩ := (hends x).mp hx
    exact ⟨x, hreach, hloop, hin, hinner, hband⟩
  · rintro ⟨x, hreach, hloop, hin, hinner, hband⟩
    obtain ⟨band', hmem, hband'⟩ :=
      Checked.forall₂_right hforall ((hends x).mpr ⟨hreach, hloop, hin, hinner⟩)
    rw [hband] at hband'
    cases hband'
    exact hmem

/-- **The bands that are found.** -/
theorem Nested.exists_bands (h : f.Nested) : ∃ nodes parts, f.nodes = .ok nodes ∧
    nodes.mapM f.nodeBands = .ok parts ∧ ∀ band, band ∈ parts.flatten ↔ f.FoundBand band := by
  obtain ⟨nodes, hnodes, -⟩ := h.findAll_isOk (·.kind.isNode)
  have hmem : ∀ node, node ∈ nodes ↔ f.Reaches node ∧ f.IsNode node := fun node =>
    h.mem_findAll hnodes
  obtain ⟨parts, hparts⟩ := Checked.mapM_isOk (k := f.nodeBands) (l := nodes) fun node hnode => by
    obtain ⟨bands, hbands, -⟩ := h.nodeBands_isOk ((hmem node).mp hnode).1
    exact ⟨bands, hbands⟩
  refine ⟨nodes, parts, hnodes, hparts, fun band => ⟨fun hband => ?_, fun hfound => ?_⟩⟩
  · obtain ⟨part, hpart, hband⟩ := List.mem_flatten.mp hband
    obtain ⟨node, hnode, hbands⟩ := Checked.forall₂_left (Checked.mapM_eq_ok.mp hparts) hpart
    obtain ⟨bands, hbands', hiff⟩ := h.nodeBands_isOk ((hmem node).mp hnode).1
    rw [hbands] at hbands'
    cases hbands'
    obtain ⟨x, hx, hloop, hin, hinner, hending⟩ := (hiff band).mp hband
    obtain ⟨band', hending', hnest, hstarts, hlast⟩ := h.bandEndingAt_isOk hx hloop
    rw [hending] at hending'
    cases hending'
    exact ⟨hnest, hstarts, x, hlast, hinner, node, hin.above.2, hin.above.1⟩
  · obtain ⟨x, hlast, hinner, above, habove, hup⟩ := hfound.last
    have hxmem : x ∈ band := List.mem_of_getLast? hlast
    have hx : f.Reaches x := hfound.reaches x hxmem
    have hloop : f.IsLoop x := hfound.isLoop x hxmem
    obtain ⟨node, hin⟩ := h.exists_inNode hx hup (habove.ne_of_isLoop hloop) habove
    have hnode : f.Reaches node := h.reaches_of_above hin.above.1 hx
    obtain ⟨part, hpart, hbands⟩ := Checked.forall₂_right (Checked.mapM_eq_ok.mp hparts)
      ((hmem node).mpr ⟨hnode, hin.above.2⟩)
    obtain ⟨bands, hbands', hiff⟩ := h.nodeBands_isOk hnode
    rw [hbands] at hbands'
    cases hbands'
    obtain ⟨band', hending, hnest, hstarts, hlast'⟩ := h.bandEndingAt_isOk hx hloop
    have heq : band' = band :=
      hnest.eq_of_last h hfound.toPerfectNest hstarts hfound.starts hlast' hlast
    exact List.mem_flatten.mpr
      ⟨part, hpart, (hiff band).mpr ⟨x, hx, hloop, hin, hinner, heq ▸ hending⟩⟩

/-! ## 4. Bands that are tried -/

/-- `f.Candidate band`: a band that is found and may be tiled. -/
structure Candidate (f : Func) (band : Band) : Prop extends f.FoundBand band where
  may : f.mayTile band .structural = .ok true

theorem Nested.mem_tilingCandidates (h : f.Nested) {bands : List Band}
    (hbands : f.tilingCandidates = .ok bands) {band : Band} : band ∈ bands ↔ f.Candidate band := by
  obtain ⟨nodes, parts, hnodes, hparts, hfound⟩ := h.exists_bands
  rw [tilingCandidates, hnodes, Checked.ok_bind, hparts, Checked.ok_bind] at hbands
  rw [Checked.mem_filterM hbands, hfound]
  exact ⟨fun ⟨hband, hmay⟩ => ⟨hband, hmay⟩, fun hband => ⟨hband.toFoundBand, hband.may⟩⟩

/-- `f.Astray fault`: an operand cannot be followed to its root, because of the fault. -/
def Astray (f : Func) (fault : Fault) : Prop := ∃ v, f.Uses v ∧ f.root v = .error fault

namespace Tidy

theorem ownStores_stopsBy (hf : f.Tidy) {id x : OpId} (hx : f.Reaches x) :
    Checked.StopsBy f.Astray (f.ownStores id (f.computesBelow x)) := by
  have hroot : ∀ a ∈ (f.computesBelow x).flatMap Compute.accesses,
      Checked.StopsBy f.Astray (f.root a.memref) := by
    intro a ha fault hfault
    obtain ⟨c, hc, ha⟩ := List.mem_flatMap.mp ha
    obtain ⟨y, k, hy, -, hk, hck⟩ := hf.toNested.mem_collect hx hc
    obtain rfl := Kind.eq_compute_of_compute? (Option.mem_toList.mp hck)
    exact ⟨a.memref, ⟨y, _, hy, hk, List.mem_map_of_mem ha⟩, hfault⟩
  refine Checked.stopsBy_allM fun w hw => ?_
  have hwrite : w ∈ (f.computesBelow x).flatMap Compute.accesses := by
    obtain ⟨c, hc, hw⟩ := List.mem_flatMap.mp hw
    exact List.mem_flatMap.mpr ⟨c, hc, List.mem_append_right _ hw⟩
  rw [storesOwnElement]
  split
  · exact Checked.stopsBy_ok false
  · refine Checked.stopsBy_bind (hroot w hwrite) fun root _ =>
      Checked.stopsBy_allM fun other ho => ?_
    refine Checked.stopsBy_bind ?_ fun touches _ => Checked.stopsBy_ok _
    cases root with
    | none => exact Checked.stopsBy_ok true
    | some root => exact Checked.stopsBy_bind (hroot other ho) fun root _ => Checked.stopsBy_ok _

theorem isParallel_stopsBy (hf : f.Tidy) {x : OpId} (hx : f.Reaches x) (hloop : f.IsLoop x) :
    Checked.StopsBy f.Astray (f.isParallel x) := by
  obtain ⟨l, hl⟩ := hloop
  rw [isParallel_eq (hf.toNested.entriesOf_eq hx) hl]
  split
  · exact Checked.stopsBy_ok true
  · exact Checked.stopsBy_bind (hf.ownStores_stopsBy hx) fun own _ => Checked.stopsBy_ok _

theorem mayTile_stopsBy (hf : f.Tidy) {band : Band} (h : f.PerfectNest band) :
    Checked.StopsBy f.Astray (f.mayTile band .structural) := by
  refine Checked.stopsBy_bind (Checked.stopsBy_allM fun x hx => ?_) fun parallel _ => ?_
  · have hmem : x ∈ band := List.mem_of_mem_drop hx
    exact hf.isParallel_stopsBy (h.reaches x hmem) (h.isLoop x hmem)
  · cases parallel with
    | false => exact Checked.stopsBy_ok false
    | true =>
      refine Checked.stopsBy_allM fun x hx => ?_
      obtain ⟨l, hl⟩ := h.isLoop x hx
      have hloop : f.loop? x = .ok (some l) := loop?_eq_ok.mpr ⟨_, hl, rfl⟩
      rw [hloop, Checked.ok_bind]
      exact Checked.stopsBy_ok _

/-- **The search for bands to tile is stopped by an operand without a root, and by nothing
else.** -/
theorem tilingCandidates_stopsBy (hf : f.Tidy) : Checked.StopsBy f.Astray f.tilingCandidates := by
  obtain ⟨nodes, parts, hnodes, hparts, hfound⟩ := hf.toNested.exists_bands
  rw [tilingCandidates, hnodes, Checked.ok_bind, hparts, Checked.ok_bind]
  exact Checked.stopsBy_filterM fun band hband =>
    hf.mayTile_stopsBy ((hfound band).mp hband).toPerfectNest

/-- An operand that leads astray leads to a view that is not reached, and on to a value that does
not exist. -/
theorem of_astray (hf : f.Tidy) {fault : Fault} (h : f.Astray fault) : ¬ f.Closed ∧
    ∃ d source result, ¬ f.Reaches d ∧ f.kindOf d = some (.view source result) ∧
      fault = .unknownValue source := by
  obtain ⟨v, hv, hroot⟩ := h
  obtain ⟨value, hvalue, -⟩ := hf.usable hv
  refine ⟨fun hclosed => ?_, hf.resolve_eq_error ⟨value, hvalue⟩ hroot⟩
  obtain ⟨r?, hr, -⟩ := hf.root_isOk hclosed hv
  rw [hroot] at hr
  cases hr

end Tidy

end Func
end Dataflow
