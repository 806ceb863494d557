/-
# Agreement comes to an end

On a function in order, the nodes find their primary bands and the trip counts of these
(`Func.Nested.primaryBand_isOk`, `Func.bandTrips_of_loops`), and all names that the journal asks for
exist.  So the nodes of a function agree on factors along any correlations between them
(`Func.Nested.agree_isOk`).
-/
import Dataflow.Proofs.Participants

namespace Dataflow

variable {audience : Audience}

/-- Telling a diagnostic stops nothing. -/
theorem Diagnostic.emit_yields (d : Diagnostic) : d.emit.Yields audience () := by
  have hnotes : ∀ notes : List String, (notes.forM fun note =>
      Traced.say .debug "dfopt::utils::errors" ("  note: " ++ note)).Yields audience () := by
    intro notes
    induction notes with
    | nil => exact Traced.yields_pure.mpr rfl
    | cons note notes ih => exact Traced.yields_bind.mpr ⟨(), Traced.yields_say, ih⟩
  exact Traced.yields_bind.mpr ⟨(), Traced.yields_say, hnotes d.notes⟩

namespace Func

variable {f : Func} {budgets : Budgets} {config : Config}

/-! ## 1. Primary bands -/

/-- Following a nest inwards ends, as a walk does. -/
theorem Nested.extendInward_isOk (h : f.Nested) : ∀ {levels : Nat} {id : OpId} {path : List OpId},
    f.Reaches id → f.Trail id path → f.ops.size ≤ levels + path.length →
      ∃ band, f.extendInward levels id = .ok band
  | 0, id, path, hid, ht, hlen => by
    have := h.trail_length_lt hid ht
    omega
  | levels + 1, id, path, hid, ht, hlen => by
    obtain ⟨op, hop, -⟩ := h.live id hid
    rw [extendInward, op_eq_ok_iff.mpr hop, Checked.ok_bind]
    split
    · rename_i only hbody
      have hmem : only ∈ f.bodyOf id := by simp [bodyOf_eq hop, hbody]
      have honly : f.Reaches only := .nested hid hmem
      obtain ⟨inner, hinner, -⟩ := h.live only honly
      rw [kind_eq_ok.mpr (kindOf_eq hinner), Checked.ok_bind]
      split
      · obtain ⟨band, hband⟩ : ∃ band, f.extendInward levels only = .ok band := by
          refine extendInward_isOk h honly (h.trail_child hid hmem ht) ?_
          rw [List.length_cons]
          omega
        exact ⟨id :: band, by rw [hband]; rfl⟩
      · exact ⟨[id], rfl⟩
    · exact ⟨[id], rfl⟩

theorem Nested.primaryBand_isOk (h : f.Nested) {node : OpId} (hnode : f.Reaches node) :
    ∃ band, f.primaryBand node = .ok band := by
  obtain ⟨op, hop, -⟩ := h.live node hnode
  have hbody : ∀ id ∈ op.body, f.Reaches id := fun id hid =>
    .nested hnode (bodyOf_eq hop ▸ hid)
  obtain ⟨first?, hfirst⟩ := Checked.findM?_isOk (l := op.body)
      (p := fun id => return (← f.kind id).isLoop) fun id hid => by
    obtain ⟨child, hchild, -⟩ := h.live id (hbody id hid)
    exact ⟨child.kind.isLoop, by rw [kind_eq_ok.mpr (kindOf_eq hchild)]; rfl⟩
  rw [primaryBand, op_eq_ok_iff.mpr hop, Checked.ok_bind, hfirst, Checked.ok_bind]
  cases first? with
  | none => exact ⟨[], rfl⟩
  | some first =>
    have hreached := hbody first (Checked.of_findM?_eq_some hfirst).1
    obtain ⟨path, ht⟩ := h.exists_trail hreached
    exact h.extendInward_isOk hreached ht (by rw [depthBound]; omega)

/-- The trip counts of loops can be read. -/
theorem bandTrips_of_loops {band : Band} (h : ∀ id ∈ band, f.IsLoop id) :
    f.bandTrips band = .ok (f.tripsOf band) := by
  obtain ⟨trips, htrips⟩ := Checked.mapM_isOk (l := band)
      (k := fun id => return (← f.loop? id).bind Loop.tripCount) fun id hid => by
    obtain ⟨l, hl⟩ := h id hid
    exact ⟨l.tripCount, by rw [loop?_eq_ok.mpr ⟨_, hl, rfl⟩]; rfl⟩
  rw [← bandTrips_eq_ok htrips]
  exact htrips

/-! ## 2. Turns -/

theorem Participant.label_isOk {node : OpId} (h : f.Participant node) :
    ∃ text, f.label node = .ok text := by
  obtain ⟨op, hop, hnode⟩ := h.2
  refine Func.label_isOk (kindOf_eq hop) ?_
  cases hkind : op.kind with
  | node name => rfl
  | _ => simp [hkind, Kind.isNode] at hnode

theorem carryOver_isOk {node : OpId} {chosen : List Nat} : ∀ {links : List Correlation}
    {factors : OpMap (List Nat)}, (∀ c ∈ links, f.Participant c.first ∧ f.Participant c.second) →
      ∃ factors', (f.carryOver node chosen links factors).Yields audience factors'
  | [], factors, _ => ⟨factors, Traced.yields_pure.mpr rfl⟩
  | c :: links, factors, h => by
    obtain ⟨hc, h⟩ := List.forall_mem_cons.mp h
    rw [carryOver]
    split
    · exact carryOver_isOk h
    · obtain ⟨text, htext⟩ := (Correlation.other_of_both hc node).label_isOk
      obtain ⟨factors', hrest⟩ : ∃ factors', (f.carryOver node chosen links
          (factors.put (c.other node) (c.carry node chosen))).Yields audience factors' :=
        carryOver_isOk h
      refine ⟨factors', Traced.yields_bind.mpr ⟨(), Traced.yields_note.mpr fun _ => ?_, hrest⟩⟩
      exact ⟨_, by rw [htext]; rfl⟩

theorem chooseFactors_isOk {node : OpId} (hnode : f.Participant node) {links : List Correlation}
    (hlinks : ∀ c ∈ links, f.Participant c.first ∧ f.Participant c.second) (target : Nat)
    (base : List Nat) (shape : List (Option Nat)) (state : Agreement) :
    ∃ state', (f.chooseFactors node target base shape links state).Yields audience state' := by
  obtain ⟨text, htext⟩ := hnode.label_isOk
  obtain ⟨factors, hfactors⟩ : ∃ factors, (f.carryOver node (shareFactor target base shape) links
      (state.factors.put node (shareFactor target base shape))).Yields audience factors :=
    carryOver_isOk hlinks
  refine ⟨{ state with factors := factors }, ?_⟩
  refine Traced.yields_bind.mpr ⟨(), Traced.yields_note.mpr fun _ => ⟨_, by rw [htext]; rfl⟩, ?_⟩
  exact Traced.yields_bind.mpr ⟨factors, hfactors, Traced.yields_pure.mpr rfl⟩

/-- One turn: the node finds its band, and decides or is skipped. -/
theorem Nested.agreeOnNode_isOk (h : f.Nested) {node : OpId} (hnode : f.Participant node)
    {links : List Correlation}
    (hlinks : ∀ c ∈ links, f.Participant c.first ∧ f.Participant c.second) (state : Agreement) :
    ∃ state', (f.agreeOnNode budgets config node links state).Yields audience state' := by
  obtain ⟨band, hband⟩ := h.primaryBand_isOk hnode.1
  have htrips := bandTrips_of_loops (primaryBand_spec h hnode.1 hnode.2 hband).isLoop
  obtain ⟨text, htext⟩ := hnode.label_isOk
  simp only [agreeOnNode, Traced.yields_lift_bind hband, Traced.yields_lift_bind htrips]
  split
  · exact chooseFactors_isOk hnode hlinks _ _ _ state
  · split
    · exact chooseFactors_isOk hnode hlinks _ _ _ state
    · simp only [Traced.yields_lift_bind htext]
      exact ⟨_, Traced.yields_bind.mpr ⟨(), Diagnostic.emit_yields _, Traced.yields_pure.mpr rfl⟩⟩

theorem Nested.agreeOnNodes_isOk (h : f.Nested) : ∀ {entries : List (OpId × List Correlation)}
    {state : Agreement}, Linked f.Participant entries →
      ∃ state', (f.agreeOnNodes budgets config entries state).Yields audience state'
  | [], state, _ => ⟨state, Traced.yields_pure.mpr rfl⟩
  | (node, links) :: entries, state, hlinked => by
    obtain ⟨⟨hnode, hlinks⟩, hlinked⟩ := List.forall_mem_cons.mp hlinked
    rw [agreeOnNodes]
    split
    · exact agreeOnNodes_isOk h hlinked
    · obtain ⟨state₁, hstate⟩ := h.agreeOnNode_isOk hnode hlinks state
      obtain ⟨state', hrest⟩ := agreeOnNodes_isOk h hlinked
      exact ⟨state', Traced.yields_bind.mpr ⟨state₁, hstate, hrest⟩⟩

/-- **The nodes of a function agree**, along any correlations between them. -/
theorem Nested.agree_isOk (h : f.Nested) {links : Correlations}
    (hlinked : Linked f.Participant links) :
    ∃ agreement, (f.agree budgets links config).Yields audience agreement :=
  h.agreeOnNodes_isOk fun e he => hlinked e (links.ranked_perm.mem_iff.mp he)

end Func
end Dataflow
