/-
# Who takes part in a parallelization

Budgets go to nodes that stand in a schedule, and factors are agreed between nodes of the
function.  Both are kept in maps that list a key once.  So whatever a parallelization transforms
is a node that is reached, and it is listed once (`OpMap.Keyed`).
-/
import Dataflow.Node.Agreement
import Dataflow.Proofs.Bands
import Dataflow.Proofs.Factors

namespace Dataflow

/-! ## 1. Keys of maps -/

namespace OpMap

variable {α : Type} {P : OpId → Prop}

/-- The keys of the map are distinct, and `P` holds of all. -/
def Keyed (P : OpId → Prop) (m : OpMap α) : Prop :=
  (m.map Prod.fst).Nodup ∧ ∀ id ∈ m.map Prod.fst, P id

theorem has_iff {m : OpMap α} {id : OpId} : m.has id = true ↔ id ∈ m.map Prod.fst := by
  simp [has, List.mem_map]

theorem keyed_nil : Keyed P ([] : OpMap α) := ⟨List.nodup_nil, fun _ hid => by cases hid⟩

theorem Keyed.put {m : OpMap α} (h : Keyed P m) {id : OpId} (hid : P id) (a : α) :
    Keyed P (m.put id a) := by
  unfold Keyed
  rw [map_fst_put]
  split
  · exact h
  · rename_i hnew
    constructor
    · rw [List.nodup_append']
      exact ⟨h.1, List.nodup_singleton id, by simpa using hnew⟩
    · intro k hk
      rcases List.mem_append.mp hk with hk | hk
      · exact h.2 k hk
      · exact List.mem_singleton.mp hk ▸ hid

theorem Keyed.filter {m : OpMap α} (h : Keyed P m) (p : OpId × α → Bool) : Keyed P (m.filter p) :=
  ⟨(List.filter_sublist.map Prod.fst).nodup h.1,
    fun id hid => h.2 id ((List.filter_sublist.map Prod.fst).subset hid)⟩

theorem mem_of_get? {m : OpMap α} {id : OpId} {a : α} (h : m.get? id = some a) : (id, a) ∈ m := by
  obtain ⟨e, he, rfl⟩ := Option.map_eq_some_iff.mp h
  have heq : e.1 = id := by simpa using List.find?_some he
  exact heq ▸ List.mem_of_find?_eq_some he

/-- Where keys are distinct, every entry is the one that its key finds. -/
theorem get?_of_mem {m : OpMap α} (hnd : (m.map Prod.fst).Nodup) {id : OpId} {a : α}
    (h : (id, a) ∈ m) : m.get? id = some a := by
  cases hget : m.get? id with
  | none =>
    have hnone := List.find?_eq_none.mp (Option.map_eq_none_iff.mp hget) (id, a) h
    simp at hnone
  | some b => exact congrArg some (congrArg Prod.snd
      (List.inj_on_of_nodup_map hnd (mem_of_get? hget) h rfl))

/-- An entry of the map with a key put in is that key's or was there. -/
theorem mem_put : ∀ {m : OpMap α} {id : OpId} {a : α} {e : OpId × α},
    e ∈ m.put id a → e ∈ m ∨ e = (id, a)
  | [], _, _, _, he => .inr (List.mem_singleton.mp he)
  | x :: m, id, a, e, he => by
    rw [put] at he
    split at he
    · rcases List.mem_cons.mp he with rfl | he
      · exact .inr rfl
      · exact .inl (List.mem_cons_of_mem x he)
    · rcases List.mem_cons.mp he with rfl | he
      · exact .inl List.mem_cons_self
      · exact (mem_put he).imp_left fun he => List.mem_cons_of_mem x he

end OpMap

theorem Correlations.ranked_perm (links : Correlations) : links.ranked.Perm links := by
  rw [ranked, sortBy_eq_mergeSort (by grind) (by grind)]
  exact List.mergeSort_perm _ _

namespace Func

variable {f : Func} {audience : Audience}

/-- The slot holds a node of the function. -/
def Participant (f : Func) (id : OpId) : Prop := f.Reaches id ∧ f.IsNode id

/-! ## 2. Budgets -/

/-- The part that a node gets is never nothing, and is a word. -/
theorem nodeShare_bounds (budget cost total : Nat) :
    0 < nodeShare budget cost total ∧ nodeShare budget cost total ≤ wordMax := by
  refine ⟨Nat.lt_of_lt_of_le Nat.one_pos (Nat.le_max_right _ 1), Nat.max_le.mpr ⟨?_, by decide⟩⟩
  split
  · decide
  · exact saturate_le _

/-- Nodes get their parts if the first has a cost, and the others get theirs after it. -/
theorem budgetNodes_cons_yields {prices : Prices} {budget total : Nat} {node : OpId}
    {nodes : List OpId} {budgets budgets' : Budgets}
    (h : (f.budgetNodes prices budget total (node :: nodes) budgets).Yields audience
      (.ok budgets')) :
    ∃ cost, prices.node f node = .ok (some cost)
      ∧ (f.budgetNodes prices budget total nodes
          (budgets.put node (nodeShare budget cost total))).Yields audience (.ok budgets') := by
  obtain ⟨cost?, hcost, h⟩ := Traced.yields_bind.mp h
  rw [Traced.yields_lift] at hcost
  cases cost? with
  | none =>
    obtain ⟨_, -, h⟩ := Traced.yields_bind.mp h
    cases Traced.yields_pure.mp h
  | some cost =>
    obtain ⟨_, -, h⟩ := Traced.yields_bind.mp h
    exact ⟨cost, hcost, h⟩

/-- What holds of the budgets whenever a node gets its part holds when all nodes of a schedule got
theirs... -/
theorem budgetNodes_preserves {I : Budgets → Prop} {prices : Prices} {budget total : Nat} :
    ∀ {nodes : List OpId} {budgets budgets' : Budgets},
      (∀ node ∈ nodes, ∀ budgets part, 0 < part ∧ part ≤ wordMax → I budgets →
        I (budgets.put node part)) →
      I budgets → (f.budgetNodes prices budget total nodes budgets).Yields audience (.ok budgets') →
      I budgets'
  | [], _, _, _, hI, h => by
    cases Traced.yields_pure.mp h
    exact hI
  | node :: nodes, budgets, budgets', hstep, hI, h => by
    obtain ⟨hnode, hstep⟩ := List.forall_mem_cons.mp hstep
    obtain ⟨cost, -, h⟩ := budgetNodes_cons_yields h
    exact budgetNodes_preserves hstep (hnode budgets _ (nodeShare_bounds budget cost total) hI) h

theorem mem_childNodes {owner : OpId} {nodes : List OpId} (h : f.childNodes owner = .ok nodes) :
    ∀ id ∈ nodes, id ∈ f.bodyOf owner ∧ f.IsNode id := by
  obtain ⟨op, hop, h⟩ := Checked.bind_eq_ok.mp h
  rw [op_eq_ok_iff] at hop
  intro id hid
  obtain ⟨hmem, htest⟩ := (Checked.mem_filterM h).mp hid
  obtain ⟨kind, hkind, htest⟩ := Checked.bind_eq_ok.mp htest
  obtain ⟨cop, hcop, heq⟩ := Checked.bind_eq_ok.mp hkind
  cases heq
  rw [op_eq_ok_iff] at hcop
  exact ⟨bodyOf_eq hop ▸ hmem, cop, hcop, by simpa using htest⟩

/-- Schedules share their budgets out if the first has a budget and a cost and its nodes get their
parts, and the others share theirs out after it. -/
theorem budgetSchedules_cons_yields {prices : Prices} {root : Nat} {s : OpId}
    {schedules : List OpId} {budgets budgets' : Budgets}
    (h : (f.budgetSchedules prices root (s :: schedules) budgets).Yields audience (.ok budgets')) :
    ∃ budget total nodes budgets₁, f.incomingBudget s budgets root = .ok (.ok budget)
      ∧ prices.schedule f s = .ok (some total) ∧ f.childNodes s = .ok nodes
      ∧ (f.budgetNodes prices budget total nodes budgets).Yields audience (.ok budgets₁)
      ∧ (f.budgetSchedules prices root schedules budgets₁).Yields audience (.ok budgets') := by
  obtain ⟨incoming, hincoming, h⟩ := Traced.yields_bind.mp h
  rw [Traced.yields_lift] at hincoming
  cases incoming with
  | error reason => cases Traced.yields_pure.mp h
  | ok budget =>
    obtain ⟨total?, htotal, h⟩ := Traced.yields_bind.mp h
    rw [Traced.yields_lift] at htotal
    cases total? with
    | none =>
      obtain ⟨_, -, h⟩ := Traced.yields_bind.mp h
      cases Traced.yields_pure.mp h
    | some total =>
      obtain ⟨nodes, hnodes, h⟩ := Traced.yields_bind.mp h
      rw [Traced.yields_lift] at hnodes
      obtain ⟨outcome, houtcome, h⟩ := Traced.yields_bind.mp h
      cases outcome with
      | error reason => cases Traced.yields_pure.mp h
      | ok budgets₁ =>
        exact ⟨budget, total, nodes, budgets₁, hincoming, htotal, hnodes, houtcome, h⟩

/-- ...and when all nodes of several schedules did. -/
theorem budgetSchedules_preserves {I : Budgets → Prop} {prices : Prices} {root : Nat}
    (hstep : ∀ node, f.Participant node → ∀ budgets part, 0 < part ∧ part ≤ wordMax →
      I budgets → I (budgets.put node part)) :
    ∀ {schedules : List OpId} {budgets budgets' : Budgets}, (∀ s ∈ schedules, f.Reaches s) →
      I budgets → (f.budgetSchedules prices root schedules budgets).Yields audience (.ok budgets') →
      I budgets'
  | [], _, _, _, hI, h => by
    cases Traced.yields_pure.mp h
    exact hI
  | s :: schedules, budgets, budgets', hreach, hI, h => by
    obtain ⟨hs, hreach⟩ := List.forall_mem_cons.mp hreach
    obtain ⟨budget, total, nodes, budgets₁, -, -, hnodes, hshared, h⟩ :=
      budgetSchedules_cons_yields h
    have hI₁ : I budgets₁ := budgetNodes_preserves (fun node hnode => by
      obtain ⟨hmem, hisNode⟩ := mem_childNodes hnodes node hnode
      exact hstep node ⟨.nested hs hmem, hisNode⟩) hI hshared
    exact budgetSchedules_preserves hstep hreach hI₁ h

theorem budgets_preserves (hn : f.Nested) {I : Budgets → Prop}
    (hstep : ∀ node, f.Participant node → ∀ budgets part, 0 < part ∧ part ≤ wordMax →
      I budgets → I (budgets.put node part)) (hnil : I []) {prices : Prices} {root : Nat}
    {budgets : Budgets} (h : (f.budgets prices root).Yields audience (.ok budgets)) :
    I budgets := by
  obtain ⟨schedules, hschedules, h⟩ := Traced.yields_bind.mp h
  rw [Traced.yields_lift] at hschedules
  exact budgetSchedules_preserves hstep (fun s hs => ((hn.mem_findAll hschedules).mp hs).1) hnil h

/-- **Budgets go to nodes of the function**, one to each. -/
theorem budgets_keyed (hn : f.Nested) {prices : Prices} {root : Nat} {budgets : Budgets}
    (h : (f.budgets prices root).Yields audience (.ok budgets)) :
    OpMap.Keyed f.Participant budgets :=
  budgets_preserves hn (fun _ hnode _ part _ hkeyed => hkeyed.put hnode part) OpMap.keyed_nil h

/-- **Every budget is at least one.** -/
theorem budgets_pos (hn : f.Nested) {prices : Prices} {root : Nat} {budgets : Budgets}
    (h : (f.budgets prices root).Yields audience (.ok budgets)) : ∀ e ∈ budgets, 0 < e.2 := by
  refine budgets_preserves (I := fun budgets => ∀ e ∈ budgets, 0 < e.2) hn
    (fun node _ budgets part hpart hpos e he => ?_) (fun e he => by cases he) h
  rcases OpMap.mem_put he with he | rfl
  · exact hpos e he
  · exact hpart.1

/-! ## 3. Agreed factors -/

/-- Every correlation of the map is between operations of which `P` holds, and so are the keys. -/
def Linked (P : OpId → Prop) (m : Correlations) : Prop :=
  ∀ e ∈ m, P e.1 ∧ ∀ c ∈ e.2, P c.first ∧ P c.second

theorem Correlation.other_of_both {P : OpId → Prop} {c : Correlation} (h : P c.first ∧ P c.second)
    (node : OpId) : P (c.other node) := by
  unfold Correlation.other
  split
  · exact h.2
  · exact h.1

/-- What holds of the factors whenever some are carried over to a node that has none holds when all
are. -/
theorem carryOver_preserves {node : OpId} {chosen : List Nat} {I : OpMap (List Nat) → Prop} :
    ∀ {links : List Correlation} {factors factors' : OpMap (List Nat)},
      (∀ c ∈ links, ∀ factors : OpMap (List Nat), factors.has (c.other node) = false → I factors →
        I (factors.put (c.other node) (c.carry node chosen))) → I factors →
      (f.carryOver node chosen links factors).Yields audience factors' → I factors'
  | [], _, _, _, hfactors, h => by
    cases Traced.yields_pure.mp h
    exact hfactors
  | c :: links, factors, factors', hstep, hfactors, h => by
    obtain ⟨hc, hstep⟩ := List.forall_mem_cons.mp hstep
    rw [carryOver] at h
    split at h
    · exact carryOver_preserves hstep hfactors h
    · rename_i hnone
      obtain ⟨_, -, h⟩ := Traced.yields_bind.mp h
      exact carryOver_preserves hstep (hc factors (Bool.not_eq_true _ ▸ hnone) hfactors) h

theorem carryOver_keyed {P : OpId → Prop} {node : OpId} {chosen : List Nat}
    {links : List Correlation} {factors factors' : OpMap (List Nat)}
    (hlinks : ∀ c ∈ links, P c.first ∧ P c.second) (hkeyed : OpMap.Keyed P factors)
    (h : (f.carryOver node chosen links factors).Yields audience factors') :
    OpMap.Keyed P factors' :=
  carryOver_preserves (fun c hc _ _ hkeyed =>
    hkeyed.put (Correlation.other_of_both (hlinks c hc) node) _) hkeyed h

theorem chooseFactors_yields {node : OpId} {target : Nat} {base : List Nat}
    {shape : List (Option Nat)} {links : List Correlation} {state state' : Agreement}
    (h : (f.chooseFactors node target base shape links state).Yields audience state') :
    (f.carryOver node (shareFactor target base shape) links
      (state.factors.put node (shareFactor target base shape))).Yields audience state'.factors := by
  obtain ⟨_, -, h⟩ := Traced.yields_bind.mp h
  obtain ⟨factors, hfactors, h⟩ := Traced.yields_bind.mp h
  cases Traced.yields_pure.mp h
  exact hfactors

/-- The share that a node takes of what it aims at, from a base. -/
def share (f : Func) (budgets : Budgets) (config : Config) (node : OpId) (base : List Nat)
    (band : Band) : List Nat :=
  shareFactor (config.target budgets node) base (f.tripsOf band)

/-- **What deciding on a node does.**  Factors carried over to it that do not fit are taken away.
Else the node takes a share, from those factors or from ones, and carries it over. -/
theorem agreeOnNode_yields {budgets : Budgets} {config : Config} {node : OpId}
    {links : List Correlation} {state state' : Agreement}
    (h : (f.agreeOnNode budgets config node links state).Yields audience state') :
    ∃ band, f.primaryBand node = .ok band ∧
      ((∃ carried, state.factors.get? node = some carried ∧ carried.length ≠ band.length ∧
          state'.factors = state.factors.remove node) ∨
        ∃ base, (state.factors.get? node).getD (List.replicate band.length 1) = base ∧
          base.length = band.length ∧
          (f.carryOver node (f.share budgets config node base band) links
            (state.factors.put node (f.share budgets config node base band))).Yields audience
              state'.factors) := by
  obtain ⟨band, hband, h⟩ := Traced.yields_bind.mp h
  rw [Traced.yields_lift] at hband
  obtain ⟨shape, hshape, h⟩ := Traced.yields_bind.mp h
  rw [Traced.yields_lift] at hshape
  obtain rfl := bandTrips_eq_ok hshape
  refine ⟨band, hband, ?_⟩
  split at h
  · rename_i hnone
    exact .inr ⟨_, by rw [hnone]; rfl, List.length_replicate, chooseFactors_yields h⟩
  · rename_i carried hsome
    split at h
    · rename_i hlen
      exact .inr ⟨carried, by rw [hsome]; rfl, hlen, chooseFactors_yields h⟩
    · rename_i hlen
      obtain ⟨_, -, h⟩ := Traced.yields_bind.mp h
      obtain ⟨_, -, h⟩ := Traced.yields_bind.mp h
      cases Traced.yields_pure.mp h
      exact .inl ⟨carried, hsome, hlen, rfl⟩

theorem agreeOnNode_keyed {P : OpId → Prop} {budgets : Budgets} {config : Config} {node : OpId}
    {links : List Correlation} {state state' : Agreement} (hnode : P node)
    (hlinks : ∀ c ∈ links, P c.first ∧ P c.second) (hkeyed : OpMap.Keyed P state.factors)
    (h : (f.agreeOnNode budgets config node links state).Yields audience state') :
    OpMap.Keyed P state'.factors := by
  obtain ⟨band, -, ⟨_, -, -, hremove⟩ | ⟨base, -, -, hcarry⟩⟩ := agreeOnNode_yields h
  · rw [hremove]
    exact hkeyed.filter _
  · exact carryOver_keyed hlinks (hkeyed.put hnode _) hcarry

theorem agreeOnNodes_keyed {P : OpId → Prop} {budgets : Budgets} {config : Config} :
    ∀ {entries : List (OpId × List Correlation)} {state state' : Agreement},
      Linked P entries → OpMap.Keyed P state.factors →
      (f.agreeOnNodes budgets config entries state).Yields audience state' →
      OpMap.Keyed P state'.factors
  | [], _, _, _, hkeyed, h => by
    cases Traced.yields_pure.mp h
    exact hkeyed
  | (node, links) :: entries, state, state', hlinked, hkeyed, h => by
    obtain ⟨⟨hnode, hlinks⟩, hlinked⟩ := List.forall_mem_cons.mp hlinked
    rw [agreeOnNodes] at h
    split at h
    · exact agreeOnNodes_keyed hlinked hkeyed h
    · obtain ⟨state₁, hstate, h⟩ := Traced.yields_bind.mp h
      exact agreeOnNodes_keyed hlinked (agreeOnNode_keyed hnode hlinks hkeyed hstate) h

/-- **Factors are agreed for nodes of the function**, once for each. -/
theorem agree_keyed {P : OpId → Prop} {budgets : Budgets} {links : Correlations} {config : Config}
    {agreement : Agreement} (hlinked : Linked P links)
    (h : (f.agree budgets links config).Yields audience agreement) :
    OpMap.Keyed P agreement.factors :=
  agreeOnNodes_keyed (fun e he => hlinked e (links.ranked_perm.mem_iff.mp he))
    OpMap.keyed_nil h

end Func
end Dataflow
