/-
# How sharing budgets out ends

The pass that shares budgets out takes the schedules one by one.  A schedule is refused if nothing
comes in for it, or if it or one of its nodes has no price (`Func.Refuses`); it stops the pass with
a fault if a price that is asked for does (`Func.Baffles`); and otherwise its nodes get their parts
and the pass goes on.  Nothing else can happen on a function in order, whatever the prices are.

So the pass ends at the first schedule that is refused, or that stops it
(`Func.Nested.budgets_refused_iff`, `Func.Nested.budgets_stopped_iff`).
-/
import Dataflow.Proofs.Costs
import Dataflow.Proofs.Participants

namespace Dataflow
namespace Func

variable {f : Func} {audience : Audience} {prices : Prices} {root : Nat}

/-! ## 1. What comes in -/

/-- What comes in for a schedule is a budget or a refusal. -/
theorem Nested.incomingBudget_isOk (h : f.Nested) {id : OpId} (hid : f.Reaches id) {s : Schedule}
    (hk : f.kindOf id = some (.schedule s)) (budgets : Budgets) (root : Nat) :
    ∃ incoming, f.incomingBudget id budgets root = .ok incoming := by
  obtain ⟨node?, hnode⟩ := h.nodeAround_isOk hid
  rw [incomingBudget, hnode, Checked.ok_bind]
  cases node? with
  | none => exact ⟨.ok root, rfl⟩
  | some parent =>
    obtain ⟨name, hname⟩ := NodeOver.isNode (inNode_of_nodeAround hnode)
    cases hget : budgets.get? parent with
    | none =>
      obtain ⟨text, htext⟩ := label_isOk hname rfl
      simp only [hget, htext, Checked.ok_bind]
      exact ⟨_, rfl⟩
    | some budget =>
      simp only [hget, kind_eq_ok.mpr hk, Checked.ok_bind]
      exact ⟨_, rfl⟩

/-- It is a refusal only if the node around the schedule has no budget. -/
theorem incomingBudget_eq_error {id : OpId} {budgets : Budgets} {reason : Reason}
    (h : f.incomingBudget id budgets root = .ok (.error reason)) :
    ∃ node name, f.nodeAround id = .ok (some node) ∧ budgets.get? node = none
      ∧ f.label node = .ok name ∧ reason = .missingParentBudget node name := by
  obtain ⟨node?, hnode, h⟩ := Checked.bind_eq_ok.mp h
  cases node? with
  | none => cases h
  | some node =>
    cases hget : budgets.get? node with
    | none =>
      simp only [hget] at h
      obtain ⟨name, hname, h⟩ := Checked.bind_eq_ok.mp h
      cases h
      exact ⟨node, name, hnode, hget, hname, rfl⟩
    | some budget =>
      simp only [hget] at h
      obtain ⟨k, -, h⟩ := Checked.bind_eq_ok.mp h
      cases k <;> cases h

/-! ## 2. One schedule -/

/-- The node has a price. -/
def Priced (f : Func) (prices : Prices) (node : OpId) : Prop :=
  ∃ cost, prices.node f node = .ok (some cost)

/-- `f.AsksFor prices s node`: the schedule and its nodes before this one have prices. -/
def AsksFor (f : Func) (prices : Prices) (s node : OpId) : Prop :=
  (∃ total, prices.schedule f s = .ok (some total))
    ∧ ∃ before after, f.parts s = before ++ node :: after ∧ ∀ b ∈ before, f.Priced prices b

/-- `f.Baffles prices s fault`: a price that is asked for at the schedule is a fault. -/
inductive Baffles (f : Func) (prices : Prices) (s : OpId) (fault : Fault) : Prop
  | schedule : prices.schedule f s = .error fault → f.Baffles prices s fault
  | node {node : OpId} : f.AsksFor prices s node → prices.node f node = .error fault →
      f.Baffles prices s fault

/-- `f.Refuses prices root budgets s reason`: why the schedule gets no budgets. -/
inductive Refuses (f : Func) (prices : Prices) (root : Nat) (budgets : Budgets) (s : OpId) :
    Reason → Prop
  | incoming {reason : Reason} : f.incomingBudget s budgets root = .ok (.error reason) →
      f.Refuses prices root budgets s reason
  | schedule {budget : Nat} {name : String} : f.incomingBudget s budgets root = .ok (.ok budget) →
      prices.schedule f s = .ok none → f.label s = .ok name →
      f.Refuses prices root budgets s (.unpricedSchedule s name)
  | node {budget : Nat} {node : OpId} {name : String} :
      f.incomingBudget s budgets root = .ok (.ok budget) → f.AsksFor prices s node →
      prices.node f node = .ok none → f.label node = .ok name →
      f.Refuses prices root budgets s (.unpricedNode node name)

/-- Nodes with prices get their parts, and those after them get theirs next. -/
theorem budgetNodes_append (audience : Audience) (prices : Prices) (budget total : Nat) :
    ∀ {before : List OpId} (budgets : Budgets),
    (∀ node ∈ before, (∃ name, f.kindOf node = some (.node name)) ∧ f.Priced prices node) →
      ∃ budgets', ∀ rest, (f.budgetNodes prices budget total (before ++ rest) budgets).Agrees
        audience (f.budgetNodes prices budget total rest budgets')
  | [], budgets, _ => ⟨budgets, fun _ => .refl _⟩
  | node :: before, budgets, h => by
    obtain ⟨⟨⟨name, hname⟩, cost, hcost⟩, h⟩ := List.forall_mem_cons.mp h
    obtain ⟨budgets', hrest⟩ :=
      budgetNodes_append audience prices budget total
        (budgets.put node (nodeShare budget cost total)) h
    refine ⟨budgets', fun rest => .trans ?_ (hrest rest)⟩
    obtain ⟨text, htext⟩ := label_isOk hname rfl
    rw [List.cons_append, budgetNodes]
    refine ((Traced.yields_lift.mpr hcost).agrees_bind _).trans ?_
    refine Traced.Yields.agrees_bind (a := ()) (Traced.yields_note.mpr fun _ => ?_) _
    simp only [htext, Checked.ok_bind]
    exact ⟨_, rfl⟩

/-- A schedule with a budget and a price leaves the rest to its nodes. -/
theorem budgetSchedules_cons_agrees {s : OpId} {budgets : Budgets} {budget total : Nat}
    {nodes : List OpId} (hincoming : f.incomingBudget s budgets root = .ok (.ok budget))
    (htotal : prices.schedule f s = .ok (some total)) (hnodes : f.childNodes s = .ok nodes)
    (rest : List OpId) :
    (f.budgetSchedules prices root (s :: rest) budgets).Agrees audience (do
      match ← f.budgetNodes prices budget total nodes budgets with
      | .error reason => return .error reason
      | .ok budgets => f.budgetSchedules prices root rest budgets) := by
  rw [budgetSchedules]
  refine ((Traced.yields_lift.mpr hincoming).agrees_bind _).trans ?_
  refine ((Traced.yields_lift.mpr htotal).agrees_bind _).trans ?_
  exact (Traced.yields_lift.mpr hnodes).agrees_bind _

section Schedule

variable {s : OpId} {schedule : Schedule} {budgets : Budgets}

theorem AsksFor.nodes_agree (hk : f.kindOf s = some (.schedule schedule)) {node : OpId}
    (hasks : f.AsksFor prices s node) (audience : Audience) (budget total : Nat)
    (budgets : Budgets) : ∃ budgets' after,
      (f.budgetNodes prices budget total (f.parts s) budgets).Agrees audience
        (f.budgetNodes prices budget total (node :: after) budgets') := by
  obtain ⟨-, before, after, hparts, hbefore⟩ := hasks
  obtain ⟨budgets', hagrees⟩ :=
    budgetNodes_append audience prices budget total budgets fun b hb =>
      ⟨isNode_of_mem_parts hk (by simp [hparts, hb]), hbefore b hb⟩
  exact ⟨budgets', after, by rw [hparts]; exact hagrees _⟩

/-- A schedule that is refused ends the pass. -/
theorem Nested.yields_of_refuses (h : f.Nested) (hs : f.Reaches s)
    (hk : f.kindOf s = some (.schedule schedule)) {reason : Reason}
    (hrefuses : f.Refuses prices root budgets s reason) (rest : List OpId) :
    (f.budgetSchedules prices root (s :: rest) budgets).Yields audience (.error reason) := by
  cases hrefuses with
  | incoming hincoming =>
    rw [budgetSchedules, Traced.yields_lift_bind hincoming]
    exact Traced.yields_pure.mpr rfl
  | schedule hincoming hprice hname =>
    rw [budgetSchedules, Traced.yields_lift_bind hincoming]
    refine (Traced.yields_lift_bind hprice).mpr ?_
    exact (Traced.yields_lift_bind hname).mpr (Traced.yields_pure.mpr rfl)
  | @node budget node name hincoming hasks hprice hname =>
    obtain ⟨total, htotal⟩ := hasks.1
    obtain ⟨budgets', after, hagrees⟩ := hasks.nodes_agree hk audience budget total budgets
    have hnodes : (f.budgetNodes prices budget total (f.parts s) budgets).Yields audience
        (.error (.unpricedNode node name)) := by
      refine (hagrees.1 _).mpr ?_
      rw [budgetNodes, Traced.yields_lift_bind hprice]
      exact (Traced.yields_lift_bind hname).mpr (Traced.yields_pure.mpr rfl)
    refine ((budgetSchedules_cons_agrees hincoming htotal (h.childNodes_eq hs hk) rest).1 _).mpr ?_
    exact Traced.yields_bind.mpr ⟨_, hnodes, Traced.yields_pure.mpr rfl⟩

/-- A fault in a price stops the pass. -/
theorem Nested.faults_of_baffles (h : f.Nested) (hs : f.Reaches s)
    (hk : f.kindOf s = some (.schedule schedule)) {budget : Nat} {fault : Fault}
    (hincoming : f.incomingBudget s budgets root = .ok (.ok budget))
    (hbaffles : f.Baffles prices s fault) (rest : List OpId) :
    (f.budgetSchedules prices root (s :: rest) budgets).Faults audience fault := by
  cases hbaffles with
  | schedule hprice =>
    rw [budgetSchedules]
    refine (((Traced.yields_lift.mpr hincoming).agrees_bind _).2 _).mpr ?_
    exact Traced.faults_lift_bind hprice
  | @node node hasks hprice =>
    obtain ⟨total, htotal⟩ := hasks.1
    obtain ⟨budgets', after, hagrees⟩ := hasks.nodes_agree hk audience budget total budgets
    have hnodes :
        (f.budgetNodes prices budget total (f.parts s) budgets).Faults audience fault := by
      refine (hagrees.2 _).mpr ?_
      rw [budgetNodes]
      exact Traced.faults_lift_bind hprice
    refine ((budgetSchedules_cons_agrees hincoming htotal (h.childNodes_eq hs hk) rest).2 _).mpr ?_
    exact hnodes.bind _

/-- A schedule with a budget whose prices are all known shares it out, and the pass goes on. -/
theorem Nested.agrees_of_priced (h : f.Nested) (hs : f.Reaches s)
    (hk : f.kindOf s = some (.schedule schedule)) {budget total : Nat}
    (hincoming : f.incomingBudget s budgets root = .ok (.ok budget))
    (htotal : prices.schedule f s = .ok (some total))
    (hpriced : ∀ node ∈ f.parts s, f.Priced prices node) (audience : Audience) :
    ∃ budgets', ∀ rest, (f.budgetSchedules prices root (s :: rest) budgets).Agrees audience
      (f.budgetSchedules prices root rest budgets') := by
  obtain ⟨budgets', hagrees⟩ :=
    budgetNodes_append audience prices budget total budgets fun node hnode =>
      ⟨isNode_of_mem_parts hk hnode, hpriced node hnode⟩
  have hnodes : (f.budgetNodes prices budget total (f.parts s) budgets).Yields audience
      (.ok budgets') := by
    have hnil := (hagrees []).1 (.ok budgets')
    rw [List.append_nil] at hnil
    exact hnil.mpr (Traced.yields_pure.mpr rfl)
  refine ⟨budgets', fun rest => ?_⟩
  exact (budgetSchedules_cons_agrees hincoming htotal (h.childNodes_eq hs hk) rest).trans
    (hnodes.agrees_bind _)

/-- **A schedule is refused, or a price that it asks for is a fault, or all its prices are
known.** -/
theorem Nested.schedule_cases (h : f.Nested) (hs : f.Reaches s)
    (hk : f.kindOf s = some (.schedule schedule)) (prices : Prices) (root : Nat)
    (budgets : Budgets) :
    (∃ reason, f.Refuses prices root budgets s reason)
    ∨ ∃ budget, f.incomingBudget s budgets root = .ok (.ok budget)
      ∧ ((∃ fault, f.Baffles prices s fault)
        ∨ ∃ total, prices.schedule f s = .ok (some total)
            ∧ ∀ node ∈ f.parts s, f.Priced prices node) := by
  obtain ⟨incoming, hincoming⟩ := h.incomingBudget_isOk hs hk budgets root
  cases incoming with
  | error reason => exact .inl ⟨reason, .incoming hincoming⟩
  | ok budget =>
    rcases hprice : prices.schedule f s with fault | _ | total
    · exact .inr ⟨budget, hincoming, .inl ⟨fault, .schedule hprice⟩⟩
    · obtain ⟨name, hname⟩ := label_isOk hk rfl
      exact .inl ⟨_, .schedule hincoming hprice hname⟩
    · rcases all_or_first (f.Priced prices) (f.parts s) with
        hall | ⟨before, node, after, hparts, hbefore, hnot⟩
      · exact .inr ⟨budget, hincoming, .inr ⟨total, rfl, hall⟩⟩
      · have hasks : f.AsksFor prices s node := ⟨⟨total, hprice⟩, before, after, hparts, hbefore⟩
        rcases hcost : prices.node f node with fault | _ | cost
        · exact .inr ⟨budget, hincoming, .inl ⟨fault, .node hasks hcost⟩⟩
        · have hmem : node ∈ f.parts s := by simp [hparts]
          obtain ⟨_, hnode⟩ := isNode_of_mem_parts hk hmem
          obtain ⟨name, hname⟩ := label_isOk hnode rfl
          exact .inl ⟨_, .node hincoming hasks hcost hname⟩
        · exact absurd ⟨cost, hcost⟩ hnot

end Schedule

/-! ## 3. All schedules -/

/-- Once some schedules have shared their budgets out, the others do so from there. -/
theorem budgetSchedules_append : ∀ {before : List OpId} {budgets budgets' : Budgets},
    (f.budgetSchedules prices root before budgets).Yields audience (.ok budgets') → ∀ rest,
      (f.budgetSchedules prices root (before ++ rest) budgets).Agrees audience
        (f.budgetSchedules prices root rest budgets')
  | [], budgets, budgets', h, rest => by
    cases Traced.yields_pure.mp h
    exact .refl _
  | s :: before, budgets, budgets', h, rest => by
    obtain ⟨budget, total, nodes, budgets₁, hincoming, htotal, hnodes, hshared, h⟩ :=
      budgetSchedules_cons_yields h
    refine (budgetSchedules_cons_agrees hincoming htotal hnodes _).trans ?_
    exact (hshared.agrees_bind _).trans (budgetSchedules_append h rest)

/-- **A run over schedules shares out all budgets, or ends at one that is refused or baffles.** -/
theorem Nested.budgetSchedules_cases (h : f.Nested) (audience : Audience) (prices : Prices)
    (root : Nat) : ∀ {schedules : List OpId} (budgets : Budgets),
      (∀ s ∈ schedules, f.Reaches s ∧ ∃ schedule, f.kindOf s = some (.schedule schedule)) →
      (∃ budgets', (f.budgetSchedules prices root schedules budgets).Yields audience (.ok budgets'))
      ∨ ∃ before s after budgets', schedules = before ++ s :: after
        ∧ (f.budgetSchedules prices root before budgets).Yields audience (.ok budgets')
        ∧ ((∃ reason, f.Refuses prices root budgets' s reason)
          ∨ ∃ budget fault, f.incomingBudget s budgets' root = .ok (.ok budget)
              ∧ f.Baffles prices s fault)
  | [], budgets, _ => .inl ⟨budgets, Traced.yields_pure.mpr rfl⟩
  | s :: rest, budgets, hall => by
    obtain ⟨⟨hs, schedule, hk⟩, hrest⟩ := List.forall_mem_cons.mp hall
    have hnil : (f.budgetSchedules prices root [] budgets).Yields audience (.ok budgets) :=
      Traced.yields_pure.mpr rfl
    rcases h.schedule_cases hs hk prices root budgets with
      hrefuses | ⟨budget, hincoming, ⟨fault, hbaffles⟩ | ⟨total, htotal, hpriced⟩⟩
    · exact .inr ⟨[], s, rest, budgets, rfl, hnil, .inl hrefuses⟩
    · exact .inr ⟨[], s, rest, budgets, rfl, hnil, .inr ⟨budget, fault, hincoming, hbaffles⟩⟩
    · obtain ⟨budgets₁, hagrees⟩ := h.agrees_of_priced hs hk hincoming htotal hpriced audience
      rcases h.budgetSchedules_cases audience prices root budgets₁ hrest with
        ⟨budgets', hall⟩ | ⟨before, s', after, budgets', rfl, hbefore, hend⟩
      · exact .inl ⟨budgets', ((hagrees rest).1 _).mpr hall⟩
      · exact .inr ⟨s :: before, s', after, budgets', rfl, ((hagrees before).1 _).mpr hbefore, hend⟩

section Runs

variable {schedules : List OpId} {budgets : Budgets}

/-- **A run is refused exactly at a schedule that is**, when all before it have got their
budgets... -/
theorem Nested.budgetSchedules_refused_iff (h : f.Nested)
    (hall : ∀ s ∈ schedules, f.Reaches s ∧ ∃ schedule, f.kindOf s = some (.schedule schedule))
    {reason : Reason} :
    (f.budgetSchedules prices root schedules budgets).Yields audience (.error reason) ↔
      ∃ before s after budgets', schedules = before ++ s :: after
        ∧ (f.budgetSchedules prices root before budgets).Yields audience (.ok budgets')
        ∧ f.Refuses prices root budgets' s reason := by
  constructor
  · intro hyields
    rcases h.budgetSchedules_cases audience prices root budgets hall with
      ⟨budgets', hok⟩ | ⟨before, s, after, budgets', rfl, hbefore, hend⟩
    · cases hyields.unique hok
    · obtain ⟨hs, schedule, hk⟩ := hall s (by simp)
      have hrest := budgetSchedules_append hbefore (s :: after)
      rcases hend with ⟨reason', hrefuses⟩ | ⟨budget, fault, hincoming, hbaffles⟩
      · cases ((hrest.1 _).mp hyields).unique (h.yields_of_refuses hs hk hrefuses after)
        exact ⟨before, s, after, budgets', rfl, hbefore, hrefuses⟩
      · exact absurd (h.faults_of_baffles hs hk hincoming hbaffles after)
          ((hrest.1 _).mp hyields).not_faults
  · rintro ⟨before, s, after, budgets', rfl, hbefore, hrefuses⟩
    obtain ⟨hs, schedule, hk⟩ := hall s (by simp)
    exact ((budgetSchedules_append hbefore _).1 _).mpr (h.yields_of_refuses hs hk hrefuses after)

/-- **...and is stopped by a fault exactly at one that baffles.** -/
theorem Nested.budgetSchedules_baffled_iff (h : f.Nested)
    (hall : ∀ s ∈ schedules, f.Reaches s ∧ ∃ schedule, f.kindOf s = some (.schedule schedule))
    {fault : Fault} :
    (f.budgetSchedules prices root schedules budgets).Faults audience fault ↔
      ∃ before s after budgets' budget, schedules = before ++ s :: after
        ∧ (f.budgetSchedules prices root before budgets).Yields audience (.ok budgets')
        ∧ f.incomingBudget s budgets' root = .ok (.ok budget) ∧ f.Baffles prices s fault := by
  constructor
  · intro hfaults
    rcases h.budgetSchedules_cases audience prices root budgets hall with
      ⟨budgets', hok⟩ | ⟨before, s, after, budgets', rfl, hbefore, hend⟩
    · exact absurd hfaults hok.not_faults
    · obtain ⟨hs, schedule, hk⟩ := hall s (by simp)
      have hrest := budgetSchedules_append hbefore (s :: after)
      rcases hend with ⟨reason, hrefuses⟩ | ⟨budget, fault', hincoming, hbaffles⟩
      · exact absurd ((hrest.2 _).mp hfaults) (h.yields_of_refuses hs hk hrefuses after).not_faults
      · cases ((hrest.2 _).mp hfaults).unique (h.faults_of_baffles hs hk hincoming hbaffles after)
        exact ⟨before, s, after, budgets', budget, rfl, hbefore, hincoming, hbaffles⟩
  · rintro ⟨before, s, after, budgets', budget, rfl, hbefore, hincoming, hbaffles⟩
    obtain ⟨hs, schedule, hk⟩ := hall s (by simp)
    exact ((budgetSchedules_append hbefore _).2 _).mpr
      (h.faults_of_baffles hs hk hincoming hbaffles after)

end Runs

/-! ## 4. The pass -/

/-- The walk over a function finds its schedules... -/
theorem Nested.mem_schedules (h : f.Nested) {schedules : List OpId}
    (hschedules : f.schedules = .ok schedules) {id : OpId} :
    id ∈ schedules ↔ f.Reaches id ∧ ∃ s, f.kindOf id = some (.schedule s) := by
  rw [h.mem_findAll hschedules]
  refine and_congr_right fun _ => ⟨?_, ?_⟩
  · rintro ⟨op, hop, hkind⟩
    cases hk : op.kind with
    | schedule s => exact ⟨s, hk ▸ kindOf_eq hop⟩
    | _ => simp [hk, Kind.isSchedule] at hkind
  · rintro ⟨s, hk⟩
    obtain ⟨op, hop, hkind⟩ := Option.map_eq_some_iff.mp hk
    exact ⟨op, hop, by rw [hkind]; rfl⟩

/-- ...and comes to an end. -/
theorem Nested.exists_schedules (h : f.Nested) : ∃ schedules, f.schedules = .ok schedules
    ∧ ∀ id ∈ schedules, f.Reaches id ∧ ∃ s, f.kindOf id = some (.schedule s) := by
  obtain ⟨schedules, hschedules, -⟩ := h.findAll_isOk (·.kind.isSchedule)
  exact ⟨schedules, hschedules, fun id hid => (h.mem_schedules hschedules).mp hid⟩

/-- `f.GetsTo prices audience root s budgets`: the pass comes to a schedule, with these budgets for
the nodes of the schedules before it. -/
def GetsTo (f : Func) (prices : Prices) (audience : Audience) (root : Nat) (s : OpId)
    (budgets : Budgets) : Prop :=
  ∃ before after, f.schedules = .ok (before ++ s :: after)
    ∧ (f.budgetSchedules prices root before []).Yields audience (.ok budgets)

/-- `f.StopsAt prices audience root s fault`: the schedule has a budget to share out, but a price
that it asks for is a fault. -/
def StopsAt (f : Func) (prices : Prices) (audience : Audience) (root : Nat) (s : OpId)
    (fault : Fault) : Prop :=
  ∃ budgets budget, f.GetsTo prices audience root s budgets
    ∧ f.incomingBudget s budgets root = .ok (.ok budget) ∧ f.Baffles prices s fault

theorem GetsTo.reaches {s : OpId} {budgets : Budgets}
    (hgets : f.GetsTo prices audience root s budgets) (h : f.Nested) :
    f.Reaches s ∧ ∃ schedule, f.kindOf s = some (.schedule schedule) := by
  obtain ⟨before, after, hschedules, -⟩ := hgets
  exact (h.mem_schedules hschedules).mp (by simp)

/-- **The pass is refused exactly if it gets to a schedule that is...** -/
theorem Nested.budgets_refused_iff (h : f.Nested) {reason : Reason} :
    (f.budgets prices root).Yields audience (.error reason) ↔
      ∃ s budgets, f.GetsTo prices audience root s budgets
        ∧ f.Refuses prices root budgets s reason := by
  obtain ⟨schedules, hschedules, hall⟩ := h.exists_schedules
  rw [budgets, Traced.yields_lift_bind hschedules, h.budgetSchedules_refused_iff hall]
  constructor
  · rintro ⟨before, s, after, budgets, rfl, hbefore, hrefuses⟩
    exact ⟨s, budgets, ⟨before, after, hschedules, hbefore⟩, hrefuses⟩
  · rintro ⟨s, budgets, ⟨before, after, hschedules', hbefore⟩, hrefuses⟩
    cases hschedules.symm.trans hschedules'
    exact ⟨before, s, after, budgets, rfl, hbefore, hrefuses⟩

/-- **...and stopped exactly if it gets to one that stops it.** -/
theorem Nested.budgets_stopped_iff (h : f.Nested) {fault : Fault} :
    (f.budgets prices root).Faults audience fault ↔
      ∃ s, f.StopsAt prices audience root s fault := by
  obtain ⟨schedules, hschedules, hall⟩ := h.exists_schedules
  rw [budgets, ((Traced.yields_lift.mpr hschedules).agrees_bind _).2,
    h.budgetSchedules_baffled_iff hall]
  constructor
  · rintro ⟨before, s, after, budgets, budget, rfl, hbefore, hrest⟩
    exact ⟨s, budgets, budget, ⟨before, after, hschedules, hbefore⟩, hrest⟩
  · rintro ⟨s, budgets, budget, ⟨before, after, hschedules', hbefore⟩, hrest⟩
    cases hschedules.symm.trans hschedules'
    exact ⟨before, s, after, budgets, budget, rfl, hbefore, hrest⟩

/-- The pass comes to an end: with budgets, with a refusal, or at a fault. -/
theorem Nested.budgets_cases (h : f.Nested) (audience : Audience) (prices : Prices) (root : Nat) :
    (∃ budgets, (f.budgets prices root).Yields audience (.ok budgets))
    ∨ (∃ reason, (f.budgets prices root).Yields audience (.error reason))
    ∨ ∃ s fault, f.StopsAt prices audience root s fault := by
  obtain ⟨schedules, hschedules, hall⟩ := h.exists_schedules
  rcases h.budgetSchedules_cases audience prices root [] hall with
    ⟨budgets, hok⟩ | ⟨before, s, after, budgets, rfl, hbefore, hend⟩
  · exact .inl ⟨budgets, (Traced.yields_lift_bind hschedules).mpr hok⟩
  · have hgets : f.GetsTo prices audience root s budgets := ⟨before, after, hschedules, hbefore⟩
    rcases hend with ⟨reason, hrefuses⟩ | ⟨budget, fault, hincoming, hbaffles⟩
    · exact .inr (.inl ⟨reason, h.budgets_refused_iff.mpr ⟨s, budgets, hgets, hrefuses⟩⟩)
    · exact .inr (.inr ⟨s, fault, budgets, budget, hgets, hincoming, hbaffles⟩)

end Func
end Dataflow
