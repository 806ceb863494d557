/-
# The order of execution

`Func.timeline` lists all that a run of the function executes, in order: every operation each time
it is executed, with the values that the induction variables have then.

An operation is executed once for every choice of values for the loops around it
(`Func.Nested.mem_timeline`).  The executions come in the order of the choices, outer loops first,
and in the order of the text where the choices agree (`Func.Nested.timeline_pairwise`).  What is
not reached plays no part (`Func.SameReached.timeline_eq`).
-/
import Dataflow.Proofs.Execution
import Dataflow.Proofs.Precedence

namespace Dataflow

namespace Func

variable {f : Func}

/-! ## 1. What is executed -/

/-- The values that the induction variable of the loop in a slot takes, in order. -/
def valuesOf (f : Func) (l : OpId) : List Int :=
  (((f.kindOf l).bind Kind.loop?).bind Loop.values?).getD []

/-- `f.Around l id`: a loop that `id` is nested in. -/
def Around (f : Func) (l id : OpId) : Prop := f.IsLoop l ∧ f.Above l id ∧ l ≠ id

theorem turnList_of_isLoop {id : OpId} (hloop : f.IsLoop id) (env : Env) :
    f.turnList id env = (f.valuesOf id).map (Function.update env id) := by
  obtain ⟨l, hl⟩ := hloop
  cases hvalues : l.values? <;> simp [turnList, valuesOf, hl, Kind.turns?, Kind.loop?, hvalues]

theorem turnList_of_not_isLoop {id : OpId} (hlive : f.IsLive id) (hloop : ¬ f.IsLoop id)
    (env : Env) : f.turnList id env = [env] := by
  obtain ⟨op, hop, -⟩ := hlive
  have hk : f.kindOf id = some op.kind := kindOf_eq hop
  cases hkind : op.kind with
  | loop l => exact absurd ⟨l, hkind ▸ hk⟩ hloop
  | _ => simp [turnList, hk, hkind, Kind.turns?]

/-- The environment `e` is one in which `x` is executed when `id` is executed in `env`: the loops
around `x` from `id` on have one of their values, and the others the value that they had. -/
def Turn (f : Func) (id : OpId) (env : Env) (x : OpId) (e : Env) : Prop :=
  ∀ l, (f.Around l x ∧ f.Above id l → e l ∈ f.valuesOf l) ∧
    (¬ (f.Around l x ∧ f.Above id l) → e l = env l)

namespace Nested

/-- The loops from an operation on are the operation and those from the next one on. -/
theorem around_iff_child (h : f.Nested) {id child x l : OpId} (hid : f.Reaches id)
    (hchild : child ∈ f.bodyOf id) (hx : f.Reaches x) (hup : f.Above child x) :
    f.Around l x ∧ f.Above id l ↔
      l = id ∧ f.IsLoop id ∨ f.Around l x ∧ f.Above child l := by
  have hparent : f.IsParent id child := h.parentOf_nested id hid child hchild
  constructor
  · rintro ⟨hl, hidl⟩
    by_cases heq : l = id
    · exact .inl ⟨heq, heq ▸ hl.1⟩
    · refine .inr ⟨hl, ?_⟩
      have hlr := h.reaches_of_above hl.2.1 hx
      rcases (h.above_iff_body hid hlr).mp hidl with heq' | ⟨child', hchild', hup'⟩
      · exact absurd heq'.symm heq
      · rwa [h.eq_of_above_siblings hid hchild hchild' hup (hup'.trans hl.2.1)]
  · rintro (⟨rfl, hloop⟩ | ⟨hl, hup'⟩)
    · refine ⟨⟨hloop, hup.head hparent, ?_⟩, .refl⟩
      rintro rfl
      exact h.not_above_owner hid hchild hup
    · exact ⟨hl, hup'.head hparent⟩

/-- No loop is both nested in an operation and around it. -/
theorem turn_self (h : f.Nested) {id : OpId} (hid : f.Reaches id) {env e : Env} :
    f.Turn id env id e ↔ e = env := by
  have hnone : ∀ l, ¬ (f.Around l id ∧ f.Above id l) := by
    rintro l ⟨⟨-, hup, hne⟩, hup'⟩
    exact hne (h.above_antisymm hid hup hup')
  constructor
  · intro hturn
    exact funext fun l => (hturn l).2 (hnone l)
  · rintro rfl l
    exact ⟨fun hl => absurd hl (hnone l), fun _ => rfl⟩

/-- An execution below an operation belongs to one of its turns. -/
theorem turn_iff_child (h : f.Nested) {id child x : OpId} (hid : f.Reaches id)
    (hchild : child ∈ f.bodyOf id) (hx : f.Reaches x) (hup : f.Above child x) {env e : Env} :
    f.Turn id env x e ↔ ∃ e₁ ∈ f.turnList id env, f.Turn child e₁ x e := by
  have hsplit := fun l => h.around_iff_child (l := l) hid hchild hx hup
  have hself : ¬ (f.Around id x ∧ f.Above child id) := fun hcon =>
    h.not_above_owner hid hchild hcon.2
  by_cases hloop : f.IsLoop id
  · rw [turnList_of_isLoop hloop]
    constructor
    · intro hturn
      refine ⟨Function.update env id (e id), List.mem_map_of_mem ((hturn id).1 ?_), fun l => ?_⟩
      · exact (hsplit id).mpr (.inl ⟨rfl, hloop⟩)
      · refine ⟨fun hl => (hturn l).1 ((hsplit l).mpr (.inr hl)), fun hnot => ?_⟩
        by_cases hl : l = id
        · rw [hl, Function.update_self]
        · rw [Function.update_of_ne hl]
          refine (hturn l).2 (mt (hsplit l).mp ?_)
          rintro (⟨heq, -⟩ | hl')
          · exact hl heq
          · exact hnot hl'
    · rintro ⟨e₁, he₁, hturn⟩ l
      obtain ⟨iv, hiv, rfl⟩ := List.mem_map.mp he₁
      rw [hsplit l]
      constructor
      · rintro (⟨rfl, -⟩ | hl)
        · rw [(hturn l).2 hself, Function.update_self]
          exact hiv
        · exact (hturn l).1 hl
      · intro hnot
        rw [not_or, not_and] at hnot
        have hne : l ≠ id := fun heq => hnot.1 heq hloop
        rw [(hturn l).2 hnot.2, Function.update_of_ne hne]
  · rw [turnList_of_not_isLoop (h.live id hid) hloop]
    simp only [List.mem_singleton, exists_eq_left]
    refine forall_congr' fun l => ?_
    rw [hsplit l]
    simp only [hloop, and_false, false_or]

/-- **An operation is executed in every environment that chooses values for the loops around
it**, from the one on that is executed. -/
theorem mem_visits (h : f.Nested) : ∀ id, f.Reaches id → ∀ (env : Env) (x : OpId) (e : Env),
    (x, e) ∈ f.visits env id ↔ f.Reaches x ∧ f.Above id x ∧ f.Turn id env x e := by
  refine h.downward fun id hid ih env x e => ?_
  rw [h.visits_eq hid, List.mem_cons, List.mem_flatMap]
  constructor
  · rintro (heq | ⟨e₁, he₁, hmem⟩)
    · cases heq
      exact ⟨hid, .refl, (h.turn_self hid).mpr rfl⟩
    · obtain ⟨child, hchild, hmem⟩ := List.mem_flatMap.mp hmem
      obtain ⟨hx, hup, hturn⟩ := (ih child hchild e₁ x e).mp hmem
      exact ⟨hx, hup.head (h.parentOf_nested id hid child hchild),
        (h.turn_iff_child hid hchild hx hup).mpr ⟨e₁, he₁, hturn⟩⟩
  · rintro ⟨hx, hup, hturn⟩
    rcases (h.above_iff_body hid hx).mp hup with rfl | ⟨child, hchild, hup'⟩
    · rw [(h.turn_self hid).mp hturn]
      exact .inl rfl
    · obtain ⟨e₁, he₁, hturn'⟩ := (h.turn_iff_child hid hchild hx hup').mp hturn
      exact .inr ⟨e₁, he₁, List.mem_flatMap.mpr
        ⟨child, hchild, (ih child hchild e₁ x e).mpr ⟨hx, hup', hturn'⟩⟩⟩

/-- **What a run executes**: each reached operation, once for each choice of values for the loops
around it. -/
theorem mem_timeline (h : f.Nested) (x : OpId) (e : Env) :
    (x, e) ∈ f.timeline ↔ f.Reaches x ∧
      ∀ l, (f.Around l x → e l ∈ f.valuesOf l) ∧ (¬ f.Around l x → e l = 0) := by
  have hfrom : ∀ {top : OpId}, top ∈ f.body → f.Above top x →
      ∀ l, f.Around l x → f.Above top l := by
    intro top htop hup l hl
    rcases hup.total hl.2.1 with hup' | hup'
    · exact hup'
    · rcases above_iff.mp hup' with rfl | ⟨parent, hp, -⟩
      · exact .refl
      · rw [h.parentOf_top top htop] at hp
        cases hp
  have hturn : ∀ {top : OpId}, top ∈ f.body → f.Above top x → (f.Turn top (fun _ => 0) x e ↔
      ∀ l, (f.Around l x → e l ∈ f.valuesOf l) ∧ (¬ f.Around l x → e l = 0)) := by
    intro top htop hup
    refine forall_congr' fun l => ?_
    have hiff : f.Around l x ∧ f.Above top l ↔ f.Around l x :=
      and_iff_left_of_imp (hfrom htop hup l)
    rw [hiff]
  rw [timeline, List.mem_flatMap]
  constructor
  · rintro ⟨top, htop, hmem⟩
    obtain ⟨hx, hup, ht⟩ := (h.mem_visits top (.top htop) _ x e).mp hmem
    exact ⟨hx, (hturn htop hup).mp ht⟩
  · rintro ⟨hx, ht⟩
    obtain ⟨top, htop, hup⟩ := h.exists_top hx
    exact ⟨top, htop, (h.mem_visits top (.top htop) _ x e).mpr ⟨hx, hup, (hturn htop hup).mpr ht⟩⟩

end Nested

/-! ## 2. In which order -/

/-- `f.StandsBefore a b`: in the text `a` is around `b`, or earlier in a block around both. -/
def StandsBefore (f : Func) (a b : OpId) : Prop := f.Above a b ∨ f.PartsBefore a b

/-- The order of executions: a loop around both is in an earlier turn, while those around it are
in the same; or all loops around both are in the same turn, and the one stands before the
other. -/
def Before (f : Func) (p q : Visit) : Prop :=
  (∃ l, f.Around l p.1 ∧ f.Around l q.1 ∧ p.2 l < q.2 l ∧ ∀ l', f.Around l' l → p.2 l' = q.2 l')
    ∨ p.1 ≠ q.1 ∧ f.StandsBefore p.1 q.1
      ∧ ∀ l, f.Around l p.1 → f.Around l q.1 → p.2 l = q.2 l

/-- Every reached loop advances. -/
def Advances (f : Func) : Prop :=
  ∀ id l, f.Reaches id → f.kindOf id = some (.loop l) → 0 < l.step

theorem Tidy.advances (h : f.Tidy) : f.Advances := by
  intro id l hid hk
  obtain ⟨op, hop, hkind⟩ := Option.map_eq_some_iff.mp hk
  exact ((h.mentions id op hid hop).loop l hkind).1

theorem Around.trans {l' l id : OpId} (h : f.Nested) (hid : f.Reaches id) (hl' : f.Around l' l)
    (hl : f.Around l id) : f.Around l' id := by
  refine ⟨hl'.1, hl'.2.1.trans hl.2.1, ?_⟩
  rintro rfl
  exact hl'.2.2 (h.above_antisymm (h.reaches_of_above hl.2.1 hid) hl'.2.1 hl.2.1)

namespace Advances

/-- The values of a loop ascend. -/
theorem valuesOf_pairwise (ha : f.Advances) {l : OpId} (hl : f.Reaches l) :
    (f.valuesOf l).Pairwise (· < ·) := by
  unfold valuesOf
  cases hk : f.kindOf l with
  | none => exact .nil
  | some k =>
    cases k with
    | loop header =>
      have hstep := ha l header hl hk
      simp only [Option.bind_some, Kind.loop?, Loop.values?]
      cases header.upper with
      | none => exact .nil
      | some upper =>
        refine List.Pairwise.filter _ (List.pairwise_map.mpr ?_)
        refine List.pairwise_lt_range.imp fun {i j} hij => ?_
        have hmul := Int.mul_lt_mul_of_pos_right (Int.ofNat_lt.mpr hij) hstep
        exact Int.add_lt_add_left hmul header.lower
    | _ => exact .nil

end Advances

namespace Nested

/-- A loop that is not from an operation on has the value that it had. -/
theorem visits_outer (h : f.Nested) {id : OpId} (hid : f.Reaches id) {env : Env} {p : Visit}
    (hp : p ∈ f.visits env id) {l : OpId} (hl : ¬ f.Above id l) : p.2 l = env l := by
  obtain ⟨-, -, hturn⟩ := (h.mem_visits id hid env p.1 p.2).mp hp
  exact (hturn l).2 fun hcon => hl hcon.2

/-- Blockmates are executed in the order of their block. -/
theorem before_of_earlier (h : f.Nested) {a b : OpId} (ha : f.Reaches a) (hb : f.Reaches b)
    (hab : f.Earlier a b) {env : Env} {p q : Visit} (hp : p ∈ f.visits env a)
    (hq : q ∈ f.visits env b) : f.Before p q := by
  obtain ⟨hpr, hup, -⟩ := (h.mem_visits a ha env p.1 p.2).mp hp
  obtain ⟨hqr, hup', -⟩ := (h.mem_visits b hb env q.1 q.2).mp hq
  have hne := h.ne_of_earlier ha hab
  refine .inr ⟨fun heq => ?_, .inr ⟨a, b, hup, hup', hab⟩, fun l hl hl' => ?_⟩
  · exact hne (h.eq_of_above_blockmates ha hb hab.1 hup (heq ▸ hup'))
  · -- What is around both is around the block.
    have hnot : ¬ f.Above a l := fun hal =>
      hne (h.eq_of_above_blockmates ha hb hab.1 (hal.trans hl'.2.1) hup')
    have hnot' : ¬ f.Above b l := fun hbl =>
      hne (h.eq_of_above_blockmates ha hb hab.1 hup (hbl.trans hl.2.1))
    rw [h.visits_outer ha hp hnot, h.visits_outer hb hq hnot']

theorem pairwise_block (h : f.Nested) (owner : Option OpId) (env : Env)
    (howner : ∀ c ∈ f.blockOf owner, f.Reaches c ∧ f.parentOf c = owner)
    (hchild : ∀ c ∈ f.blockOf owner, (f.visits env c).Pairwise f.Before) :
    ((f.blockOf owner).flatMap (f.visits env)).Pairwise f.Before := by
  refine List.pairwise_flatMap.mpr ⟨hchild, ?_⟩
  refine (pairwise_earlier fun c hc => (howner c hc).2).imp_of_mem fun ha hb hab p hp q hq => ?_
  exact h.before_of_earlier (howner _ ha).1 (howner _ hb).1 hab hp hq

/-- An earlier turn is over before a later one. -/
theorem before_of_turns (h : f.Nested) {id a b : OpId} (hid : f.Reaches id) (hloop : f.IsLoop id)
    (ha : a ∈ f.bodyOf id) (hb : b ∈ f.bodyOf id) {env : Env} {v v' : Int} (hlt : v < v')
    {p q : Visit} (hp : p ∈ f.visits (Function.update env id v) a)
    (hq : q ∈ f.visits (Function.update env id v') b) : f.Before p q := by
  have haround : ∀ {c : OpId} {r : Visit} {w : Int}, c ∈ f.bodyOf id →
      r ∈ f.visits (Function.update env id w) c → f.Around id r.1 ∧ r.2 id = w
        ∧ ∀ l, f.Around l id → r.2 l = env l := by
    intro c r w hc hr
    have hcr : f.Reaches c := .nested hid hc
    obtain ⟨-, hup, -⟩ := (h.mem_visits c hcr _ r.1 r.2).mp hr
    have hnot := h.not_above_owner hid hc
    refine ⟨⟨hloop, hup.head (h.parentOf_nested id hid c hc), ?_⟩, ?_, fun l hl => ?_⟩
    · rintro heq
      exact hnot (heq ▸ hup)
    · rw [h.visits_outer hcr hr hnot, Function.update_self]
    · rw [h.visits_outer hcr hr fun hcl => hnot (hcl.trans hl.2.1), Function.update_of_ne hl.2.2]
  obtain ⟨hap, hpv, hpo⟩ := haround ha hp
  obtain ⟨haq, hqv, hqo⟩ := haround hb hq
  refine .inl ⟨id, hap, haq, ?_, fun l hl => (hpo l hl).trans (hqo l hl).symm⟩
  rw [hpv, hqv]
  exact hlt

theorem pairwise_turns (h : f.Nested) (hadv : f.Advances) {id : OpId} (hid : f.Reaches id)
    (env : Env) (hturn : ∀ e, ((f.bodyOf id).flatMap (f.visits e)).Pairwise f.Before) :
    ((f.turnList id env).flatMap fun e => (f.bodyOf id).flatMap (f.visits e)).Pairwise
      f.Before := by
  by_cases hloop : f.IsLoop id
  · rw [turnList_of_isLoop hloop, List.flatMap_map]
    refine List.pairwise_flatMap.mpr ⟨fun v _ => hturn _, ?_⟩
    refine (hadv.valuesOf_pairwise hid).imp fun hlt p hp q hq => ?_
    obtain ⟨a, ha, hp⟩ := List.mem_flatMap.mp hp
    obtain ⟨b, hb, hq⟩ := List.mem_flatMap.mp hq
    exact h.before_of_turns hid hloop ha hb hlt hp hq
  · rw [turnList_of_not_isLoop (h.live id hid) hloop, List.flatMap_singleton]
    exact hturn env

/-- **The executions of an operation and of what is nested in it are in order.** -/
theorem visits_pairwise (h : f.Nested) (hadv : f.Advances) : ∀ id, f.Reaches id →
    ∀ env, (f.visits env id).Pairwise f.Before := by
  refine h.downward fun id hid ih env => ?_
  have hbody : ∀ e, ((f.bodyOf id).flatMap (f.visits e)).Pairwise f.Before := fun e =>
    h.pairwise_block (some id) e
      (fun c hc => ⟨.nested hid hc, h.parentOf_nested id hid c hc⟩) fun c hc => ih c hc e
  have hall := h.visits_eq hid env
  rw [hall]
  refine List.pairwise_cons.mpr ⟨fun q hq => ?_, h.pairwise_turns hadv hid env hbody⟩
  -- The operation itself comes first.
  have hq' : q ∈ f.visits env id := hall ▸ List.mem_cons_of_mem _ hq
  obtain ⟨e, he, hq⟩ := List.mem_flatMap.mp hq
  obtain ⟨c, hc, hq⟩ := List.mem_flatMap.mp hq
  obtain ⟨-, hup, -⟩ := (h.mem_visits c (.nested hid hc) e q.1 q.2).mp hq
  have hup' : f.Above id q.1 := hup.head (h.parentOf_nested id hid c hc)
  refine .inr ⟨fun heq => ?_, .inl hup', fun l hl _ => ?_⟩
  · exact h.not_above_owner hid hc (by rw [show id = q.1 from heq]; exact hup)
  · refine (h.visits_outer hid hq' fun hcon => ?_).symm
    exact hl.2.2 (h.above_antisymm hid hl.2.1 hcon)

/-- **A run executes in order.** -/
theorem timeline_pairwise (h : f.Nested) (hadv : f.Advances) : f.timeline.Pairwise f.Before :=
  h.pairwise_block none _ (fun c hc => ⟨.top hc, h.parentOf_top c hc⟩)
    fun c hc => h.visits_pairwise hadv c (.top hc) _

theorem not_standsBefore_both (h : f.Nested) {a b : OpId} (ha : f.Reaches a) (hb : f.Reaches b)
    (hne : a ≠ b) (hab : f.StandsBefore a b) (hba : f.StandsBefore b a) : False := by
  have hmixed : ∀ {a b : OpId}, f.Reaches b → f.Above a b → ¬ f.PartsBefore b a := by
    rintro a b hb hup ⟨b', a', hup', hup'', hearlier⟩
    have hb' := h.reaches_of_above hup' hb
    have ha' := h.reaches_of_above (hup''.trans hup) hb
    exact h.ne_of_earlier hb' hearlier
      (h.eq_of_above_blockmates hb' ha' hearlier.1 hup' (hup''.trans hup))
  rcases hab with hab | hab
  · rcases hba with hba | hba
    · exact hne (h.above_antisymm hb hab hba)
    · exact hmixed hb hab hba
  · rcases hba with hba | hba
    · exact hmixed ha hba hab
    · exact h.not_partsBefore_both ha hb hab hba

/-- No two executions are in both orders. -/
theorem before_asymm (h : f.Nested) {p q : Visit} (hp : f.Reaches p.1) (hq : f.Reaches q.1)
    (hpq : f.Before p q) : ¬ f.Before q p := by
  rintro (⟨l', hlq', hlp', hlt', hsame'⟩ | ⟨hne', hstands', hsame'⟩)
  · rcases hpq with ⟨l, hlp, hlq, hlt, hsame⟩ | ⟨-, -, hsame⟩
    · by_cases heq : l = l'
      · subst heq
        omega
      · -- The outer one of the two loops is in the same turn for both.
        rcases hlp.2.1.total hlp'.2.1 with hup | hup
        · have := hsame' l ⟨hlp.1, hup, heq⟩
          omega
        · have := hsame l' ⟨hlp'.1, hup, fun h => heq h.symm⟩
          omega
    · have := hsame l' hlp' hlq'
      omega
  · rcases hpq with ⟨l, hlp, hlq, hlt, -⟩ | ⟨hne, hstands, -⟩
    · have := hsame' l hlq hlp
      omega
    · exact h.not_standsBefore_both hp hq hne hstands hstands'

/-- **The place in a run tells the order.** -/
theorem lt_of_before (h : f.Nested) (hadv : f.Advances) {i j : Nat} {p q : Visit}
    (hi : f.timeline[i]? = some p) (hj : f.timeline[j]? = some q) (hpq : f.Before p q) : i < j := by
  have hp := ((h.mem_timeline p.1 p.2).mp (List.mem_of_getElem? hi)).1
  have hq := ((h.mem_timeline q.1 q.2).mp (List.mem_of_getElem? hj)).1
  obtain ⟨hi', rfl⟩ := List.getElem?_eq_some_iff.mp hi
  obtain ⟨hj', rfl⟩ := List.getElem?_eq_some_iff.mp hj
  rcases Nat.lt_trichotomy i j with hlt | rfl | hgt
  · exact hlt
  · exact absurd hpq (h.before_asymm hp hq hpq)
  · have hqp := List.pairwise_iff_getElem.mp (h.timeline_pairwise hadv) j i hj' hi' hgt
    exact absurd hqp (h.before_asymm hp hq hpq)

end Nested

/-! ## 3. What is not reached plays no part -/

/-- `f.SameReached g`: `g` has the top-level block of `f`, and its entry wherever `f` reaches. -/
structure SameReached (f g : Func) : Prop where
  body : g.body = f.body
  size_le : f.ops.size ≤ g.ops.size
  entry : ∀ id, f.Reaches id → g.ops[id]? = f.ops[id]?

namespace SameReached

variable {g : Func}

theorem bodyOf (h : f.SameReached g) {id : OpId} (hid : f.Reaches id) :
    g.bodyOf id = f.bodyOf id := by
  rw [Func.bodyOf, Func.bodyOf, h.entry id hid]

theorem parentOf (h : f.SameReached g) {id : OpId} (hid : f.Reaches id) :
    g.parentOf id = f.parentOf id := by
  rw [Func.parentOf, Func.parentOf, h.entry id hid]

theorem kindOf (h : f.SameReached g) {id : OpId} (hid : f.Reaches id) :
    g.kindOf id = f.kindOf id := by
  rw [Func.kindOf, Func.kindOf, h.entry id hid]

theorem reaches_iff (h : f.SameReached g) {id : OpId} : g.Reaches id ↔ f.Reaches id := by
  constructor
  · intro hid
    induction hid with
    | top hid => exact .top (h.body ▸ hid)
    | nested _ hid ih => exact .nested ih (h.bodyOf ih ▸ hid)
  · intro hid
    induction hid with
    | top hid => exact .top (h.body ▸ hid)
    | nested howner hid ih => exact .nested ih (h.bodyOf howner ▸ hid)

theorem nested (h : f.SameReached g) (hf : f.Nested) : g.Nested where
  nodup_body := h.body ▸ hf.nodup_body
  parentOf_top := fun id hid => by
    rw [h.body] at hid
    rw [h.parentOf (.top hid)]
    exact hf.parentOf_top id hid
  nodup_bodyOf := fun owner howner => by
    rw [h.reaches_iff] at howner
    rw [h.bodyOf howner]
    exact hf.nodup_bodyOf owner howner
  parentOf_nested := fun owner howner id hid => by
    rw [h.reaches_iff] at howner
    rw [h.bodyOf howner] at hid
    rw [h.parentOf (.nested howner hid)]
    exact hf.parentOf_nested owner howner id hid
  live := fun id hid => by
    rw [h.reaches_iff] at hid
    rw [IsLive, h.entry id hid]
    exact hf.live id hid

theorem visitsWithin_eq (h : f.SameReached g) : ∀ (levels : Nat) (env : Env) {id : OpId},
    f.Reaches id → g.visitsWithin levels env id = f.visitsWithin levels env id
  | 0, _, _, _ => rfl
  | levels + 1, env, id, hid => by
    have hturns : g.turnList id env = f.turnList id env := by
      rw [turnList, turnList, h.kindOf hid]
    rw [visitsWithin, visitsWithin, hturns, h.bodyOf hid]
    exact congrArg _ (List.flatMap_congr fun e _ => List.flatMap_congr fun child hchild =>
      h.visitsWithin_eq levels e (.nested hid hchild))

/-- **A run is one of what is reached.** -/
theorem timeline_eq (h : f.SameReached g) (hf : f.Nested) : g.timeline = f.timeline := by
  rw [timeline, timeline, h.body]
  refine List.flatMap_congr fun top htop => ?_
  have hdepth : f.ops.size ≤ g.depthBound + ([] : List OpId).length :=
    Nat.le_succ_of_le h.size_le
  rw [visits, h.visitsWithin_eq _ _ (.top htop)]
  exact hf.visitsWithin_eq (.top htop) (.top (hf.parentOf_top top htop)) hdepth
    (Nat.le_add_right _ 1)

/-- Functions that are the same wherever they are reached do the same work. -/
theorem total_eq (h : f.SameReached g) (hf : f.Nested) : g.total = f.total := by
  have hinstances : f.timeline.flatMap g.instancesOf = f.timeline.flatMap f.instancesOf := by
    refine List.flatMap_congr fun p hp => ?_
    rw [instancesOf, instancesOf, h.kindOf ((hf.mem_timeline p.1 p.2).mp hp).1]
  rw [total, total, h.timeline_eq hf, hinstances]

end SameReached

end Func
end Dataflow
