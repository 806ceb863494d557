/-
# Program order

The walk over a function lists its operations in the order of the text: an operation comes before
what is nested in it, and all that is nested in one operation of a block comes before all that is
nested in a later one.  So the places in the walk tell what stands before what
(`Func.Nested.standsBefore_iff`), and they answer both questions about the order of two operations.

* `Func.precedes` lifts the first out of the blocks that do not hold the second, climbs from the
  second into the same block, and compares two places there.  What it finds is the order of the walk
  (`Func.precedes_is_program_order`), a total order.
* `Func.dominates` does not lift.  It asks in addition that the block of the first be around the
  second (`Func.dominates_is_order_in_scope`), which leaves a partial order.
-/
import Mathlib.Order.Defs.Unbundled
import Dataflow.Proofs.Timeline

namespace Dataflow
namespace Func

variable {f : Func}

/-! ## 1. The walk goes through the text in order -/

namespace Nested

/-- What walks list below the operations of a block is in order, if each walk is. -/
theorem pairwise_walks (h : f.Nested) (owner : Option OpId) {levels : Nat}
    {parts : List (List (OpId × Op))}
    (howner : ∀ id ∈ f.blockOf owner, f.Reaches id ∧ f.parentOf id = owner)
    (hparts : List.Forall₂ (fun id part => f.nest levels id = .ok part) (f.blockOf owner) parts)
    (hpart : ∀ id ∈ f.blockOf owner, ∀ part, f.nest levels id = .ok part →
      part.Pairwise fun e e' => f.StandsBefore e.1 e'.1) :
    parts.flatten.Pairwise fun e e' => f.StandsBefore e.1 e'.1 := by
  refine List.pairwise_flatten.mpr ⟨fun part hmem => ?_, ?_⟩
  · obtain ⟨id, hid, hnest⟩ := Checked.forall₂_left hparts hmem
    exact hpart id hid part hnest
  · refine Checked.pairwise_of_forall₂ hparts (pairwise_earlier fun id hid => (howner id hid).2) ?_
    intro a b part part' ha hb hab hnest hnest' e he e' he'
    have hup : f.Above a e.1 := (h.of_mem_nest (howner a ha).1 hnest e he).2.2
    have hup' : f.Above b e'.1 := (h.of_mem_nest (howner b hb).1 hnest' e' he').2.2
    exact .inr ⟨a, b, hup, hup', hab⟩

/-- **A walk below an operation is in order.** -/
theorem nest_pairwise (h : f.Nested) : ∀ {levels : Nat} {id : OpId} {es : List (OpId × Op)},
    f.Reaches id → f.nest levels id = .ok es → es.Pairwise fun e e' => f.StandsBefore e.1 e'.1
  | 0, _, _, _, hes => by cases hes
  | levels + 1, id, es, hid, hes => by
    have hbelow := h.of_mem_nest hid hes
    obtain ⟨op, parts, hop, hparts, rfl⟩ := nest_eq_ok.mp hes
    rw [← bodyOf_eq hop] at hparts
    refine List.pairwise_cons.mpr ⟨fun e he => ?_, ?_⟩
    · exact .inl (hbelow e (List.mem_cons_of_mem _ he)).2.2
    · refine h.pairwise_walks (some id) (fun child hchild => ?_) hparts fun child hchild part => ?_
      · exact ⟨.nested hid hchild, h.parentOf_nested id hid child hchild⟩
      · exact nest_pairwise h (.nested hid hchild)

/-- **The walk over a function is in order...** -/
theorem entries_pairwise (h : f.Nested) {es : List (OpId × Op)} (hes : f.entries = .ok es) :
    es.Pairwise fun e e' => f.StandsBefore e.1 e'.1 := by
  obtain ⟨parts, hparts, rfl⟩ := entries_eq_ok.mp hes
  refine h.pairwise_walks none (fun id hid => ?_) hparts fun id hid part => ?_
  · exact ⟨.top hid, h.parentOf_top id hid⟩
  · exact h.nest_pairwise (.top hid)

theorem walk_pairwise (h : f.Nested) {order : List OpId} (hwalk : f.walk = .ok order) :
    order.Pairwise f.StandsBefore := by
  obtain ⟨es, hes, rfl⟩ := walk_eq_ok.mp hwalk
  exact List.pairwise_map.mpr (h.entries_pairwise hes)

/-- ...and so is what a test picks out of it. -/
theorem findAll_pairwise (h : f.Nested) {p : Op → Bool} {ids : List OpId}
    (hids : f.findAll p = .ok ids) : ids.Pairwise f.StandsBefore := by
  obtain ⟨es, hes, heq⟩ := Checked.bind_eq_ok.mp hids
  cases heq
  exact List.pairwise_map.mpr ((h.entries_pairwise hes).filter _)

/-- **The places in the walk tell what stands before what.** -/
theorem standsBefore_iff (h : f.Nested) {order : List OpId} (hwalk : f.walk = .ok order)
    {a b : OpId} (ha : f.Reaches a) (hb : f.Reaches b) :
    f.StandsBefore a b ↔ order.idxOf a ≤ order.idxOf b := by
  have hplaces : ∀ {x y : OpId}, f.Reaches x → f.Reaches y → order.idxOf x < order.idxOf y →
      f.StandsBefore x y := by
    intro x y hx hy hlt
    have hpair := List.pairwise_iff_getElem.mp (h.walk_pairwise hwalk) _ _
      (List.idxOf_lt_length_of_mem ((h.mem_walk hwalk).mpr hx))
      (List.idxOf_lt_length_of_mem ((h.mem_walk hwalk).mpr hy)) hlt
    rwa [List.getElem_idxOf, List.getElem_idxOf] at hpair
  constructor
  · intro hstands
    by_contra hle
    have hne : a ≠ b := by
      rintro rfl
      exact hle (Nat.le_refl _)
    exact h.not_standsBefore_both ha hb hne hstands (hplaces hb ha (Nat.lt_of_not_le hle))
  · intro hle
    rcases Nat.lt_or_eq_of_le hle with hlt | heq
    · exact hplaces ha hb hlt
    · obtain rfl : a = b := (List.idxOf_inj ((h.mem_walk hwalk).mpr ha)).mp heq
      exact .inl .refl

theorem standsBefore_trans (h : f.Nested) {a b c : OpId} (ha : f.Reaches a) (hb : f.Reaches b)
    (hc : f.Reaches c) (hab : f.StandsBefore a b) (hbc : f.StandsBefore b c) :
    f.StandsBefore a c := by
  obtain ⟨order, hwalk⟩ := h.walk_isOk
  rw [h.standsBefore_iff hwalk ha hb] at hab
  rw [h.standsBefore_iff hwalk hb hc] at hbc
  exact (h.standsBefore_iff hwalk ha hc).mpr (hab.trans hbc)

/-! ## 2. Precedence -/

/-- Hoisting stops where the ways up from the two operations part. -/
theorem hoist_eq_parting (h : f.Nested) {a b a' a₁ b₁ : OpId} {levels : Nat} (ha : f.Reaches a)
    (hb : f.Reaches b) (hhoist : f.hoist b levels a = .ok a') (hup₁ : f.Above a₁ a)
    (hup₁' : f.Above b₁ b) (hearlier : f.Earlier a₁ b₁) : a' = a₁ := by
  have ha₁ : f.Reaches a₁ := h.reaches_of_above hup₁ ha
  have hparted : ¬ f.Above a₁ b := fun hup => h.ne_of_earlier ha₁ hearlier
    (h.eq_of_above_blockmates ha₁ (h.reaches_of_above hup₁' hb) hearlier.1 hup hup₁')
  obtain ⟨hup, howner, hcase⟩ := hoist_eq_ok hhoist
  have hparted' : ¬ f.Above a' b := by
    rcases hcase with rfl | hcase
    · exact fun hup' => hparted (hup₁.trans hup')
    · exact hcase
  -- Of the two the upper one would be above `b`, if they were not the same.
  rcases hup.total hup₁ with hle | hle
  · rcases above_iff.mp hle with heq | ⟨owner, hp, hle⟩
    · exact heq
    · exact absurd ((hle.tail (hearlier.1.trans hp)).trans hup₁') hparted'
  · rcases above_iff.mp hle with heq | ⟨owner, hp, hle⟩
    · exact heq.symm
    · exact absurd (hle.trans (howner owner hp)) hparted

/-- **Precedence is the order of the text.** -/
theorem precedes_iff (h : f.Nested) {a b : OpId} (ha : f.Reaches a) (hb : f.Reaches b) :
    f.precedes a b = .ok true ↔ f.StandsBefore a b := by
  by_cases heq : a = b
  · subst heq
    simp [precedes, StandsBefore, Above, Relation.ReflTransGen.refl]
  · refine ⟨fun hprecedes => (precedes_eq_true heq hprecedes).2, fun hstands => ?_⟩
    obtain ⟨encloses, henc⟩ := h.encloses_isOk b a ha
    obtain ⟨a', hhoist⟩ := h.hoist_isOk hb a ha
    have hup' : f.Above a' a := (hoist_eq_ok hhoist).1
    cases encloses with
    | true =>
      have hup : f.Above b a := (encloses_eq_ok henc).mp rfl
      exact (h.not_standsBefore_both ha hb heq hstands (.inl hup)).elim
    | false =>
      rw [precedes, if_neg heq, henc, Checked.ok_bind, hhoist]
      refine (h.dominates_iff hb).mpr ⟨h.reaches_of_above hup' ha, ?_⟩
      rcases hstands with hup | ⟨a₁, b₁, hup₁, hup₁', hearlier⟩
      · exact .inl (hup'.trans hup)
      · obtain rfl : a' = a₁ := h.hoist_eq_parting ha hb hhoist hup₁ hup₁' hearlier
        exact .inr ⟨b₁, hup₁', hearlier⟩

theorem isLinearOrder_precedes (h : f.Nested) :
    IsLinearOrder {id // f.Reaches id} fun a b => f.precedes a b = .ok true where
  refl a := (h.precedes_iff a.2 a.2).mpr (.inl .refl)
  trans a b c hab hbc := by
    rw [h.precedes_iff a.2 b.2] at hab
    rw [h.precedes_iff b.2 c.2] at hbc
    exact (h.precedes_iff a.2 c.2).mpr (h.standsBefore_trans a.2 b.2 c.2 hab hbc)
  antisymm a b hab hba := Subtype.ext (h.eq_of_precedes a.2 b.2 hab hba)
  total a b := by
    obtain ⟨order, hwalk⟩ := h.walk_isOk
    rw [h.precedes_iff a.2 b.2, h.precedes_iff b.2 a.2, h.standsBefore_iff hwalk a.2 b.2,
      h.standsBefore_iff hwalk b.2 a.2]
    exact Nat.le_total _ _

end Nested

/-- **Precedence is program order.**  On a function in order the walk lists what is reached, each
operation once, and of two reached operations the one precedes the other exactly if its place in
the walk is no later.  So precedence is a total order of what is reached. -/
theorem precedes_is_program_order {f : Func} (hf : f.verify = .ok ()) :
    ∃ order, f.walk = .ok order ∧ order.Nodup ∧ (∀ id, id ∈ order ↔ f.Reaches id)
      ∧ (∀ a b, f.Reaches a → f.Reaches b →
          f.precedes a b = .ok (decide (order.idxOf a ≤ order.idxOf b)))
      ∧ IsLinearOrder {id // f.Reaches id} fun a b => f.precedes a b = .ok true := by
  have h := (verify_eq_ok_iff_tidy.mp hf).toNested
  obtain ⟨order, hwalk⟩ := h.walk_isOk
  refine ⟨order, hwalk, h.nodup_walk hwalk, fun id => h.mem_walk hwalk, fun a b ha hb => ?_,
    h.isLinearOrder_precedes⟩
  obtain ⟨answer, hanswer⟩ := h.precedes_isOk ha hb
  have hiff := (h.precedes_iff ha hb).trans (h.standsBefore_iff hwalk ha hb)
  rw [hanswer, Except.ok.injEq] at hiff
  rw [hanswer, Bool.eq_iff_iff.mpr (hiff.trans decide_eq_true_iff.symm)]

/-- Two nested loops with a compute before them, in each of them, and after them. -/
def staircase : Func where
  name := "f"
  arguments := []
  body := [0, 1, 5]
  ops := #[
    { id := 0, kind := .compute { name := "s0", reads := [], writes := [], lanes := [] },
      parent := none, body := [], erased := false },
    { id := 1, kind := .loop (.plain "i" 0 (some 4) 1), parent := none, body := [2, 3],
      erased := false },
    { id := 2, kind := .compute { name := "s1", reads := [], writes := [], lanes := [] },
      parent := some 1, body := [], erased := false },
    { id := 3, kind := .loop (.plain "j" 0 (some 4) 1), parent := some 1, body := [4],
      erased := false },
    { id := 4, kind := .compute { name := "s2", reads := [], writes := [], lanes := [] },
      parent := some 3, body := [], erased := false },
    { id := 5, kind := .compute { name := "s3", reads := [], writes := [], lanes := [] },
      parent := none, body := [], erased := false }]
  values := #[]

/-- The innermost compute precedes the one after the loops, and not the loop around it. -/
theorem precedes_staircase : staircase.verify = .ok () ∧ staircase.Reaches 4
    ∧ staircase.precedes 4 5 = .ok true ∧ staircase.precedes 4 1 = .ok false := by
  have hverify : staircase.verify = .ok () := by decide
  have houter : staircase.Reaches 1 := .top (by decide)
  have hinner : staircase.Reaches 4 := .nested (.nested houter (by decide : 3 ∈ _)) (by decide)
  obtain ⟨order, hwalk, -, -, horder, -⟩ := precedes_is_program_order hverify
  obtain rfl : [0, 1, 2, 3, 4, 5] = order :=
    Except.ok.inj ((rfl : staircase.walk = _).symm.trans hwalk)
  exact ⟨hverify, hinner, horder 4 5 hinner (.top (by decide)), horder 4 1 hinner houter⟩

/-! ## 3. Dominance -/

/-- `f.InScope a b`: the block of `a` is around `b`, at whatever depth. -/
def InScope (f : Func) (a b : OpId) : Prop := ∀ owner, f.parentOf a = some owner → f.Above owner b

namespace Nested

/-- **Dominance is the order of the text, within scope.** -/
theorem dominates_iff_inScope (h : f.Nested) {a b : OpId} (ha : f.Reaches a) (hb : f.Reaches b) :
    f.dominates a b = .ok true ↔ f.StandsBefore a b ∧ f.InScope a b := by
  rw [h.dominates_iff hb]
  constructor
  · rintro ⟨-, hup | ⟨current, hup, hearlier⟩⟩
    · exact ⟨.inl hup, fun owner hp => hup.head hp⟩
    · exact ⟨.inr ⟨a, current, .refl, hup, hearlier⟩,
        fun owner hp => hup.head (hearlier.1.trans hp)⟩
  · rintro ⟨hup | ⟨a', b', hup, hup', hearlier⟩, hscope⟩
    · exact ⟨ha, .inl hup⟩
    · rcases above_iff.mp hup with rfl | ⟨owner, hp, hup⟩
      · exact ⟨ha, .inr ⟨b', hup', hearlier⟩⟩
      · -- The ways part above the block of `a`, which is around `b`.
        have ha' := h.reaches_of_above (hup.tail hp) ha
        have heq := h.eq_of_above_blockmates ha' (h.reaches_of_above hup' hb) hearlier.1
          (hup.trans (hscope owner hp)) hup'
        exact absurd heq (h.ne_of_earlier ha' hearlier)

/-- Where `b` stands after `a` and in its scope, the scope of `b` lies in that of `a`. -/
theorem inScope_trans (h : f.Nested) {a b c : OpId} (ha : f.Reaches a) (hb : f.Reaches b)
    (hab : f.StandsBefore a b) (hscope : f.InScope a b) (hscope' : f.InScope b c) :
    f.InScope a c := by
  intro owner hp
  rcases above_iff.mp (hscope owner hp) with rfl | ⟨outer, houter, hup⟩
  · -- The owner of a block stands before what is in it.
    have hne : a ≠ owner := by
      rintro rfl
      exact h.not_transGen_self ha (.single hp)
    exact (h.not_standsBefore_both ha hb hne hab (.inl (.single hp))).elim
  · exact hup.trans (hscope' outer houter)

theorem isPartialOrder_dominates (h : f.Nested) :
    IsPartialOrder {id // f.Reaches id} fun a b => f.dominates a b = .ok true where
  refl a := (h.dominates_iff a.2).mpr ⟨a.2, .inl .refl⟩
  trans a b c hab hbc := by
    obtain ⟨hab, hscope⟩ := (h.dominates_iff_inScope a.2 b.2).mp hab
    obtain ⟨hbc, hscope'⟩ := (h.dominates_iff_inScope b.2 c.2).mp hbc
    exact (h.dominates_iff_inScope a.2 c.2).mpr ⟨h.standsBefore_trans a.2 b.2 c.2 hab hbc,
      h.inScope_trans a.2 b.2 hab hscope hscope'⟩
  antisymm a b hab hba := by
    obtain ⟨hab, -⟩ := (h.dominates_iff_inScope a.2 b.2).mp hab
    obtain ⟨hba, -⟩ := (h.dominates_iff_inScope b.2 a.2).mp hba
    by_contra hne
    exact h.not_standsBefore_both a.2 b.2 (fun heq => hne (Subtype.ext heq)) hab hba

end Nested

/-- **Dominance is program order within scope.**  On a function in order one reached operation
dominates another exactly if its place in the walk is no later and the operation whose body holds
it, if any, encloses the other.  So dominance is a partial order of what is reached. -/
theorem dominates_is_order_in_scope {f : Func} (hf : f.verify = .ok ()) :
    ∃ order, f.walk = .ok order ∧ order.Nodup ∧ (∀ id, id ∈ order ↔ f.Reaches id)
      ∧ (∀ a b, f.Reaches a → f.Reaches b → ∃ answer, f.dominates a b = .ok answer
          ∧ (answer = true ↔ order.idxOf a ≤ order.idxOf b
              ∧ ∀ owner, f.Holds owner a → f.encloses owner b = .ok true))
      ∧ IsPartialOrder {id // f.Reaches id} fun a b => f.dominates a b = .ok true := by
  have h := (verify_eq_ok_iff_tidy.mp hf).toNested
  obtain ⟨order, hwalk⟩ := h.walk_isOk
  refine ⟨order, hwalk, h.nodup_walk hwalk, fun id => h.mem_walk hwalk, fun a b ha hb => ?_,
    h.isPartialOrder_dominates⟩
  obtain ⟨answer, hanswer⟩ := h.dominates_isOk ha hb
  refine ⟨answer, hanswer, ?_⟩
  have hscope : (∀ owner, f.Holds owner a → f.encloses owner b = .ok true) ↔ f.InScope a b := by
    refine forall_congr' fun owner => ?_
    rw [h.encloses_iff_above hb]
    exact imp_congr_left ⟨h.isParent_of_holds, h.holds_of_isParent ha⟩
  have hiff := h.dominates_iff_inScope ha hb
  rw [hanswer, Except.ok.injEq] at hiff
  rw [hscope, ← h.standsBefore_iff hwalk ha hb, hiff]

/-- The compute in the outer loop dominates the one in the inner loop, which does not dominate the
one after both, although it comes first. -/
theorem dominates_staircase : staircase.verify = .ok () ∧ staircase.Reaches 4
    ∧ staircase.dominates 2 4 = .ok true ∧ staircase.dominates 4 5 = .ok false := by
  have hverify : staircase.verify = .ok () := by decide
  have houter : staircase.Reaches 1 := .top (by decide)
  have hloop : staircase.Reaches 3 := .nested houter (by decide)
  have hinner : staircase.Reaches 4 := .nested hloop (by decide)
  obtain ⟨order, hwalk, -, -, horder, -⟩ := dominates_is_order_in_scope hverify
  obtain rfl : [0, 1, 2, 3, 4, 5] = order :=
    Except.ok.inj ((rfl : staircase.walk = _).symm.trans hwalk)
  refine ⟨hverify, hinner, ?_, ?_⟩
  · obtain ⟨answer, hanswer, hiff⟩ := horder 2 4 (.nested houter (by decide)) hinner
    rw [hanswer, hiff.mpr ⟨by decide, fun owner howner => ?_⟩]
    have hp : some 1 = some owner :=
      (verify_eq_ok_iff_tidy.mp hverify).toNested.isParent_of_holds howner
    cases hp
    rfl
  · obtain ⟨answer, hanswer, hiff⟩ := horder 4 5 hinner (.top (by decide))
    cases answer with
    | false => exact hanswer
    | true =>
      have hencloses : staircase.encloses 3 5 = .ok true := (hiff.mp rfl).2 3 ⟨hloop, by decide⟩
      cases hencloses

end Func
end Dataflow
