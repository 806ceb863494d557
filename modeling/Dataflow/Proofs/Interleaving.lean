/-
# Text order and time order

What stands first in the text is executed first within each turn of the loops around both
(`Func.TurnBefore`).  That is less than it seems.  If a loop around both repeats, the second is
executed before the first is executed again (`Func.Nested.allBefore_iff`).  And if a loop around the
first has no turn at all, the second is executed without it (`Func.Nested.eachAfter_iff`).  Nothing
else can go wrong.
-/
import Dataflow.Proofs.Timeline

namespace Dataflow
namespace Func

variable {f : Func}

/-! ## 1. Orders in time -/

/-- Within each turn of the loops around both, `a` is executed before `b`. -/
def TurnBefore (f : Func) (a b : OpId) : Prop :=
  ∀ (i j : Nat) (e e' : Env), f.timeline[i]? = some (a, e) → f.timeline[j]? = some (b, e') →
    (∀ l, f.Around l a → f.Around l b → e l = e' l) → i < j

/-- Every execution of `a` comes before every execution of `b`. -/
def AllBefore (f : Func) (a b : OpId) : Prop :=
  ∀ (i j : Nat) (e e' : Env), f.timeline[i]? = some (a, e) → f.timeline[j]? = some (b, e') → i < j

/-- Every execution of `b` comes after one of `a`. -/
def EachAfter (f : Func) (a b : OpId) : Prop :=
  ∀ (j : Nat) (e' : Env), f.timeline[j]? = some (b, e') →
    ∃ (i : Nat) (e : Env), f.timeline[i]? = some (a, e) ∧ i < j

/-- The loop has more than one turn. -/
def Repeats (f : Func) (l : OpId) : Prop :=
  ∃ header upper, f.kindOf l = some (.loop header) ∧ header.upper = some upper
    ∧ header.lower + header.step < upper

/-- Both are executed, in a loop that has more than one turn. -/
def Interleave (f : Func) (a b : OpId) : Prop :=
  f.Runs a ∧ f.Runs b ∧ ∃ l, f.Around l a ∧ f.Around l b ∧ f.Repeats l

/-! ## 2. Turns -/

/-- The values of a loop are those that its header describes. -/
theorem mem_valuesOf {l : OpId} {header : Loop} {upper : Int}
    (hk : f.kindOf l = some (.loop header)) (hupper : header.upper = some upper)
    (hstep : 0 < header.step) {v : Int} :
    v ∈ f.valuesOf l ↔ (∃ k : Nat, v = header.lower + k * header.step) ∧ v < upper := by
  have hvalues : f.valuesOf l = ((List.range (upper - header.lower).toNat).map fun (k : Nat) =>
      header.lower + k * header.step).filter fun iv => iv < upper := by
    simp [valuesOf, hk, Kind.loop?, Loop.values?, hupper]
  rw [hvalues, List.mem_filter, List.mem_map, decide_eq_true_iff]
  constructor
  · rintro ⟨⟨k, -, rfl⟩, hlt⟩
    exact ⟨⟨k, rfl⟩, hlt⟩
  · rintro ⟨⟨k, rfl⟩, hlt⟩
    refine ⟨⟨k, List.mem_range.mpr ?_, rfl⟩, hlt⟩
    have hle := Int.mul_le_mul_of_nonneg_left (Int.add_one_le_of_lt hstep) (Int.natCast_nonneg k)
    rw [Int.zero_add, Int.mul_one] at hle
    omega

/-- A loop repeats exactly if it has two values. -/
theorem repeats_iff (hadv : f.Advances) (hs : f.StaticBounds) {l : OpId} (hl : f.Reaches l)
    (hloop : f.IsLoop l) : f.Repeats l ↔ ∃ v ∈ f.valuesOf l, ∃ v' ∈ f.valuesOf l, v < v' := by
  obtain ⟨header, hk⟩ := hloop
  obtain ⟨upper, hupper⟩ := Option.isSome_iff_exists.mp (hs l header hl hk)
  have hstep := hadv l header hl hk
  have hmem := fun v => mem_valuesOf (v := v) hk hupper hstep
  constructor
  · rintro ⟨header', upper', hk', hupper', hlt⟩
    rw [hk] at hk'
    cases hk'
    rw [hupper] at hupper'
    cases hupper'
    refine ⟨header.lower, (hmem _).mpr ⟨⟨0, by simp⟩, by omega⟩, header.lower + header.step,
      (hmem _).mpr ⟨⟨1, by simp⟩, hlt⟩, by omega⟩
  · rintro ⟨v, hv, v', hv', hlt⟩
    obtain ⟨⟨k, rfl⟩, -⟩ := (hmem v).mp hv
    obtain ⟨⟨k', rfl⟩, hlt'⟩ := (hmem v').mp hv'
    refine ⟨header, upper, hk, hupper, ?_⟩
    -- The later of two values is at least one step above the lower bound.
    have hpos : (1 : Int) ≤ k' := by
      by_contra hcon
      have hzero : (k' : Int) = 0 := by omega
      have hnonneg : 0 ≤ (k : Int) * header.step := Int.mul_nonneg (by omega) (by omega)
      rw [hzero, Int.zero_mul] at hlt
      omega
    have hone := Int.mul_le_mul_of_nonneg_right hpos (Int.le_of_lt hstep)
    omega

theorem iterates_iff_valuesOf (hadv : f.Advances) (hs : f.StaticBounds) {l : OpId}
    (hl : f.Reaches l) (hloop : f.IsLoop l) : f.Iterates l ↔ ∃ v, v ∈ f.valuesOf l := by
  obtain ⟨header, hk⟩ := hloop
  obtain ⟨upper, hupper⟩ := Option.isSome_iff_exists.mp (hs l header hl hk)
  have hstep := hadv l header hl hk
  have hiter : f.Iterates l ↔ header.lower < upper := by simp [Iterates, hk, hupper]
  rw [hiter]
  constructor
  · exact fun hlt => ⟨header.lower, (mem_valuesOf hk hupper hstep).mpr ⟨⟨0, by simp⟩, hlt⟩⟩
  · rintro ⟨v, hv⟩
    obtain ⟨⟨k, rfl⟩, hlt⟩ := (mem_valuesOf hk hupper hstep).mp hv
    have hnonneg : 0 ≤ (k : Int) * header.step := Int.mul_nonneg (by omega) (by omega)
    omega

namespace Nested

/-- An operation is executed exactly if the loops around it iterate. -/
theorem runs_iff (h : f.Nested) {x : OpId} :
    f.Runs x ↔ f.Reaches x ∧ ∀ l, f.Around l x → f.Iterates l := by
  constructor
  · rintro ⟨top, htop, hexec⟩
    induction hexec with
    | refl =>
      refine ⟨.top htop, ?_⟩
      rintro l ⟨-, hup, hne⟩
      rcases above_iff.mp hup with heq | ⟨parent, hp, -⟩
      · exact absurd heq hne
      · rw [h.parentOf_top top htop] at hp
        cases hp
    | @tail owner x _ henter ih =>
      obtain ⟨howner, hiter⟩ := ih
      refine ⟨.nested howner henter.1, ?_⟩
      rintro l ⟨hloop, hup, hne⟩
      by_cases heq : l = owner
      · exact heq ▸ henter.2
      · have hp := h.parentOf_nested owner howner x henter.1
        exact hiter l ⟨hloop, hup.of_ne hne hp, heq⟩
  · rintro ⟨hx, hiter⟩
    induction hx with
    | @top x hx => exact ⟨x, hx, .refl⟩
    | @nested owner x howner hx ih =>
      have hp : f.IsParent owner x := h.parentOf_nested owner howner x hx
      have hne : owner ≠ x := fun heq => h.not_above_owner howner hx (heq ▸ .refl)
      obtain ⟨top, htop, hexec⟩ := ih fun l hl => hiter l ⟨hl.1, hl.2.1.tail hp, fun heq =>
        h.not_above_owner howner hx (heq ▸ hl.2.1)⟩
      refine ⟨top, htop, hexec.tail ⟨hx, ?_⟩⟩
      -- An owner that is no loop executes its body anyway.
      by_cases hloop : f.IsLoop owner
      · exact hiter owner ⟨hloop, .single hp, hne⟩
      · exact fun l hl => absurd ⟨l, hl⟩ hloop

/-- For each choice of values for the loops around it an operation is executed. -/
theorem exists_visit (h : f.Nested) {x : OpId} (hx : f.Reaches x) (choice : OpId → Int)
    (hchoice : ∀ l, f.Around l x → choice l ∈ f.valuesOf l) :
    ∃ (i : Nat) (e : Env), f.timeline[i]? = some (x, e) ∧ ∀ l, f.Around l x → e l = choice l := by
  classical
  have hmem : (x, fun l => if f.Around l x then choice l else 0) ∈ f.timeline := by
    refine (h.mem_timeline x _).mpr ⟨hx, fun l => ⟨fun hl => ?_, fun hl => if_neg hl⟩⟩
    rw [if_pos hl]
    exact hchoice l hl
  obtain ⟨i, hi⟩ := List.mem_iff_getElem?.mp hmem
  exact ⟨i, _, hi, fun l hl => if_pos hl⟩

theorem runs_of_visit (h : f.Nested) (hadv : f.Advances) (hs : f.StaticBounds) {i : Nat} {x : OpId}
    {e : Env} (hi : f.timeline[i]? = some (x, e)) : f.Runs x := by
  obtain ⟨hx, hvalues⟩ := (h.mem_timeline x e).mp (List.mem_of_getElem? hi)
  refine h.runs_iff.mpr ⟨hx, fun l hl => ?_⟩
  exact (iterates_iff_valuesOf hadv hs (h.reaches_of_above hl.2.1 hx) hl.1).mpr
    ⟨e l, (hvalues l).1 hl⟩

/-- What is executed has a value to choose for each loop around it. -/
theorem exists_choice (h : f.Nested) (hadv : f.Advances) (hs : f.StaticBounds) {x : OpId}
    (hx : f.Runs x) : ∃ choice : OpId → Int, ∀ l, f.Around l x → choice l ∈ f.valuesOf l := by
  classical
  obtain ⟨hreach, hiter⟩ := h.runs_iff.mp hx
  have hvalue : ∀ l, ∃ v : Int, f.Around l x → v ∈ f.valuesOf l := fun l => by
    by_cases hl : f.Around l x
    · obtain ⟨v, hv⟩ := (iterates_iff_valuesOf hadv hs (h.reaches_of_above hl.2.1 hreach) hl.1).mp
        (hiter l hl)
      exact ⟨v, fun _ => hv⟩
    · exact ⟨0, fun hcon => absurd hcon hl⟩
  exact Classical.skolem.mp hvalue

/-! ## 3. Two operations -/

/-- **Within one turn of the loops around both, the order is that of the text.** -/
theorem turnBefore (h : f.Nested) (hadv : f.Advances) {a b : OpId} (hne : a ≠ b)
    (hab : f.StandsBefore a b) : f.TurnBefore a b :=
  fun _ _ _ _ hi hj hsame => h.lt_of_before hadv hi hj (.inr ⟨hne, hab, hsame⟩)

/-- Two operations in a loop that repeats are executed in both orders: the first in a later turn
than the second. -/
theorem exists_later_of_interleave (h : f.Nested) (hadv : f.Advances) (hs : f.StaticBounds)
    {a b : OpId} (hab : f.Interleave a b) :
    ∃ (i j : Nat) (e e' : Env),
      f.timeline[i]? = some (a, e) ∧ f.timeline[j]? = some (b, e') ∧ j < i := by
  classical
  obtain ⟨ha, hb, l, hla, hlb, hrepeats⟩ := hab
  obtain ⟨har, -⟩ := h.runs_iff.mp ha
  obtain ⟨hbr, -⟩ := h.runs_iff.mp hb
  obtain ⟨v, hv, v', hv', hlt⟩ :=
    (repeats_iff hadv hs (h.reaches_of_above hla.2.1 har) hla.1).mp hrepeats
  obtain ⟨choice, hchoice⟩ := h.exists_choice hadv hs ha
  obtain ⟨choice', hchoice'⟩ := h.exists_choice hadv hs hb
  -- The loops around both make the same choices, except for the one that repeats.
  obtain ⟨j, e', hj, he'⟩ := h.exists_visit hbr (fun k => if k = l then v else choice' k)
    fun k hk => by
      by_cases hkl : k = l
      · rw [if_pos hkl, hkl]
        exact hv
      · rw [if_neg hkl]
        exact hchoice' k hk
  obtain ⟨i, e, hi, he⟩ := h.exists_visit har
    (fun k => if k = l then v' else if f.Around k b then choice' k else choice k) fun k hk => by
      by_cases hkl : k = l
      · rw [if_pos hkl, hkl]
        exact hv'
      · rw [if_neg hkl]
        by_cases hkb : f.Around k b
        · rw [if_pos hkb]
          exact hchoice' k hkb
        · rw [if_neg hkb]
          exact hchoice k hk
  have hfirst : e' l = v := (he' l hlb).trans (if_pos rfl)
  have hsecond : e l = v' := (he l hla).trans (if_pos rfl)
  have houter : ∀ k, f.Around k l → e' k = e k := fun k hk => by
    have hkb := hk.trans h hbr hlb
    rw [he' k hkb, if_neg hk.2.2, he k (hk.trans h har hla), if_neg hk.2.2, if_pos hkb]
  refine ⟨i, j, e, e', hi, hj, h.lt_of_before hadv hj hi (.inl ⟨l, hlb, hla, ?_, houter⟩)⟩
  simpa only [hfirst, hsecond] using hlt

/-- **What stands first is executed first throughout, unless both are executed in a loop that
repeats.** -/
theorem allBefore_iff (h : f.Nested) (hadv : f.Advances) (hs : f.StaticBounds) {a b : OpId}
    (hne : a ≠ b) (hab : f.StandsBefore a b) : f.AllBefore a b ↔ ¬ f.Interleave a b := by
  constructor
  · intro hall hinterleave
    obtain ⟨i, j, e, e', hi, hj, hji⟩ := h.exists_later_of_interleave hadv hs hinterleave
    exact absurd (hall i j e e' hi hj) (Nat.lt_asymm hji)
  · intro hnot i j e e' hi hj
    obtain ⟨har, hvalues⟩ := (h.mem_timeline a e).mp (List.mem_of_getElem? hi)
    obtain ⟨-, hvalues'⟩ := (h.mem_timeline b e').mp (List.mem_of_getElem? hj)
    refine h.turnBefore hadv hne hab i j e e' hi hj fun l hla hlb => ?_
    have hl := h.reaches_of_above hla.2.1 har
    have hv := (hvalues l).1 hla
    have hv' := (hvalues' l).1 hlb
    by_contra hdiff
    refine hnot ⟨h.runs_of_visit hadv hs hi, h.runs_of_visit hadv hs hj, l, hla, hlb,
      (repeats_iff hadv hs hl hla.1).mpr ?_⟩
    rcases Int.lt_or_gt_of_ne hdiff with hlt | hgt
    · exact ⟨e l, hv, e' l, hv', hlt⟩
    · exact ⟨e' l, hv', e l, hv, hgt⟩

/-- **What stands second is executed after the first each time, unless the first is never
executed.** -/
theorem eachAfter_iff (h : f.Nested) (hadv : f.Advances) (hs : f.StaticBounds) {a b : OpId}
    (hne : a ≠ b) (hab : f.StandsBefore a b) (hb : f.Reaches b) :
    f.EachAfter a b ↔ (f.Runs b → f.Runs a) := by
  classical
  constructor
  · intro heach hruns
    obtain ⟨choice, hchoice⟩ := h.exists_choice hadv hs hruns
    obtain ⟨j, e', hj, -⟩ := h.exists_visit hb choice hchoice
    obtain ⟨i, e, hi, -⟩ := heach j e' hj
    exact h.runs_of_visit hadv hs hi
  · intro hruns j e' hj
    have ha := hruns (h.runs_of_visit hadv hs hj)
    obtain ⟨-, hvalues'⟩ := (h.mem_timeline b e').mp (List.mem_of_getElem? hj)
    obtain ⟨choice, hchoice⟩ := h.exists_choice hadv hs ha
    -- The execution of `a` in the same turn of the loops around both.
    obtain ⟨i, e, hi, he⟩ := h.exists_visit (h.runs_iff.mp ha).1
      (fun l => if f.Around l b then e' l else choice l) fun l hl => by
        by_cases hlb : f.Around l b
        · rw [if_pos hlb]
          exact (hvalues' l).1 hlb
        · rw [if_neg hlb]
          exact hchoice l hl
    refine ⟨i, e, hi, h.turnBefore hadv hne hab i j e e' hi hj fun l hla hlb => ?_⟩
    rw [he l hla, if_pos hlb]

end Nested

end Func
end Dataflow
