/-
# The order of operations

In a forest the ways up from two operations part at one block, and what stands in that block above
the one comes before, or after, what stands there above the other.  `Func.precedes` compares the
two.  So of two operations neither of which is above the other at most one precedes the other
(`Func.Nested.eq_of_precedes`), and on reached operations the comparison always ends.
-/
import Dataflow.Func.Precedence
import Dataflow.Proofs.Acceptance
import Dataflow.Proofs.Nesting

namespace Dataflow
namespace Func

variable {f : Func}

/-! ## 1. Ways up end -/

namespace Nested

/-- Whether an operation is above a reached one can be told. -/
theorem encloses_isOk (h : f.Nested) (a : OpId) : ∀ id, f.Reaches id →
    ∃ b, f.encloses a id = .ok b := by
  refine h.upward (motive := fun levels id => ∃ b, f.meets a levels id = .ok b)
    (fun levels id op hop hp => ?_) fun levels id op parent hop hp _ ⟨b, hb⟩ => ?_
  · by_cases ha : id = a
    · exact ⟨true, by simp [meets, ha]⟩
    · exact ⟨false, by simp [meets, ha, op_eq_ok_iff.mpr hop, hp]⟩
  · by_cases ha : id = a
    · exact ⟨true, by simp [meets, ha]⟩
    · exact ⟨b, by simp [meets, ha, op_eq_ok_iff.mpr hop, hp, hb]⟩

theorem encloses_iff_above (h : f.Nested) {a id : OpId} (hid : f.Reaches id) :
    f.encloses a id = .ok true ↔ f.Above a id := by
  obtain ⟨b, hb⟩ := h.encloses_isOk a id hid
  rw [← encloses_eq_ok hb, hb, Except.ok.injEq]

theorem climb_isOk (h : f.Nested) (a : OpId) (owner : Option OpId) : ∀ id, f.Reaches id →
    ∃ current, f.climb a owner f.depthBound id = .ok current := by
  refine h.upward (motive := fun levels id => ∃ current, f.climb a owner levels id = .ok current)
    (fun levels id op hop hp => ?_) fun levels id op parent hop hp _ ⟨current, hcurrent⟩ => ?_
  · rw [climb, op_eq_ok_iff.mpr hop, Checked.ok_bind, hp]
    split
    · exact ⟨_, rfl⟩
    · dsimp only
      split <;> exact ⟨_, rfl⟩
  · rw [climb, op_eq_ok_iff.mpr hop, Checked.ok_bind, hp]
    split
    · exact ⟨_, rfl⟩
    · dsimp only
      split
      · exact ⟨_, rfl⟩
      · exact ⟨current, hcurrent⟩

theorem hoist_isOk (h : f.Nested) {b : OpId} (hb : f.Reaches b) : ∀ a, f.Reaches a →
    ∃ a', f.hoist b f.depthBound a = .ok a' := by
  refine h.upward (motive := fun levels a => ∃ a', f.hoist b levels a = .ok a')
    (fun levels a op hop hp => ?_) fun levels a op parent hop hp hparent ⟨a', ha'⟩ => ?_
  · exact ⟨a, by simp [hoist, op_eq_ok_iff.mpr hop, hp]⟩
  · obtain ⟨encloses, henc⟩ := h.encloses_isOk parent b hb
    cases encloses with
    | true => exact ⟨a, by simp [hoist, op_eq_ok_iff.mpr hop, hp, henc]⟩
    | false => exact ⟨a', by simp [hoist, op_eq_ok_iff.mpr hop, hp, henc, ha']⟩

end Nested

/-! ## 2. What they lead to -/

/-- Climbing leads to the operation looked for, or into the block looked for. -/
theorem climb_eq_ok {a : OpId} {owner : Option OpId} : ∀ {levels : Nat} {id current : OpId},
    f.climb a owner levels id = .ok (some current) →
      f.Above current id ∧ (current = a ∨ f.parentOf current = owner)
  | 0, _, _, hc => by cases hc
  | levels + 1, id, current, hc => by
    rw [climb] at hc
    split at hc
    · rename_i heq
      cases hc
      exact ⟨.refl, .inl heq⟩
    · obtain ⟨op, hop, hc⟩ := Checked.bind_eq_ok.mp hc
      have hparent : f.parentOf id = op.parent := parentOf_eq (op_eq_ok_iff.mp hop)
      simp only at hc
      split at hc
      · rename_i howner
        cases hc
        exact ⟨.refl, .inr (hparent.trans howner)⟩
      · split at hc
        · cases hc
        · rename_i parent hp
          obtain ⟨hup, hcase⟩ := climb_eq_ok hc
          exact ⟨hup.tail (hparent.trans hp), hcase⟩

/-- Climbing in vain passes neither the operation looked for nor the block looked for. -/
theorem climb_eq_none {a : OpId} {owner : Option OpId} : ∀ {levels : Nat} {id : OpId},
    f.climb a owner levels id = .ok none → ∀ c, f.Above c id → c ≠ a ∧ f.parentOf c ≠ owner
  | 0, _, hc => by cases hc
  | levels + 1, id, hc => by
    intro c hup
    rw [climb] at hc
    split at hc
    · cases hc
    · rename_i hne
      obtain ⟨op, hop, hc⟩ := Checked.bind_eq_ok.mp hc
      have hparent : f.parentOf id = op.parent := parentOf_eq (op_eq_ok_iff.mp hop)
      simp only at hc
      split at hc
      · cases hc
      · rename_i howner
        rcases above_iff.mp hup with rfl | ⟨parent, hp, hup⟩
        · exact ⟨hne, fun heq => howner (hparent.symm.trans heq)⟩
        · rw [hparent.symm.trans hp] at hc
          exact climb_eq_none hc c hup

/-- Hoisting leads to an operation whose owner is above `b`, and which is not itself, unless
nothing was hoisted. -/
theorem hoist_eq_ok {b : OpId} : ∀ {levels : Nat} {a a' : OpId}, f.hoist b levels a = .ok a' →
    f.Above a' a ∧ (∀ owner, f.parentOf a' = some owner → f.Above owner b) ∧
      (a' = a ∨ ¬ f.Above a' b)
  | 0, _, _, ha => by cases ha
  | levels + 1, a, a', ha => by
    rw [hoist] at ha
    obtain ⟨op, hop, ha⟩ := Checked.bind_eq_ok.mp ha
    have hparent : f.parentOf a = op.parent := parentOf_eq (op_eq_ok_iff.mp hop)
    split at ha
    · rename_i hp
      cases ha
      refine ⟨.refl, fun owner howner => ?_, .inl rfl⟩
      rw [hparent, hp] at howner
      cases howner
    · rename_i parent hp
      obtain ⟨encloses, henc, ha⟩ := Checked.bind_eq_ok.mp ha
      cases encloses with
      | true =>
        cases ha
        refine ⟨.refl, fun owner howner => ?_, .inl rfl⟩
        rw [hparent, hp] at howner
        cases howner
        exact (encloses_eq_ok henc).mp rfl
      | false =>
        have hnot : ¬ f.Above parent b := fun hup => by
          have := (encloses_eq_ok henc).mpr hup
          cases this
        obtain ⟨hup, howner, hcase⟩ := hoist_eq_ok ha
        refine ⟨hup.tail (hparent.trans hp), howner, .inr ?_⟩
        rcases hcase with rfl | hcase
        · exact hnot
        · exact hcase

theorem findIdx?_of_position {id : OpId} {position? : Option Nat}
    (h : f.position id = .ok position?) :
    (f.blockOf (f.parentOf id)).findIdx? (· == id) = position? := by
  obtain ⟨op, hop, h⟩ := Checked.bind_eq_ok.mp h
  obtain ⟨block, hblock, h⟩ := Checked.bind_eq_ok.mp h
  have hlist : f.blockOf (f.parentOf id) = block := by
    rw [parentOf_eq (op_eq_ok_iff.mp hop)]
    cases hp : op.parent with
    | none =>
      rw [hp] at hblock
      cases hblock
      rfl
    | some parent =>
      rw [hp] at hblock
      obtain ⟨owner, howner, hblock⟩ := Checked.bind_eq_ok.mp hblock
      cases hblock
      exact bodyOf_eq (op_eq_ok_iff.mp howner)
  rw [hlist]
  exact Except.ok.inj h

theorem position_eq_ok {id : OpId} {position : Nat} (h : f.position id = .ok (some position)) :
    (f.blockOf (f.parentOf id))[position]? = some id := by
  obtain ⟨hlt, heq, -⟩ := List.findIdx?_eq_some_iff_getElem.mp (findIdx?_of_position h)
  rw [List.getElem?_eq_getElem hlt, beq_iff_eq.mp heq]

/-- `f.Earlier a b`: the two stand in one block, `a` before `b`. -/
def Earlier (f : Func) (a b : OpId) : Prop :=
  f.parentOf b = f.parentOf a ∧ ∃ before after : Nat, before < after ∧
    (f.blockOf (f.parentOf a))[before]? = some a ∧ (f.blockOf (f.parentOf a))[after]? = some b

/-- A block whose operations know their owner lists them in order. -/
theorem pairwise_earlier {owner : Option OpId}
    (howner : ∀ id ∈ f.blockOf owner, f.parentOf id = owner) :
    (f.blockOf owner).Pairwise f.Earlier := by
  refine List.pairwise_iff_getElem.mpr fun i j hi hj hij => ?_
  have hfirst := howner _ (List.getElem_mem hi)
  have hsecond := howner _ (List.getElem_mem hj)
  refine ⟨hsecond.trans hfirst.symm, i, j, hij, ?_, ?_⟩
  · rw [hfirst, List.getElem?_eq_getElem hi]
  · rw [hfirst, List.getElem?_eq_getElem hj]

/-- **Dominance** leads through the nesting, or through an earlier place of the same block. -/
theorem dominates_eq_true {a b : OpId} (h : f.dominates a b = .ok true) :
    f.Above a b ∨ ∃ current, f.Above current b ∧ f.Earlier a current := by
  unfold dominates at h
  split at h
  · rename_i heq
    exact .inl (heq ▸ .refl)
  · obtain ⟨op, hop, h⟩ := Checked.bind_eq_ok.mp h
    obtain ⟨current?, hcurrent, h⟩ := Checked.bind_eq_ok.mp h
    have hparent : f.parentOf a = op.parent := parentOf_eq (op_eq_ok_iff.mp hop)
    cases current? with
    | none => cases h
    | some current =>
      obtain ⟨hup, hcase⟩ := climb_eq_ok hcurrent
      simp only at h
      split at h
      · rename_i heq
        exact .inl (heq ▸ hup)
      · rename_i hne
        have howner : f.parentOf current = f.parentOf a :=
          (hcase.resolve_left hne).trans hparent.symm
        obtain ⟨before?, hbefore, h⟩ := Checked.bind_eq_ok.mp h
        obtain ⟨after?, hafter, h⟩ := Checked.bind_eq_ok.mp h
        cases before? with
        | none => cases h
        | some before =>
          cases after? with
          | none => cases h
          | some after =>
            have hlt : before < after := by simpa using h
            have hplace := position_eq_ok hafter
            rw [howner] at hplace
            exact .inr ⟨current, hup, howner, before, after, hlt, position_eq_ok hbefore, hplace⟩

/-- The ways up from two operations part: in one block there is an earlier operation above the
first and a later one above the second. -/
def PartsBefore (f : Func) (a b : OpId) : Prop :=
  ∃ a' b', f.Above a' a ∧ f.Above b' b ∧ f.Earlier a' b'

/-- **Precedence** is nesting, or a parting of the ways. -/
theorem precedes_eq_true {a b : OpId} (hne : a ≠ b) (h : f.precedes a b = .ok true) :
    ¬ f.Above b a ∧ (f.Above a b ∨ f.PartsBefore a b) := by
  unfold precedes at h
  rw [if_neg hne] at h
  obtain ⟨encloses, henc, h⟩ := Checked.bind_eq_ok.mp h
  cases encloses with
  | true => cases h
  | false =>
    have hnot : ¬ f.Above b a := fun hup => by
      have := (encloses_eq_ok henc).mpr hup
      cases this
    obtain ⟨a', ha', h⟩ := Checked.bind_eq_ok.mp h
    obtain ⟨hup, -, hcase⟩ := hoist_eq_ok ha'
    refine ⟨hnot, ?_⟩
    rcases dominates_eq_true h with hdom | ⟨current, hcur, hearlier⟩
    · rcases hcase with rfl | hcase
      · exact .inl hdom
      · exact absurd hdom hcase
    · exact .inr ⟨a', current, hup, hcur, hearlier⟩

/-! ## 3. At most one precedes the other -/

namespace Nested

theorem mem_blockOf (h : f.Nested) {id : OpId} (hid : f.Reaches id) :
    id ∈ f.blockOf (f.parentOf id) ∧ ∀ owner, f.parentOf id = some owner → f.Reaches owner := by
  cases hid with
  | top hmem =>
    rw [h.parentOf_top id hmem]
    exact ⟨hmem, fun _ howner => by cases howner⟩
  | @nested owner _ howner hmem =>
    rw [h.parentOf_nested owner howner id hmem]
    exact ⟨hmem, fun _ heq => by cases heq; exact howner⟩

theorem nodup_blockOf (h : f.Nested) (owner : Option OpId)
    (howner : ∀ p, owner = some p → f.Reaches p) : (f.blockOf owner).Nodup := by
  cases owner with
  | none => exact h.nodup_body
  | some p => exact h.nodup_bodyOf p (howner p rfl)

/-- Two operations of one block have nothing below them in common. -/
theorem eq_of_above_blockmates (h : f.Nested) {a b id : OpId} (ha : f.Reaches a)
    (hb : f.Reaches b) (hparent : f.parentOf b = f.parentOf a) (hup : f.Above a id)
    (hup' : f.Above b id) : a = b := by
  obtain ⟨hmem, howner⟩ := h.mem_blockOf ha
  have hmem' := (h.mem_blockOf hb).1
  rw [hparent] at hmem'
  cases hp : f.parentOf a with
  | none =>
    rw [hp] at hmem hmem'
    exact h.eq_of_above_tops hmem hmem' hup hup'
  | some owner =>
    rw [hp] at hmem hmem'
    exact h.eq_of_above_siblings (howner owner hp) hmem hmem' hup hup'

/-- An operation above `a` beside one above `b` is the lowest such. -/
theorem eq_of_parting (h : f.Nested) {a b a₁ b₁ a₂ b₂ : OpId} (ha : f.Reaches a) (hb : f.Reaches b)
    (hup₁ : f.Above a₁ a) (hup₁' : f.Above b₁ b) (hbeside₁ : f.parentOf b₁ = f.parentOf a₁)
    (hne : a₁ ≠ b₁) (hup₂' : f.Above b₂ b) (hbeside₂ : f.parentOf b₂ = f.parentOf a₂)
    (habove : f.Above a₁ a₂) : a₁ = a₂ := by
  rcases above_iff.mp habove with heq | ⟨owner, howner, hup⟩
  · exact heq
  · -- The owner of the lower block is below `a₁`, and above `b`.
    have hcommon : f.Above a₁ b := by
      refine (hup.tail ?_).trans hup₂'
      rw [IsParent, hbeside₂, howner]
    exact absurd (h.eq_of_above_blockmates (h.reaches_of_above hup₁ ha)
      (h.reaches_of_above hup₁' hb) hbeside₁ hcommon hup₁') hne

/-- Two ways part in one place. -/
theorem parting_unique (h : f.Nested) {a b a₁ b₁ a₂ b₂ : OpId} (ha : f.Reaches a) (hb : f.Reaches b)
    (hup₁ : f.Above a₁ a) (hup₁' : f.Above b₁ b) (hbeside₁ : f.parentOf b₁ = f.parentOf a₁)
    (hne₁ : a₁ ≠ b₁) (hup₂ : f.Above a₂ a) (hup₂' : f.Above b₂ b)
    (hbeside₂ : f.parentOf b₂ = f.parentOf a₂) (hne₂ : a₂ ≠ b₂) : a₁ = a₂ := by
  rcases hup₁.total hup₂ with habove | habove
  · exact h.eq_of_parting ha hb hup₁ hup₁' hbeside₁ hne₁ hup₂' hbeside₂ habove
  · exact (h.eq_of_parting ha hb hup₂ hup₂' hbeside₂ hne₂ hup₁' hbeside₁ habove).symm

/-- An operation has one place in its block. -/
theorem place_unique (h : f.Nested) {a x : OpId} (ha : f.Reaches a) {i j : Nat}
    (hi : (f.blockOf (f.parentOf a))[i]? = some x) (hj : (f.blockOf (f.parentOf a))[j]? = some x) :
    i = j :=
  (List.getElem?_inj (List.getElem?_eq_some_iff.mp hi).1
    (h.nodup_blockOf (f.parentOf a) (h.mem_blockOf ha).2)).mp (hi.trans hj.symm)

theorem not_earlier_both (h : f.Nested) {a b : OpId} (ha : f.Reaches a) (hab : f.Earlier a b)
    (hba : f.Earlier b a) : False := by
  obtain ⟨hparent, i, j, hij, hi, hj⟩ := hab
  obtain ⟨-, k, l, hkl, hk, hl⟩ := hba
  rw [hparent] at hk hl
  have hil := h.place_unique ha hi hl
  have hjk := h.place_unique ha hj hk
  omega

theorem ne_of_earlier (h : f.Nested) {a b : OpId} (ha : f.Reaches a) (hab : f.Earlier a b) :
    a ≠ b := by
  rintro rfl
  exact h.not_earlier_both ha hab hab

/-- Two ways do not part in both orders. -/
theorem not_partsBefore_both (h : f.Nested) {a b : OpId} (ha : f.Reaches a) (hb : f.Reaches b)
    (hab : f.PartsBefore a b) (hba : f.PartsBefore b a) : False := by
  obtain ⟨a₁, b₁, hup₁, hup₁', hearlier₁⟩ := hab
  obtain ⟨b₂, a₂, hup₂', hup₂, hearlier₂⟩ := hba
  have hreach₁ : f.Reaches a₁ := h.reaches_of_above hup₁ ha
  have hne₁ : a₁ ≠ b₁ := h.ne_of_earlier hreach₁ hearlier₁
  have hne₂ : b₂ ≠ a₂ := h.ne_of_earlier (h.reaches_of_above hup₂' hb) hearlier₂
  obtain rfl : a₁ = a₂ := h.parting_unique ha hb hup₁ hup₁' hearlier₁.1 hne₁ hup₂ hup₂'
    hearlier₂.1.symm (Ne.symm hne₂)
  obtain rfl : b₁ = b₂ := h.parting_unique hb ha hup₁' hup₁ hearlier₁.1.symm (Ne.symm hne₁) hup₂'
    hup₂ hearlier₂.1 hne₂
  exact h.not_earlier_both hreach₁ hearlier₁ hearlier₂

/-- **Of two operations at most one precedes the other.** -/
theorem eq_of_precedes (h : f.Nested) {a b : OpId} (ha : f.Reaches a) (hb : f.Reaches b)
    (hab : f.precedes a b = .ok true) (hba : f.precedes b a = .ok true) : a = b := by
  by_contra hne
  obtain ⟨hnot, hcase⟩ := precedes_eq_true hne hab
  obtain ⟨hnot', hcase'⟩ := precedes_eq_true (Ne.symm hne) hba
  exact h.not_partsBefore_both ha hb (hcase.resolve_left hnot') (hcase'.resolve_left hnot)

/-! ## 4. Comparisons end -/

theorem position_isOk (h : f.Nested) {id : OpId} (hid : f.Reaches id) :
    ∃ position, f.position id = .ok position := by
  obtain ⟨op, hop, -⟩ := h.live id hid
  have hblock : ∃ block, f.block op.parent = .ok block := by
    cases hp : op.parent with
    | none => exact ⟨_, rfl⟩
    | some owner =>
      obtain ⟨owning, howning, -⟩ := h.live owner
        ((h.mem_blockOf hid).2 owner ((parentOf_eq hop).trans hp))
      exact ⟨owning.body, by simp [block, op_eq_ok_iff.mpr howning]⟩
  obtain ⟨block, hblock⟩ := hblock
  exact ⟨_, Checked.bind_eq_ok.mpr ⟨op, op_eq_ok_iff.mpr hop,
    Checked.bind_eq_ok.mpr ⟨block, hblock, rfl⟩⟩⟩

/-- Between reached operations dominance can be told. -/
theorem dominates_isOk (h : f.Nested) {a b : OpId} (ha : f.Reaches a) (hb : f.Reaches b) :
    ∃ answer, f.dominates a b = .ok answer := by
  unfold dominates
  split
  · exact ⟨true, rfl⟩
  · obtain ⟨op, hop, -⟩ := h.live a ha
    obtain ⟨current?, hcurrent⟩ := h.climb_isOk a op.parent b hb
    rw [op_eq_ok_iff.mpr hop, Checked.ok_bind, hcurrent, Checked.ok_bind]
    cases current? with
    | none => exact ⟨false, rfl⟩
    | some current =>
      dsimp only
      split
      · exact ⟨true, rfl⟩
      · obtain ⟨before, hbefore⟩ := h.position_isOk ha
        obtain ⟨after, hafter⟩ := h.position_isOk (h.reaches_of_above (climb_eq_ok hcurrent).1 hb)
        rw [hbefore, Checked.ok_bind, hafter, Checked.ok_bind]
        cases before <;> cases after <;> exact ⟨_, rfl⟩

/-- Between reached operations precedence can be told. -/
theorem precedes_isOk (h : f.Nested) {a b : OpId} (ha : f.Reaches a) (hb : f.Reaches b) :
    ∃ answer, f.precedes a b = .ok answer := by
  unfold precedes
  split
  · exact ⟨true, rfl⟩
  · obtain ⟨encloses, henc⟩ := h.encloses_isOk b a ha
    obtain ⟨a', ha'⟩ := h.hoist_isOk hb a ha
    rw [henc, Checked.ok_bind]
    cases encloses with
    | true => exact ⟨false, rfl⟩
    | false =>
      rw [ha']
      exact h.dominates_isOk (h.reaches_of_above (hoist_eq_ok ha').1 ha) hb

/-! ## 5. Dominance, exactly -/

/-- What dominates a reached operation is reached. -/
theorem reaches_of_dominates (h : f.Nested) {a b : OpId} (hb : f.Reaches b)
    (hdom : f.dominates a b = .ok true) : f.Reaches a := by
  rcases dominates_eq_true hdom with hup | ⟨current, hup, hparent, _, _, _, hplace, -⟩
  · exact h.reaches_of_above hup hb
  · have howner := (h.mem_blockOf (h.reaches_of_above hup hb)).2
    have hmem := List.mem_of_getElem? hplace
    rw [hparent] at howner
    cases hp : f.parentOf a with
    | none =>
      rw [hp] at hmem
      exact .top hmem
    | some owner =>
      rw [hp] at hmem
      exact .nested (howner owner hp) hmem

theorem position_of_place (h : f.Nested) {a : OpId} (ha : f.Reaches a) {place : Nat}
    (hplace : (f.blockOf (f.parentOf a))[place]? = some a) : f.position a = .ok (some place) := by
  obtain ⟨position?, hposition⟩ := h.position_isOk ha
  cases position? with
  | none =>
    have hnone := List.findIdx?_eq_none_iff.mp (findIdx?_of_position hposition) a
      (List.mem_of_getElem? hplace)
    simp at hnone
  | some position => rw [hposition, h.place_unique ha hplace (position_eq_ok hposition)]

/-- **Dominance is nesting, or an earlier place in a block around.** -/
theorem dominates_iff (h : f.Nested) {a b : OpId} (hb : f.Reaches b) :
    f.dominates a b = .ok true ↔
      f.Reaches a ∧ (f.Above a b ∨ ∃ current, f.Above current b ∧ f.Earlier a current) := by
  refine ⟨fun hdom => ⟨h.reaches_of_dominates hb hdom, dominates_eq_true hdom⟩, ?_⟩
  rintro ⟨ha, hcase⟩
  unfold dominates
  split
  · rfl
  · obtain ⟨op, hop, -⟩ := h.live a ha
    obtain ⟨current?, hcurrent⟩ := h.climb_isOk a op.parent b hb
    rw [op_eq_ok_iff.mpr hop, Checked.ok_bind, hcurrent, Checked.ok_bind]
    have hparent : f.parentOf a = op.parent := parentOf_eq hop
    cases current? with
    | none =>
      rcases hcase with hup | ⟨current, hup, hearlier⟩
      · exact absurd rfl (climb_eq_none hcurrent a hup).1
      · exact absurd (hearlier.1.trans hparent) (climb_eq_none hcurrent current hup).2
    | some c =>
      dsimp only
      split
      · rfl
      · rename_i hne
        obtain ⟨hup, hcase'⟩ := climb_eq_ok hcurrent
        have hc := h.reaches_of_above hup hb
        have hbeside : f.parentOf c = f.parentOf a := (hcase'.resolve_left hne).trans hparent.symm
        rcases hcase with hup' | ⟨current, hup', howner, before, after, hlt, hbefore, hafter⟩
        · exact absurd (h.eq_of_above_blockmates ha hc hbeside hup' hup).symm hne
        · obtain rfl : c = current := h.eq_of_above_blockmates hc (h.reaches_of_above hup' hb)
            (howner.trans hbeside.symm) hup hup'
          rw [← hbeside] at hafter
          rw [h.position_of_place ha hbefore, Checked.ok_bind, h.position_of_place hc hafter,
            Checked.ok_bind]
          exact congrArg Except.ok (decide_eq_true hlt)

end Nested

end Func
end Dataflow
