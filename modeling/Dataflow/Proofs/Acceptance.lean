/-
# What the check accepts

`Func.verify` accepts exactly the functions in order.  The argument follows the visit.

* **It accepts nothing else.**  A visit that ends without a defect has nothing pending, so the
  places of all blocks it met are the places of the operations it looked at
  (`Func.Visiting.places`).  Hence it looked at everything that is reached, and everything
  stands in one place.
* **It accepts all of them.**  In a function in order a pending operation was never looked at
  before: it would stand in two places.  So no step of the visit finds a defect.
-/
import Dataflow.Proofs.WellFormed

namespace Dataflow
namespace Func

/-! ## 1. The tables -/

theorem slotDefect?_eq_none_iff {f : Func} :
    f.slotDefect? = none ↔ ∀ (i : Nat) (op : Op), f.ops[i]? = some op → op.id = i := by
  unfold slotDefect?
  rw [List.findSome?_eq_none_iff]
  constructor
  · intro h i op hop
    have hmem : (op, i) ∈ f.ops.toList.zipIdx := by
      rw [List.mk_mem_zipIdx_iff_getElem?, Array.getElem?_toList]
      exact hop
    simpa using h (op, i) hmem
  · rintro h ⟨op, i⟩ hmem
    rw [List.mk_mem_zipIdx_iff_getElem?, Array.getElem?_toList] at hmem
    simp [h i op hmem]

/-- A value is in order when it is in its own slot and its definition is backed. -/
theorem valueDefectAt?_eq_none_iff {f : Func} {v : Value} {slot : Nat} :
    f.valueDefectAt? v slot = none ↔ v.id = slot ∧ f.Backs v.definition slot := by
  unfold valueDefectAt?
  by_cases hid : v.id = slot
  · rw [if_neg (by simpa using hid)]
    subst hid
    cases v.definition with
    | argument position => simp [Backs]
    | op d => cases hop : f.ops[d]? <;> simp [Backs, hop]
  · simp [hid]

theorem valueDefect?_eq_none_iff {f : Func} :
    f.valueDefect? = none ↔
      ∀ (i : Nat) (v : Value), f.values[i]? = some v → v.id = i ∧ f.Backs v.definition i := by
  unfold valueDefect?
  rw [List.findSome?_eq_none_iff]
  constructor
  · intro h i v hv
    have hmem : (v, i) ∈ f.values.toList.zipIdx := by
      rw [List.mk_mem_zipIdx_iff_getElem?, Array.getElem?_toList]
      exact hv
    exact valueDefectAt?_eq_none_iff.mp (h (v, i) hmem)
  · rintro h ⟨v, i⟩ hmem
    rw [List.mk_mem_zipIdx_iff_getElem?, Array.getElem?_toList] at hmem
    exact valueDefectAt?_eq_none_iff.mpr (h i v hmem)

theorem argumentDefect?_eq_none_iff {f : Func} :
    f.argumentDefect? = none ↔
      ∀ (position : Nat) (v : ValueId), f.arguments[position]? = some v →
        ∃ value, f.values[v]? = some value ∧ value.definition = .argument position := by
  unfold argumentDefect?
  rw [List.findSome?_eq_none_iff]
  constructor
  · intro h position v hv
    have hmem : (v, position) ∈ f.arguments.zipIdx := List.mk_mem_zipIdx_iff_getElem?.mpr hv
    simpa [Option.map_eq_some_iff] using h (v, position) hmem
  · rintro h ⟨v, position⟩ hmem
    obtain ⟨value, hv, hdef⟩ := h position v (List.mk_mem_zipIdx_iff_getElem?.mp hmem)
    simp [hv, hdef]

/-- Nothing is wrong with the tables exactly when they agree. -/
theorem tableDefect?_eq_none_iff {f : Func} : f.tableDefect? = none ↔ f.TablesAgree := by
  simp only [tableDefect?, Option.or_eq_none_iff, slotDefect?_eq_none_iff,
    valueDefect?_eq_none_iff, argumentDefect?_eq_none_iff]
  constructor
  · rintro ⟨⟨hops, hvalues⟩, harguments⟩
    exact ⟨hops, fun i v hv => (hvalues i v hv).1, fun i v hv => (hvalues i v hv).2, harguments⟩
  · intro h
    exact ⟨⟨h.opSlots, fun i v hv => ⟨h.valueSlots i v hv, h.definitions i v hv⟩⟩, h.arguments⟩

theorem TablesAgree.definersExist {f : Func} (h : f.TablesAgree) : f.DefinersExist := by
  intro v value d hv hd
  have hback := h.definitions v value hv
  rw [hd] at hback
  obtain ⟨op, hop, -⟩ := hback
  exact ⟨op, hop⟩

/-! ## 2. One operation -/

theorem isLoopSlot_iff {f : Func} {id : OpId} : f.isLoopSlot id = true ↔ f.IsLoop id := by
  unfold isLoopSlot IsLoop kindOf
  cases f.ops[id]? with
  | none => simp
  | some op => cases hk : op.kind <;> simp [Kind.isLoop, Kind.loop?, hk]

/-- **Climbing finds exactly what is above.** -/
theorem meets_eq_ok {f : Func} {a : OpId} : ∀ {levels : Nat} {id : OpId} {b : Bool},
    f.meets a levels id = .ok b → (b = true ↔ f.Above a id)
  | 0, _, _, h => by cases h
  | levels + 1, id, b, h => by
    rw [meets] at h
    by_cases ha : id = a
    · subst ha
      simp only [if_true, Checked.pure_eq_ok, Except.ok.injEq] at h
      exact ⟨fun _ => .refl, fun _ => h.symm⟩
    · simp only [if_neg ha, Checked.bind_eq_ok] at h
      obtain ⟨op, hop, h⟩ := h
      have hparent : f.parentOf id = op.parent := parentOf_eq (op_eq_ok_iff.mp hop)
      have habove : f.Above a id ↔ ∃ p, f.Above a p ∧ op.parent = some p := by
        rw [Above, Relation.ReflTransGen.cases_tail_iff]
        simp only [IsParent, hparent, ha, false_or]
      cases hp : op.parent with
      | none =>
        simp only [hp, Checked.pure_eq_ok, Except.ok.injEq] at h
        simp [habove, hp, ← h]
      | some p =>
        simp only [hp] at h
        simp [habove, hp, meets_eq_ok h]

theorem encloses_eq_ok {f : Func} {a id : OpId} {b : Bool} (h : f.encloses a id = .ok b) :
    b = true ↔ f.Above a id := meets_eq_ok h

theorem useDefect?_eq_none_iff {f : Func} (hdef : f.DefinersExist) {id : OpId} {v : ValueId} :
    f.useDefect? id v = .ok none ↔ f.Usable v := by
  unfold useDefect? Usable
  cases hv : f.values[v]? with
  | none => simp
  | some value =>
    cases hd : value.definition with
    | argument p => simp [hd]
    | op d =>
      obtain ⟨op, hop⟩ := hdef v value d hv hd
      have hlook : f.op d = .ok op := op_eq_ok_iff.mpr hop
      simp [hd, hlook, IsLive, hop]

theorem resultDefect?_eq_none_iff {f : Func} {id : OpId} {op : Op}
    (huse : ∀ v, op.kind.result? = some v → f.Usable v) :
    f.resultDefect? id op = .ok none ↔ ∀ v, op.kind.result? = some v →
      ∃ value, f.values[v]? = some value ∧ value.definition = .op id := by
  unfold resultDefect?
  cases hr : op.kind.result? with
  | none => simp
  | some v =>
    obtain ⟨value, hv, -⟩ := huse v hr
    have hlook : f.value v = .ok value := value_eq_ok_iff.mpr hv
    simp [hlook, hv]

/-- The way up from the compute must not fault. -/
theorem mentionDefect?_eq_none_iff {f : Func} {id l : OpId}
    (hup : ∃ b, f.encloses l id = .ok b) :
    f.mentionDefect? id l = .ok none ↔ f.IsLoop l ∧ f.Above l id := by
  obtain ⟨b, hb⟩ := hup
  have habove := encloses_eq_ok hb
  unfold mentionDefect? hasEnclosingLoop
  by_cases hl : f.isLoopSlot l = true
  · cases b <;> simp_all [← isLoopSlot_iff]
  · simp [← isLoopSlot_iff, hl]

/-- What is found in a loop or in a compute. -/
theorem kindDefect?_eq_none_iff {f : Func} {id : OpId} {k : Kind}
    (hup : ∀ a, ∃ b, f.encloses a id = .ok b) :
    f.kindDefect? id k = .ok none ↔
      (∀ l, k = .loop l → 0 < l.step ∧ ∀ tile, l.pointOf = some tile → f.IsLoop tile) ∧
      (∀ c, k = .compute c → ∀ l ∈ c.loops, f.IsLoop l ∧ f.Above l id) := by
  cases k with
  | loop l =>
    by_cases hstep : l.step ≤ 0
    · have hpos : ¬ 0 < l.step := by omega
      simp [kindDefect?, hstep, hpos]
    · have hpos : 0 < l.step := by omega
      cases hp : l.pointOf with
      | none => simp [kindDefect?, hstep, hpos, hp]
      | some tile => simp [kindDefect?, hstep, hpos, hp, ← isLoopSlot_iff]
  | compute c => simp [kindDefect?, findSomeM?_eq_none, mentionDefect?_eq_none_iff (hup _)]
  | _ => simp [kindDefect?]

/-- **The check of one operation is exact.** -/
theorem opDefect?_eq_none_iff {f : Func} (hdef : f.DefinersExist) {id : OpId} {op : Op}
    (hup : ∀ a, ∃ b, f.encloses a id = .ok b) :
    f.opDefect? id op = .ok none ↔ f.Mentions (f.Above · id) id op := by
  have huses : (op.kind.operands ++ op.kind.result?.toList).findSomeM? (f.useDefect? id) = .ok none
      ↔ ∀ v ∈ op.kind.operands ++ op.kind.result?.toList, f.Usable v := by
    rw [findSomeM?_eq_none]
    exact forall₂_congr fun v _ => useDefect?_eq_none_iff hdef
  have hresult (hu : ∀ v ∈ op.kind.operands ++ op.kind.result?.toList, f.Usable v) :
      f.resultDefect? id op = .ok none ↔ ∀ v, op.kind.result? = some v →
        ∃ value, f.values[v]? = some value ∧ value.definition = .op id :=
    resultDefect?_eq_none_iff fun v hv => hu v (by simp [hv])
  unfold opDefect?
  rw [Checked.bind_eq_ok]
  constructor
  · rintro ⟨r, hr, h⟩
    cases r with
    | some d => cases h
    | none =>
      obtain ⟨r, hr', h⟩ := Checked.bind_eq_ok.mp h
      cases r with
      | some d => cases h
      | none =>
        obtain ⟨hloop, hcompute⟩ := (kindDefect?_eq_none_iff hup).mp h
        have hu := huses.mp hr
        exact ⟨hu, (hresult hu).mp hr', hloop, hcompute⟩
  · intro h
    refine ⟨none, huses.mpr h.uses, ?_⟩
    rw [Checked.bind_eq_ok]
    exact ⟨none, (hresult h.uses).mpr h.result,
      (kindDefect?_eq_none_iff hup).mpr ⟨h.loop, h.compute⟩⟩

/-! ## 3. The visit finds nothing in vain -/

/-- One step of the visit that finds no defect, taken apart. -/
theorem visit_cons_eq_none {f : Func} {steps : Nat} {owner : Option OpId} {id : OpId}
    {pending : List (Option OpId × OpId)} {seen : List OpId} {r : Option Defect}
    (hv : f.Visiting ((owner, id) :: pending) seen) {op : Op} (hop : f.ops[id]? = some op)
    (hlive : op.erased = false) (hparent : op.parent = owner) (hnew : id ∉ seen)
    (h : f.visit (steps + 1) ((owner, id) :: pending) seen = .ok r)
    (hsound : f.opDefect? id op = .ok none) :
    f.Visiting (op.body.reverse.map (fun child => (some id, child)) ++ pending) (id :: seen) ∧
      f.visit steps (op.body.reverse.map (fun child => (some id, child)) ++ pending) (id :: seen)
        = .ok r := by
  refine ⟨hv.step hop hlive hparent hnew hsound, ?_⟩
  rw [visit] at h
  simpa [hop, hlive, hparent, hnew, hsound] using h

/-- A visit that finds no defect has looked at everything in the end. -/
theorem Visiting.of_visit_eq_none {f : Func} : ∀ {steps : Nat}
    {pending : List (Option OpId × OpId)} {seen : List OpId}, f.Visiting pending seen →
      f.visit steps pending seen = .ok none → ∃ all, f.Visiting [] all
  | 0, _, _, _, h => by cases h
  | _ + 1, [], seen, hv, _ => ⟨seen, hv⟩
  | steps + 1, (owner, id) :: pending, seen, hv, h => by
    have hstep := h
    rw [visit] at hstep
    cases hop : f.ops[id]? with
    | none => simp [hop] at hstep
    | some op =>
      -- Each of the four tests that the step makes must have passed.
      simp only [hop] at hstep
      split at hstep
      · cases hstep
      · rename_i hlive
        split at hstep
        · cases hstep
        · rename_i hplace
          simp only [ne_eq, Bool.or_eq_true, decide_eq_true_eq, not_or, Decidable.not_not,
            List.contains_iff_mem] at hplace
          obtain ⟨r, hr, hrest⟩ := Checked.bind_eq_ok.mp hstep
          cases r with
          | some d => cases hrest
          | none =>
            have hnext := visit_cons_eq_none hv hop (by simpa using hlive) hplace.1 hplace.2 h hr
            exact of_visit_eq_none hnext.1 hnext.2

namespace Visiting

variable {f : Func} {all : List OpId}

/-- At the end of the visit a place of a block is the place of an operation looked at. -/
theorem mem_placesIn_iff (h : f.Visiting [] all) {owner : Option OpId} {id : OpId} :
    (owner, id) ∈ f.placesIn all ↔ id ∈ all ∧ f.parentOf id = owner := by
  rw [← h.places.mem_iff, List.nil_append, List.mem_map]
  constructor
  · rintro ⟨x, hx, heq⟩
    cases heq
    exact ⟨hx, rfl⟩
  · rintro ⟨hid, rfl⟩
    exact ⟨id, hid, rfl⟩

theorem mem_placesIn_top {seen : List OpId} {id : OpId} (hid : id ∈ f.body) :
    (none, id) ∈ f.placesIn seen :=
  List.mem_append_left _ (List.mem_map.mpr ⟨id, hid, rfl⟩)

theorem mem_placesIn_nested {seen : List OpId} {owner id : OpId} (howner : owner ∈ seen)
    (hid : id ∈ f.bodyOf owner) : (some owner, id) ∈ f.placesIn seen :=
  List.mem_append_right _ (List.mem_flatMap.mpr ⟨owner, howner, List.mem_map.mpr ⟨id, hid, rfl⟩⟩)

/-- Everything that is reached was looked at. -/
theorem mem_of_reaches (h : f.Visiting [] all) {id : OpId} (hid : f.Reaches id) : id ∈ all := by
  induction hid with
  | top hmem => exact (h.mem_placesIn_iff.mp (mem_placesIn_top hmem)).1
  | nested _ hmem ih => exact (h.mem_placesIn_iff.mp (mem_placesIn_nested ih hmem)).1

/-- The places of all blocks are distinct. -/
theorem nodup_placesIn (h : f.Visiting [] all) : (f.placesIn all).Nodup := by
  refine h.places.nodup_iff.mp ?_
  rw [List.nil_append]
  exact h.nodup.map fun _ _ heq => congrArg Prod.snd heq

/-- At the end of the visit the blocks and the parent links are known to agree. -/
theorem nested (h : f.Visiting [] all) : f.Nested where
  nodup_body := (List.nodup_append'.mp h.nodup_placesIn).1.of_map _
  parentOf_top := fun id hid => (h.mem_placesIn_iff.mp (mem_placesIn_top hid)).2
  nodup_bodyOf := fun owner howner => by
    have hflat := (List.nodup_append'.mp h.nodup_placesIn).2.1
    exact ((List.nodup_flatMap.mp hflat).1 owner (h.mem_of_reaches howner)).of_map _
  parentOf_nested := fun owner howner id hid =>
    (h.mem_placesIn_iff.mp (mem_placesIn_nested (h.mem_of_reaches howner) hid)).2
  live := fun id hid => by
    obtain ⟨op, hop, hlive, -⟩ := h.sound id (h.mem_of_reaches hid)
    exact ⟨op, hop, hlive⟩

/-- **A visit that ends without a defect leaves a tidy function.** -/
theorem tidy (h : f.Visiting [] all) (htables : f.TablesAgree) : f.Tidy where
  toTablesAgree := htables
  toNested := h.nested
  mentions := fun id op hid hop => by
    have hmem := h.mem_of_reaches hid
    obtain ⟨op', hop', -, hsound⟩ := h.sound id hmem
    rw [hop] at hop'
    cases hop'
    exact (opDefect?_eq_none_iff htables.definersExist
      fun a => h.rooted.encloses_isOk h.nodup a hmem).mp hsound

end Visiting

/-! ## 4. The visit finds nothing where nothing is -/

/-- Where blocks and parent links agree, the places of reached blocks are distinct. -/
theorem Nested.nodup_placesIn {f : Func} (h : f.Nested) {seen : List OpId} (hnd : seen.Nodup)
    (hreach : ∀ id ∈ seen, f.Reaches id) : (f.placesIn seen).Nodup := by
  refine List.nodup_append'.mpr ⟨h.nodup_body.map fun _ _ heq => congrArg Prod.snd heq, ?_, ?_⟩
  · refine List.nodup_flatMap.mpr ⟨fun id hid => ?_, hnd.imp fun {a b} hab => ?_⟩
    · exact (h.nodup_bodyOf id (hreach id hid)).map fun _ _ heq => congrArg Prod.snd heq
    · rintro ⟨owner, x⟩ ha hb
      obtain ⟨_, _, heq⟩ := List.mem_map.mp ha
      obtain ⟨_, _, heq'⟩ := List.mem_map.mp hb
      cases heq
      cases heq'
      exact hab rfl
  · rintro ⟨owner, x⟩ htop hnested
    obtain ⟨_, _, heq⟩ := List.mem_map.mp htop
    obtain ⟨_, _, hmem⟩ := List.mem_flatMap.mp hnested
    obtain ⟨_, _, heq'⟩ := List.mem_map.mp hmem
    cases heq
    cases heq'

/-- ...and what is pending is reached, and its parent link names the owner. -/
theorem Nested.of_mem_placesIn {f : Func} (h : f.Nested) {seen : List OpId}
    (hreach : ∀ id ∈ seen, f.Reaches id) {owner : Option OpId} {id : OpId}
    (hmem : (owner, id) ∈ f.placesIn seen) : f.Reaches id ∧ f.parentOf id = owner := by
  rcases List.mem_append.mp hmem with htop | hnested
  · obtain ⟨x, hx, heq⟩ := List.mem_map.mp htop
    cases heq
    exact ⟨.top hx, h.parentOf_top id hx⟩
  · obtain ⟨p, hp, hx⟩ := List.mem_flatMap.mp hnested
    obtain ⟨x, hx, heq⟩ := List.mem_map.mp hx
    cases heq
    exact ⟨.nested (hreach p hp) hx, h.parentOf_nested p (hreach p hp) id hx⟩

/-- **The visit of a tidy function finds no defect.** -/
theorem Tidy.visit_eq_none {f : Func} (h : f.Tidy) : ∀ {steps : Nat}
    {pending : List (Option OpId × OpId)} {seen : List OpId} {r : Option Defect},
      f.Visiting pending seen → (∀ id ∈ seen, f.Reaches id) →
      f.visit steps pending seen = .ok r → r = none
  | 0, _, _, _, _, _, hr => by cases hr
  | _ + 1, [], _, _, _, _, hr => by
    rw [visit] at hr
    cases hr
    rfl
  | steps + 1, (owner, id) :: pending, seen, r, hv, hreach, hr => by
    have hmem : (owner, id) ∈ f.placesIn seen :=
      hv.places.mem_iff.mp (List.mem_append_left _ List.mem_cons_self)
    obtain ⟨hid, hparentOf⟩ := h.of_mem_placesIn hreach hmem
    obtain ⟨op, hop, hlive⟩ := h.live id hid
    have hparent : op.parent = owner := by rw [← parentOf_eq hop, hparentOf]
    -- If the operation had been looked at, its place would be there twice.
    have hnew : id ∉ seen := by
      intro hseen
      have hnd := hv.places.nodup_iff.mpr (h.nodup_placesIn hv.nodup hreach)
      rw [List.cons_append, List.nodup_cons] at hnd
      refine hnd.1 (List.mem_append_right _ (List.mem_map.mpr ⟨id, hseen, ?_⟩))
      rw [hparentOf]
    have hroot := hv.rooted_cons hop hparent
    have hsound : f.opDefect? id op = .ok none :=
      (opDefect?_eq_none_iff h.definersExist fun a =>
        hroot.encloses_isOk (List.nodup_cons.mpr ⟨hnew, hv.nodup⟩) a List.mem_cons_self).mpr
        (h.mentions id op hid hop)
    have hnext := visit_cons_eq_none hv hop hlive hparent hnew hr hsound
    refine h.visit_eq_none hnext.1 ?_ hnext.2
    intro x hx
    rcases List.mem_cons.mp hx with rfl | hx
    · exact hid
    · exact hreach x hx

/-! ## 5. The whole check -/

/-- The check finds no defect exactly in a tidy function. -/
theorem inspect_eq_none_iff {f : Func} : f.inspect = .ok none ↔ f.Tidy := by
  unfold inspect
  constructor
  · intro h
    cases htable : f.tableDefect? with
    | some d => rw [htable] at h; cases h
    | none =>
      rw [htable] at h
      obtain ⟨all, hall⟩ := (Visiting.start f).of_visit_eq_none h
      exact hall.tidy (tableDefect?_eq_none_iff.mp htable)
  · intro h
    rw [tableDefect?_eq_none_iff.mpr h.toTablesAgree]
    have hvisit : ∃ r, f.nestingDefect? = .ok r :=
      visit_isOk h.definersExist (Visiting.start f) (Nat.le_add_right _ _)
    obtain ⟨r, hr⟩ := hvisit
    have hnone : r = none := h.visit_eq_none (Visiting.start f) (fun _ hid => by cases hid) hr
    rw [hnone] at hr
    exact hr

theorem verify_eq_ok_iff_inspect {f : Func} : f.verify = .ok () ↔ f.inspect = .ok none := by
  have hget : f.inspect = .ok f.defect? := Checked.eq_ok_get _ f.inspect_isOk
  unfold verify
  rw [hget]
  cases f.defect? <;> simp

/-- A function is accepted exactly when it is tidy. -/
theorem verify_eq_ok_iff_tidy {f : Func} : f.verify = .ok () ↔ f.Tidy :=
  verify_eq_ok_iff_inspect.trans inspect_eq_none_iff

/-- **The check is total and exact.**  Whatever the links of a function are, no lookup of the
check misses and neither of its loops runs out of steps; what is found is the answer given; and
the function is accepted exactly when it is in order. -/
theorem inspect_total_and_verify_exact (f : Func) :
    (∃ found, f.inspect = .ok found ∧ ∀ d, f.verify = .error d ↔ found = some d) ∧
      (f.verify = .ok () ↔ f.WellFormed) := by
  refine ⟨⟨f.defect?, Checked.eq_ok_get _ f.inspect_isOk, fun d => ?_⟩, ?_⟩
  · unfold verify
    cases f.defect? <;> simp
  · exact verify_eq_ok_iff_tidy.trans wellFormed_iff_tidy.symm

end Func
end Dataflow
