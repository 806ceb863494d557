/-
# The check of a function never faults

`Func.inspect` runs on functions of which nothing is known: a block may list a slot that does
not exist, bodies may run in a circle, parent links may lead anywhere.  Two of its lookups are
not guarded by a test of their own, and both of its loops count down:

* the definition of a used value is looked up in the operation table (`Func.useDefect?`), which
  is safe because the value table was checked before;
* the parent links above a compute are climbed (`Func.encloses`), which is safe because an
  operation is only looked at after the owner of its block, so that its parent links lead
  through operations that were looked at before (`Func.Rooted`);
* the visit expands no operation twice, so that it makes at most one step for every place of
  every block (`Func.Visiting.places`).

All three rest on one invariant of the visit, `Func.Visiting`.
-/
import Dataflow.Func.Defect

namespace Dataflow
namespace Func

/-! ## 1. Climbing through operations looked at before -/

/-- The parent link of the operation in a slot. -/
def parentOf (f : Func) (id : OpId) : Option OpId := f.ops[id]?.bind Op.parent

/-- The body of the operation in a slot. -/
def bodyOf (f : Func) (id : OpId) : List OpId := (f.ops[id]?.map Op.body).getD []

/-- Every slot of the list holds an operation whose parent is further back in the list. -/
def Rooted (f : Func) : List OpId → Prop
  | [] => True
  | id :: rest =>
    (∃ op, f.ops[id]? = some op ∧ ∀ parent, op.parent = some parent → parent ∈ rest)
      ∧ f.Rooted rest

theorem Rooted.exists_op {f : Func} : ∀ {path : List OpId}, f.Rooted path →
    ∀ id ∈ path, ∃ op, f.ops[id]? = some op
  | [], _, _, hid => by cases hid
  | _ :: _, h, id, hid => by
    rcases List.mem_cons.mp hid with rfl | hid
    · obtain ⟨op, hop, -⟩ := h.1
      exact ⟨op, hop⟩
    · exact h.2.exists_op id hid

/-- **Climbing stays on a rooted path**, so it ends within as many levels as the path has
slots, whatever is looked for. -/
theorem Rooted.meets_isOk {f : Func} (a : OpId) : ∀ {path : List OpId}, f.Rooted path →
    ∀ {levels : Nat} {id : OpId}, id ∈ path → path.length ≤ levels →
      ∃ b, f.meets a levels id = .ok b
  | [], _, _, _, hid, _ => by cases hid
  | first :: rest, h, 0, _, _, hlen => by simp at hlen
  | first :: rest, h, levels + 1, id, hid, hlen => by
    rw [List.length_cons] at hlen
    rcases List.mem_cons.mp hid with rfl | hid
    · obtain ⟨op, hop, hparent⟩ := h.1
      have hlook : f.op id = .ok op := op_eq_ok_iff.mpr hop
      rw [meets, hlook]
      by_cases ha : id = a
      · exact ⟨true, by simp [ha]⟩
      · cases hp : op.parent with
        | none => exact ⟨false, by simp [ha, hp]⟩
        | some parent =>
          obtain ⟨b, hb⟩ := h.2.meets_isOk a (hparent parent hp) (Nat.le_of_succ_le_succ hlen)
          exact ⟨b, by simpa [ha, hp] using hb⟩
    · exact h.2.meets_isOk a hid (by omega)

/-- Distinct slots that hold operations are no more than there are operations. -/
theorem length_le_size_of_nodup {f : Func} {path : List OpId} (hnd : path.Nodup)
    (hin : ∀ id ∈ path, ∃ op, f.ops[id]? = some op) : path.length ≤ f.ops.size := by
  have hsub : path ⊆ List.range f.ops.size := by
    intro id hid
    obtain ⟨op, hop⟩ := hin id hid
    obtain ⟨hlt, -⟩ := Array.getElem?_eq_some_iff.mp hop
    exact List.mem_range.mpr hlt
  simpa using hnd.length_le_of_subset hsub

/-- From a slot of a rooted path without repetition the way up never faults. -/
theorem Rooted.encloses_isOk {f : Func} {path : List OpId} (h : f.Rooted path)
    (hnd : path.Nodup) (a : OpId) {id : OpId} (hid : id ∈ path) :
    ∃ b, f.encloses a id = .ok b := by
  have hlen : path.length ≤ f.ops.size := length_le_size_of_nodup hnd h.exists_op
  exact h.meets_isOk a hid (Nat.le_succ_of_le hlen)

/-! ## 2. One operation -/

/-- The first find of a list gives an answer if every look does. -/
theorem findSomeM?_isOk {α β : Type} {look : α → Checked (Option β)} :
    ∀ {l : List α}, (∀ a ∈ l, ∃ r, look a = .ok r) → ∃ r, l.findSomeM? look = .ok r
  | [], _ => ⟨none, rfl⟩
  | a :: l, h => by
    obtain ⟨r, hr⟩ := h a List.mem_cons_self
    rw [List.findSomeM?, hr]
    cases r with
    | some b => exact ⟨some b, rfl⟩
    | none => exact findSomeM?_isOk fun b hb => h b (List.mem_cons_of_mem a hb)

/-- Every value that is defined by an operation names one that exists. -/
def DefinersExist (f : Func) : Prop :=
  ∀ (v : ValueId) (value : Value) (d : OpId), f.values[v]? = some value →
    value.definition = .op d → ∃ op, f.ops[d]? = some op

theorem useDefect?_isOk {f : Func} (hdef : f.DefinersExist) (id : OpId) (v : ValueId) :
    ∃ r, f.useDefect? id v = .ok r := by
  unfold useDefect?
  cases hv : f.values[v]? with
  | none => exact ⟨_, rfl⟩
  | some value =>
    simp only
    split
    · exact ⟨_, rfl⟩
    · rename_i d hd
      obtain ⟨op, hop⟩ := hdef v value d hv hd
      have hlook : f.op d = .ok op := op_eq_ok_iff.mpr hop
      rw [hlook]
      exact ⟨_, rfl⟩

/-- A value in which nothing was found wrong exists. -/
theorem exists_of_useDefect? {f : Func} {id : OpId} {v : ValueId}
    (h : f.useDefect? id v = .ok none) : ∃ value, f.values[v]? = some value := by
  unfold useDefect? at h
  cases hv : f.values[v]? with
  | none => rw [hv] at h; simp at h
  | some value => exact ⟨value, rfl⟩

theorem findSomeM?_eq_none {α β : Type} {look : α → Checked (Option β)} :
    ∀ {l : List α}, l.findSomeM? look = .ok none ↔ ∀ a ∈ l, look a = .ok none
  | [] => by simp
  | a :: l => by
    rw [List.findSomeM?, List.forall_mem_cons]
    cases hr : look a with
    | error e => simp [bind, Except.bind]
    | ok r =>
      cases r with
      | some b => simp
      | none => simpa using findSomeM?_eq_none

/-- **No lookup of the check of one operation misses**, if the definitions of all values exist
and the operation lies on a rooted path. -/
theorem opDefect?_isOk {f : Func} (hdef : f.DefinersExist) {path : List OpId}
    (hroot : f.Rooted path) (hnd : path.Nodup) {id : OpId} (hid : id ∈ path) (op : Op) :
    ∃ r, f.opDefect? id op = .ok r := by
  unfold opDefect?
  obtain ⟨uses, huses⟩ := findSomeM?_isOk
    (l := op.kind.operands ++ op.kind.result?.toList) fun v _ => useDefect?_isOk hdef id v
  rw [huses]
  cases uses with
  | some d => exact ⟨_, rfl⟩
  | none =>
    -- The result is one of the values looked at so far, so it exists.
    have hresult : ∃ r, f.resultDefect? id op = .ok r := by
      unfold resultDefect?
      cases hr : op.kind.result? with
      | none => exact ⟨_, rfl⟩
      | some v =>
        obtain ⟨value, hv⟩ := exists_of_useDefect?
          (findSomeM?_eq_none.mp huses v (by simp [hr]))
        have hlook : f.value v = .ok value := value_eq_ok_iff.mpr hv
        simp only [hlook, Checked.ok_bind]
        exact ⟨_, rfl⟩
    obtain ⟨r, hr⟩ := hresult
    simp only [Checked.ok_bind, hr]
    cases r with
    | some d => exact ⟨_, rfl⟩
    | none =>
      cases op.kind with
      | compute c =>
        refine findSomeM?_isOk fun l _ => ?_
        rw [mentionDefect?]
        have hl : ∃ b, f.hasEnclosingLoop l id = .ok b := by
          unfold hasEnclosingLoop
          split
          · exact hroot.encloses_isOk hnd l hid
          · exact ⟨false, rfl⟩
        obtain ⟨b, hb⟩ := hl
        simp only [hb, Checked.ok_bind]
        exact ⟨_, rfl⟩
      | _ => exact ⟨_, rfl⟩

/-! ## 3. The visit -/

/-- The places of the top-level block and of the bodies of the given slots, each as the owner of
the block and the slot listed there. -/
def placesIn (f : Func) (seen : List OpId) : List (Option OpId × OpId) :=
  f.body.map (none, ·) ++ seen.flatMap fun id => (f.bodyOf id).map (some id, ·)

/-- Distinct slots have at most as many places as any list that has them all. -/
theorem length_flatMap_le_of_subset (places : OpId → List OpId) : ∀ {l m : List OpId}, l.Nodup →
    l ⊆ m → (l.flatMap places).length ≤ (m.flatMap places).length
  | [], _, _, _ => by simp
  | id :: l, m, hnd, hsub => by
    obtain ⟨hid, hnd⟩ := List.nodup_cons.mp hnd
    have hmem : id ∈ m := hsub List.mem_cons_self
    have hrest : l ⊆ m.erase id := by
      intro x hx
      have hne : x ≠ id := fun h => hid (h ▸ hx)
      exact (List.mem_erase_of_ne hne).mpr (hsub (List.mem_cons_of_mem id hx))
    have hperm : (m.flatMap places).length = ((id :: m.erase id).flatMap places).length :=
      ((List.perm_cons_erase hmem).flatMap_right places).length_eq
    rw [hperm, List.flatMap_cons, List.flatMap_cons, List.length_append, List.length_append]
    exact Nat.add_le_add_left (length_flatMap_le_of_subset places hnd hrest) _

/-- The bodies of all slots are those of the operation table. -/
theorem flatMap_range_bodyOf (f : Func) :
    (List.range f.ops.size).flatMap f.bodyOf = f.ops.toList.flatMap fun op => op.body := by
  have hbodies : (List.range f.ops.size).map f.bodyOf = f.ops.toList.map fun op => op.body := by
    refine List.ext_getElem (by simp) fun i h₁ h₂ => ?_
    have hlt : i < f.ops.size := by simpa using h₁
    simp [bodyOf, Array.getElem?_eq_getElem hlt]
  rw [List.flatMap_def, List.flatMap_def, hbodies]

/-- Where the visit stands: what is pending, and what it has looked at. -/
structure Visiting (f : Func) (pending : List (Option OpId × OpId)) (seen : List OpId) :
    Prop where
  /-- No operation was looked at twice. -/
  nodup : seen.Nodup
  /-- An operation was looked at after its parent. -/
  rooted : f.Rooted seen
  /-- Nothing is wrong with what was looked at. -/
  sound : ∀ id ∈ seen, ∃ op, f.ops[id]? = some op ∧ op.erased = false ∧ f.opDefect? id op = .ok none
  /-- A place in a block met so far is still pending, or is the place of an operation that was
  looked at, and is so as often as the blocks have it. -/
  places : (pending ++ seen.map fun id => (f.parentOf id, id)).Perm (f.placesIn seen)

namespace Visiting

variable {f : Func} {pending : List (Option OpId × OpId)} {seen : List OpId}

/-- The visit starts with the top-level block. -/
theorem start (f : Func) : f.Visiting (f.body.reverse.map fun id => (none, id)) [] where
  nodup := List.nodup_nil
  rooted := trivial
  sound := fun _ hid => by cases hid
  places := by simp [placesIn]

/-- What is pending stands in a block whose owner was looked at. -/
theorem owner_mem (h : f.Visiting pending seen) {owner id : OpId}
    (hp : (some owner, id) ∈ pending) : owner ∈ seen := by
  have hmem : (some owner, id) ∈ f.placesIn seen :=
    h.places.mem_iff.mp (List.mem_append_left _ hp)
  simp only [placesIn, List.mem_append, List.mem_map, List.mem_flatMap, Prod.mk.injEq] at hmem
  rcases hmem with ⟨_, _, hnone, -⟩ | ⟨id', hid', _, _, howner, -⟩
  · cases hnone
  · cases howner
    exact hid'

/-- The next pending operation may be put on the path of those looked at before. -/
theorem rooted_cons {owner : Option OpId} {id : OpId} {op : Op}
    (h : f.Visiting ((owner, id) :: pending) seen) (hop : f.ops[id]? = some op)
    (hparent : op.parent = owner) : f.Rooted (id :: seen) := by
  refine ⟨⟨op, hop, fun parent hp => ?_⟩, h.rooted⟩
  exact h.owner_mem (by rw [← hp, hparent]; exact List.mem_cons_self)

/-- **One step of the visit.**  The operation that was pending joins those looked at, and the
places of its body become pending. -/
theorem step {owner : Option OpId} {id : OpId} {op : Op}
    (h : f.Visiting ((owner, id) :: pending) seen) (hop : f.ops[id]? = some op)
    (hlive : op.erased = false) (hparent : op.parent = owner) (hnew : id ∉ seen)
    (hsound : f.opDefect? id op = .ok none) :
    f.Visiting (op.body.reverse.map (fun child => (some id, child)) ++ pending) (id :: seen) where
  nodup := List.nodup_cons.mpr ⟨hnew, h.nodup⟩
  rooted := h.rooted_cons hop hparent
  sound := by
    intro x hx
    rcases List.mem_cons.mp hx with rfl | hx
    · exact ⟨op, hop, hlive, hsound⟩
    · exact h.sound x hx
  places := by
    have hbody : f.bodyOf id = op.body := by simp [bodyOf, hop]
    have hown : f.parentOf id = owner := by simp [parentOf, hop, hparent]
    -- The body's places are new on both sides; the rest is the invariant before the step.
    have hnewPlaces :
        (op.body.reverse.map fun child => ((some id, child) : Option OpId × OpId)).Perm
          (op.body.map (some id, ·)) := (List.reverse_perm op.body).map _
    have hrest : (pending ++ (owner, id) :: seen.map fun x => (f.parentOf x, x)).Perm
        (f.placesIn seen) := List.perm_middle.trans h.places
    simp only [placesIn, List.map_cons, List.flatMap_cons, hbody, hown,
      List.append_assoc] at hrest ⊢
    exact (hnewPlaces.append hrest).trans (List.perm_append_comm_assoc _ _ _)

/-- The places that are pending and those looked at are at most all places there are. -/
theorem length_le (h : f.Visiting pending seen) :
    pending.length + seen.length ≤ f.placeCount := by
  have hlen := h.places.length_eq
  have hbodies : (seen.flatMap f.bodyOf).length
      ≤ ((List.range f.ops.size).flatMap f.bodyOf).length := by
    refine length_flatMap_le_of_subset _ h.nodup fun id hid => ?_
    obtain ⟨op, hop⟩ := h.rooted.exists_op id hid
    obtain ⟨hlt, -⟩ := Array.getElem?_eq_some_iff.mp hop
    exact List.mem_range.mpr hlt
  rw [flatMap_range_bodyOf, List.length_flatMap] at hbodies
  simp only [placesIn, List.length_append, List.length_map, List.length_flatMap] at hlen
  rw [hlen, placeCount]
  exact Nat.add_le_add_left hbodies _

end Visiting

/-- **The visit ends and no lookup of it misses**: it has a step left for every place, and makes
one for each operation. -/
theorem visit_isOk {f : Func} (hdef : f.DefinersExist) :
    ∀ {steps : Nat} {pending : List (Option OpId × OpId)} {seen : List OpId},
      f.Visiting pending seen → f.placeCount + 1 ≤ steps + seen.length →
      ∃ r, f.visit steps pending seen = .ok r
  | 0, pending, seen, h, hsteps => by
    have := h.length_le
    omega
  | _ + 1, [], _, _, _ => ⟨none, rfl⟩
  | steps + 1, (owner, id) :: pending, seen, h, hsteps => by
    rw [visit]
    cases hop : f.ops[id]? with
    | none => exact ⟨_, rfl⟩
    | some op =>
      simp only
      split
      · exact ⟨_, rfl⟩
      · rename_i hlive
        split
        · exact ⟨_, rfl⟩
        · rename_i hplace
          simp only [ne_eq, Bool.or_eq_true, decide_eq_true_eq, not_or, Decidable.not_not,
            List.contains_iff_mem] at hplace
          obtain ⟨hparent, hnew⟩ := hplace
          have hroot : f.Rooted (id :: seen) := h.rooted_cons hop hparent
          obtain ⟨r, hr⟩ := opDefect?_isOk hdef hroot (List.nodup_cons.mpr ⟨hnew, h.nodup⟩)
            List.mem_cons_self op
          rw [hr]
          cases r with
          | some d => exact ⟨_, rfl⟩
          | none =>
            refine visit_isOk hdef (h.step hop (by simpa using hlive) hparent hnew hr) ?_
            rw [List.length_cons]
            omega

/-- A value table without defects names only operations that exist. -/
theorem definersExist_of_valueDefect? {f : Func} (h : f.valueDefect? = none) :
    f.DefinersExist := by
  intro v value d hv hd
  have hmem : (value, v) ∈ f.values.toList.zipIdx := by
    rw [List.mk_mem_zipIdx_iff_getElem?, Array.getElem?_toList]
    exact hv
  have hnone : f.valueDefectAt? value v = none := List.findSome?_eq_none_iff.mp h _ hmem
  unfold valueDefectAt? at hnone
  split at hnone
  · cases hnone
  · simp only [hd] at hnone
    cases hop : f.ops[d]? with
    | none => rw [hop] at hnone; cases hnone
    | some op => exact ⟨op, rfl⟩

/-- **The check gives an answer for every function**, whatever its links are. -/
theorem inspect_isOk (f : Func) : f.inspect.isOk = true := by
  unfold inspect
  cases htable : f.tableDefect? with
  | some d => rfl
  | none =>
    have hvalues : f.valueDefect? = none := by
      simp only [tableDefect?, Option.or_eq_none_iff] at htable
      exact htable.1.2
    have hvisit : ∃ r, f.nestingDefect? = .ok r :=
      visit_isOk (definersExist_of_valueDefect? hvalues) (Visiting.start f) (Nat.le_add_right _ _)
    obtain ⟨r, hr⟩ := hvisit
    simp only [hr]
    rfl

end Func
end Dataflow
