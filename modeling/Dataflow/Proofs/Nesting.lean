/-
# The forest of a function

Where blocks and parent links agree (`Func.Nested`), the operations that are reached form a
forest.  The ways up from an operation meet, and none leads back to it; so a way up is shorter
than the table (`Func.Nested.trail_length_lt`), the walks downwards never use up their levels, and
what holds of an operation as soon as it holds of those in its body holds of all
(`Func.Nested.downward`).

The walk below an operation lists exactly the operations that have it above them, each once.
-/
import Dataflow.Func.Walk
import Dataflow.Proofs.Computations
import Dataflow.Proofs.WellFormed

namespace Dataflow
namespace Func

variable {f : Func}

/-! ## 1. Ways up -/

/-- The way up from an operation starts at it, and goes on from its parent. -/
theorem above_iff {a id : OpId} :
    f.Above a id ↔ a = id ∨ ∃ parent, f.parentOf id = some parent ∧ f.Above a parent := by
  constructor
  · intro h
    rcases h.cases_tail with rfl | ⟨parent, hup, hp⟩
    · exact .inl rfl
    · exact .inr ⟨parent, hp, hup⟩
  · rintro (rfl | ⟨parent, hp, hup⟩)
    · exact .refl
    · exact hup.tail hp

/-- Of two operations above a third one is above the other. -/
theorem Above.total {a b id : OpId} (ha : f.Above a id) (hb : f.Above b id) :
    f.Above a b ∨ f.Above b a := by
  induction ha with
  | refl => exact .inr hb
  | @tail parent id hup hp ih =>
    rcases above_iff.mp hb with rfl | ⟨parent', hp', hb'⟩
    · exact .inl (hup.tail hp)
    · rw [IsParent, hp'] at hp
      cases hp
      exact ih hb'

/-- Whatever is strictly above an operation is above its parent. -/
theorem Above.of_ne {a id parent : OpId} (h : f.Above a id) (hne : a ≠ id)
    (hp : f.parentOf id = some parent) : f.Above a parent := by
  rcases above_iff.mp h with rfl | ⟨parent', hp', hup⟩
  · exact absurd rfl hne
  · rw [hp] at hp'
    cases hp'
    exact hup

namespace Nested

/-- The operations above a reached one are reached. -/
theorem reaches_of_above (h : f.Nested) {a id : OpId} (hup : f.Above a id) :
    f.Reaches id → f.Reaches a := by
  induction hup with
  | refl => exact fun ha => ha
  | tail _ hp ih => exact fun hid => ih (h.holds_of_isParent hid hp).1

/-- **No way up leads back.** -/
theorem not_transGen_self (h : f.Nested) {id : OpId} (hid : f.Reaches id) :
    ¬ Relation.TransGen f.IsParent id id := by
  induction hid with
  | @top id hid =>
    intro hcycle
    obtain ⟨parent, -, hp⟩ := Relation.TransGen.tail'_iff.mp hcycle
    rw [IsParent, h.parentOf_top id hid] at hp
    cases hp
  | @nested owner id howner hid ih =>
    intro hcycle
    have hp : f.parentOf id = some owner := h.parentOf_nested owner howner id hid
    obtain ⟨parent, hup, hp'⟩ := Relation.TransGen.tail'_iff.mp hcycle
    rw [IsParent, hp] at hp'
    cases hp'
    -- The way from `id` up to `id` passes its owner, so there is one from the owner to itself.
    exact ih (Relation.TransGen.head' hp hup)

theorem above_antisymm (h : f.Nested) {a b : OpId} (hb : f.Reaches b) (hab : f.Above a b)
    (hba : f.Above b a) : a = b := by
  rcases Relation.reflTransGen_iff_eq_or_transGen.mp hab with rfl | hstrict
  · rfl
  · exact absurd (hstrict.trans_left hba) (h.not_transGen_self (h.reaches_of_above hab hb))

/-- An operation of a body is not above the owner of the body. -/
theorem not_above_owner (h : f.Nested) {owner id : OpId} (howner : f.Reaches owner)
    (hid : id ∈ f.bodyOf owner) : ¬ f.Above id owner := by
  intro hup
  have hp : f.IsParent owner id := h.parentOf_nested owner howner id hid
  exact h.not_transGen_self howner (Relation.TransGen.head' hp hup)

/-- Two operations of one body have nothing below them in common. -/
theorem eq_of_above_siblings (h : f.Nested) {owner a b id : OpId} (howner : f.Reaches owner)
    (ha : a ∈ f.bodyOf owner) (hb : b ∈ f.bodyOf owner) (hup : f.Above a id)
    (hup' : f.Above b id) : a = b := by
  by_contra hne
  rcases hup.total hup' with hab | hba
  · exact h.not_above_owner howner ha
      (hab.of_ne hne (h.parentOf_nested owner howner b hb))
  · exact h.not_above_owner howner hb
      (hba.of_ne (fun he => hne he.symm) (h.parentOf_nested owner howner a ha))

/-- What is strictly above an operation is so through an operation of its body. -/
theorem above_iff_body (h : f.Nested) {a id : OpId} (ha : f.Reaches a) (hid : f.Reaches id) :
    f.Above a id ↔ a = id ∨ ∃ child ∈ f.bodyOf a, f.Above child id := by
  constructor
  · intro hup
    rcases hup.cases_head with rfl | ⟨child, hp, hup⟩
    · exact .inl rfl
    · have hchild : f.Reaches child := h.reaches_of_above hup hid
      exact .inr ⟨child, (h.holds_of_isParent hchild hp).2, hup⟩
  · rintro (rfl | ⟨child, hchild, hup⟩)
    · exact .refl
    · exact hup.head (h.parentOf_nested a ha child hchild)

end Nested

/-! ## 2. Trails -/

/-- `f.Trail id path`: the way up from `id` to the top, nearest first and without `id`. -/
inductive Trail (f : Func) : OpId → List OpId → Prop
  | top {id : OpId} : f.parentOf id = none → f.Trail id []
  | up {id parent : OpId} {path : List OpId} : f.parentOf id = some parent →
      f.Trail parent path → f.Trail id (parent :: path)

theorem Trail.transGen {id : OpId} {path : List OpId} (h : f.Trail id path) :
    ∀ a ∈ path, Relation.TransGen f.IsParent a id := by
  induction h with
  | top => exact fun _ ha => by cases ha
  | @up id parent path hp _ ih =>
    intro a ha
    rcases List.mem_cons.mp ha with rfl | ha
    · exact .single hp
    · exact (ih a ha).tail hp

namespace Nested

theorem trail_child (h : f.Nested) {owner id : OpId} {path : List OpId} (howner : f.Reaches owner)
    (hid : id ∈ f.bodyOf owner) (ht : f.Trail owner path) : f.Trail id (owner :: path) :=
  .up (h.parentOf_nested owner howner id hid) ht

theorem exists_trail (h : f.Nested) {id : OpId} (hid : f.Reaches id) : ∃ path, f.Trail id path := by
  induction hid with
  | @top id hid => exact ⟨[], .top (h.parentOf_top id hid)⟩
  | @nested owner id howner hid ih =>
    obtain ⟨path, ht⟩ := ih
    exact ⟨owner :: path, h.trail_child howner hid ht⟩

/-- A way up repeats no operation. -/
theorem nodup_trail (h : f.Nested) {id : OpId} {path : List OpId} (ht : f.Trail id path) :
    f.Reaches id → (id :: path).Nodup := by
  induction ht with
  | top => exact fun _ => List.nodup_singleton _
  | @up id parent path hp ht ih =>
    intro hid
    have hparent : f.Reaches parent := (h.holds_of_isParent hid hp).1
    refine List.nodup_cons.mpr ⟨fun hmem => ?_, ih hparent⟩
    exact h.not_transGen_self hid ((Trail.up hp ht).transGen id hmem)

/-- **A way up is shorter than the table of operations.** -/
theorem trail_length_lt (h : f.Nested) {id : OpId} {path : List OpId} (hid : f.Reaches id)
    (ht : f.Trail id path) : path.length < f.ops.size := by
  have hlen := length_le_size_of_nodup (h.nodup_trail ht hid) fun a ha => by
    have ha' : f.Reaches a := by
      rcases List.mem_cons.mp ha with rfl | ha
      · exact hid
      · exact h.reaches_of_above (ht.transGen a ha).to_reflTransGen hid
    exact (h.live a ha').imp fun _ hop => hop.1
  exact hlen

/-- **Induction downwards.**  What holds of a reached operation as soon as it holds of those in
its body, holds of every reached operation. -/
theorem downward (h : f.Nested) {motive : OpId → Prop}
    (step : ∀ id, f.Reaches id → (∀ child ∈ f.bodyOf id, motive child) → motive id) :
    ∀ id, f.Reaches id → motive id := by
  -- The induction is on what the trail leaves of the table.
  have hall : ∀ (room : Nat) (id : OpId) (path : List OpId), f.Reaches id → f.Trail id path →
      f.ops.size ≤ room + path.length → motive id := by
    intro room
    induction room with
    | zero =>
      intro id path hid ht hroom
      have := h.trail_length_lt hid ht
      omega
    | succ room ih =>
      intro id path hid ht hroom
      refine step id hid fun child hchild => ?_
      refine ih child (id :: path) (.nested hid hchild) (h.trail_child hid hchild ht) ?_
      rw [List.length_cons]
      omega
  intro id hid
  obtain ⟨path, ht⟩ := h.exists_trail hid
  exact hall f.ops.size id path hid ht (Nat.le_add_right _ _)

/-- **Induction upwards.**  A walk up from a reached operation that crosses at most `depthBound`
levels ends at the top level. -/
theorem upward (h : f.Nested) {motive : Nat → OpId → Prop}
    (top : ∀ levels id op, f.ops[id]? = some op → op.parent = none → motive (levels + 1) id)
    (up : ∀ levels id op parent, f.ops[id]? = some op → op.parent = some parent →
      f.Reaches parent → motive levels parent → motive (levels + 1) id) :
    ∀ id, f.Reaches id → motive f.depthBound id := by
  have hall : ∀ (id : OpId) (path : List OpId), f.Trail id path → f.Reaches id →
      ∀ levels, path.length < levels → motive levels id := by
    intro id path ht
    induction ht with
    | @top id hp =>
      intro hid levels hlen
      obtain ⟨levels, rfl⟩ := Nat.exists_eq_add_one_of_ne_zero (Nat.ne_of_gt hlen)
      obtain ⟨op, hop, -⟩ := h.live id hid
      exact top levels id op hop (parentOf_eq hop ▸ hp)
    | @up id parent path hp _ ih =>
      intro hid levels hlen
      obtain ⟨levels, rfl⟩ :=
        Nat.exists_eq_add_one_of_ne_zero (Nat.ne_of_gt (Nat.zero_lt_of_lt hlen))
      obtain ⟨op, hop, -⟩ := h.live id hid
      have hparent : f.Reaches parent := (h.holds_of_isParent hid hp).1
      exact up levels id op parent hop (parentOf_eq hop ▸ hp) hparent
        (ih hparent levels (Nat.lt_of_succ_lt_succ hlen))
  intro id hid
  obtain ⟨path, ht⟩ := h.exists_trail hid
  exact hall id path ht hid f.depthBound (Nat.lt_succ_of_lt (h.trail_length_lt hid ht))

end Nested

/-! ## 3. Walks downwards -/

theorem nest_eq_ok {levels : Nat} {id : OpId} {es : List (OpId × Op)} :
    f.nest (levels + 1) id = .ok es ↔ ∃ op below, f.ops[id]? = some op ∧
      List.Forall₂ (fun child part => f.nest levels child = .ok part) op.body below ∧
      es = (id, op) :: below.flatten := by
  simp only [nest, Checked.bind_eq_ok, op_eq_ok_iff, Checked.mapM_eq_ok, Checked.pure_eq_ok,
    Except.ok.injEq]
  constructor
  · rintro ⟨op, hop, below, hbelow, rfl⟩
    exact ⟨op, below, hop, hbelow, rfl⟩
  · rintro ⟨op, below, hop, hbelow, rfl⟩
    exact ⟨op, hop, below, hbelow, rfl⟩

namespace Nested

/-- The levels of a walk suffice if they and the way up together are as long as the table. -/
theorem nest_isOk (h : f.Nested) : ∀ {levels : Nat} {id : OpId} {path : List OpId}, f.Reaches id →
    f.Trail id path → f.ops.size ≤ levels + path.length → ∃ es, f.nest levels id = .ok es
  | 0, id, path, hid, ht, hlen => by
    have := h.trail_length_lt hid ht
    omega
  | levels + 1, id, path, hid, ht, hlen => by
    obtain ⟨op, hop, -⟩ := h.live id hid
    have hbody : f.bodyOf id = op.body := bodyOf_eq hop
    obtain ⟨below, hbelow⟩ := Checked.mapM_isOk (k := f.nest levels) (l := op.body)
        fun child hchild => by
      rw [← hbody] at hchild
      refine nest_isOk h (.nested hid hchild) (h.trail_child hid hchild ht) ?_
      rw [List.length_cons]
      omega
    exact ⟨_, nest_eq_ok.mpr ⟨op, below, hop, Checked.mapM_eq_ok.mp hbelow, rfl⟩⟩

theorem entriesOf_isOk (h : f.Nested) {id : OpId} (hid : f.Reaches id) :
    ∃ es, f.entriesOf id = .ok es := by
  obtain ⟨path, ht⟩ := h.exists_trail hid
  exact h.nest_isOk hid ht (by simp only [depthBound]; omega)

theorem walkFrom_isOk (h : f.Nested) {id : OpId} (hid : f.Reaches id) :
    ∃ order, f.walkFrom id = .ok order := by
  obtain ⟨es, hes⟩ := h.entriesOf_isOk hid
  exact ⟨es.map Prod.fst, by rw [walkFrom, hes]; rfl⟩

/-- What a walk lists stands in the table, and below the operation that the walk started from. -/
theorem of_mem_nest (h : f.Nested) : ∀ {levels : Nat} {id : OpId} {es : List (OpId × Op)},
    f.Reaches id → f.nest levels id = .ok es → ∀ e ∈ es,
      f.ops[e.1]? = some e.2 ∧ f.Reaches e.1 ∧ f.Above id e.1
  | 0, _, _, _, hes, _, _ => by cases hes
  | levels + 1, id, es, hid, hes, e, he => by
    obtain ⟨op, below, hop, hbelow, rfl⟩ := nest_eq_ok.mp hes
    rcases List.mem_cons.mp he with rfl | he
    · exact ⟨hop, hid, .refl⟩
    · obtain ⟨part, hpart, he⟩ := List.mem_flatten.mp he
      obtain ⟨child, hchild, hchildPart⟩ := Checked.forall₂_left hbelow hpart
      rw [← bodyOf_eq hop] at hchild
      obtain ⟨hentry, hreach, hup⟩ := of_mem_nest h (.nested hid hchild) hchildPart e he
      exact ⟨hentry, hreach, hup.head (h.parentOf_nested id hid child hchild)⟩

/-- ...and the walk lists all that does. -/
theorem mem_nest_of_above (h : f.Nested) : ∀ {levels : Nat} {id : OpId} {es : List (OpId × Op)},
    f.Reaches id → f.nest levels id = .ok es → ∀ {x : OpId} {op : Op}, f.Reaches x →
      f.ops[x]? = some op → f.Above id x → (x, op) ∈ es
  | 0, _, _, _, hes, _, _, _, _, _ => by cases hes
  | levels + 1, id, es, hid, hes, x, xop, hx, hxop, hup => by
    obtain ⟨op, below, hop, hbelow, rfl⟩ := nest_eq_ok.mp hes
    rcases (h.above_iff_body hid hx).mp hup with rfl | ⟨child, hchild, hup⟩
    · rw [hxop] at hop
      cases hop
      exact List.mem_cons_self
    · rw [bodyOf_eq hop] at hchild
      obtain ⟨part, hpart, hchildPart⟩ := Checked.forall₂_right hbelow hchild
      rw [← bodyOf_eq hop] at hchild
      have hmem := mem_nest_of_above h (.nested hid hchild) hchildPart hx hxop hup
      exact List.mem_cons_of_mem _ (List.mem_flatten.mpr ⟨part, hpart, hmem⟩)

/-- A walk lists nothing twice: the bodies of one operation have nothing in common. -/
theorem nodup_nest (h : f.Nested) : ∀ {levels : Nat} {id : OpId} {es : List (OpId × Op)},
    f.Reaches id → f.nest levels id = .ok es → (es.map Prod.fst).Nodup
  | 0, _, _, _, hes => by cases hes
  | levels + 1, id, es, hid, hes => by
    obtain ⟨op, below, hop, hbelow, rfl⟩ := nest_eq_ok.mp hes
    have hbody : f.bodyOf id = op.body := bodyOf_eq hop
    rw [List.map_cons, List.nodup_cons]
    constructor
    · intro hmem
      obtain ⟨e, he, heq⟩ := List.mem_map.mp hmem
      obtain ⟨part, hpart, he⟩ := List.mem_flatten.mp he
      obtain ⟨child, hchild, hnest⟩ := Checked.forall₂_left hbelow hpart
      rw [← hbody] at hchild
      have hup := (h.of_mem_nest (.nested hid hchild) hnest e he).2.2
      rw [heq] at hup
      exact h.not_above_owner hid hchild hup
    · rw [List.map_flatten, List.nodup_flatten]
      constructor
      · intro slots hslots
        obtain ⟨part, hpart, rfl⟩ := List.mem_map.mp hslots
        obtain ⟨child, hchild, hnest⟩ := Checked.forall₂_left hbelow hpart
        rw [← hbody] at hchild
        exact nodup_nest h (.nested hid hchild) hnest
      · rw [List.pairwise_map]
        have hnd : op.body.Nodup := hbody ▸ h.nodup_bodyOf id hid
        refine Checked.pairwise_of_forall₂ hbelow hnd
          fun a b part part' ha hb hne hpart hpart' => ?_
        rw [← hbody] at ha hb
        intro x hx hx'
        obtain ⟨e, he, rfl⟩ := List.mem_map.mp hx
        obtain ⟨e', he', heq⟩ := List.mem_map.mp hx'
        have hup := (h.of_mem_nest (.nested hid ha) hpart e he).2.2
        have hup' := (h.of_mem_nest (.nested hid hb) hpart' e' he').2.2
        rw [heq] at hup'
        exact hne (h.eq_of_above_siblings hid ha hb hup hup')

/-- A reached operation is below one of the top level. -/
theorem exists_top (h : f.Nested) {id : OpId} (hid : f.Reaches id) :
    ∃ top ∈ f.body, f.Above top id := by
  induction hid with
  | @top id hid => exact ⟨id, hid, .refl⟩
  | @nested owner id howner hid ih =>
    obtain ⟨top, htop, hup⟩ := ih
    exact ⟨top, htop, hup.tail (h.parentOf_nested owner howner id hid)⟩

/-- Two operations of the top level have nothing below them in common. -/
theorem eq_of_above_tops (h : f.Nested) {a b id : OpId} (ha : a ∈ f.body) (hb : b ∈ f.body)
    (hup : f.Above a id) (hup' : f.Above b id) : a = b := by
  have htop : ∀ {x y : OpId}, y ∈ f.body → f.Above x y → x = y := by
    intro x y hy hxy
    rcases above_iff.mp hxy with heq | ⟨parent, hp, -⟩
    · exact heq
    · rw [h.parentOf_top y hy] at hp
      cases hp
  rcases hup.total hup' with hab | hba
  · exact htop hb hab
  · exact (htop ha hba).symm

end Nested

theorem entries_eq_ok {es : List (OpId × Op)} : f.entries = .ok es ↔
    ∃ parts, List.Forall₂ (fun id part => f.entriesOf id = .ok part) f.body parts
      ∧ es = parts.flatten := by
  simp only [entries, Checked.bind_eq_ok, Checked.mapM_eq_ok, Checked.pure_eq_ok, Except.ok.injEq]
  exact exists_congr fun parts => and_congr_right fun _ => eq_comm

theorem walk_eq_ok {order : List OpId} : f.walk = .ok order ↔
    ∃ es, f.entries = .ok es ∧ order = es.map Prod.fst := by
  simp only [walk, Checked.bind_eq_ok, Checked.pure_eq_ok, Except.ok.injEq]
  exact exists_congr fun es => and_congr_right fun _ => eq_comm

theorem walkFrom_eq_ok {id : OpId} {order : List OpId} : f.walkFrom id = .ok order ↔
    ∃ es, f.entriesOf id = .ok es ∧ order = es.map Prod.fst := by
  simp only [walkFrom, Checked.bind_eq_ok, Checked.pure_eq_ok, Except.ok.injEq]
  exact exists_congr fun es => and_congr_right fun _ => eq_comm

namespace Nested

/-- A walk lists what is reached below the operation that it starts from. -/
theorem mem_walkFrom (h : f.Nested) {start : OpId} (hstart : f.Reaches start) {ids : List OpId}
    (hids : f.walkFrom start = .ok ids) {id : OpId} :
    id ∈ ids ↔ f.Reaches id ∧ f.Above start id := by
  obtain ⟨es, hes, rfl⟩ := walkFrom_eq_ok.mp hids
  rw [List.mem_map]
  constructor
  · rintro ⟨e, he, rfl⟩
    exact (h.of_mem_nest hstart hes e he).2
  · rintro ⟨hid, hup⟩
    obtain ⟨op, hop, -⟩ := h.live id hid
    exact ⟨(id, op), h.mem_nest_of_above hstart hes hid hop hup, rfl⟩

theorem entries_isOk (h : f.Nested) : ∃ es, f.entries = .ok es := by
  obtain ⟨parts, hparts⟩ := Checked.mapM_isOk (k := f.entriesOf) fun id hid =>
    h.entriesOf_isOk (.top hid)
  exact ⟨_, entries_eq_ok.mpr ⟨parts, Checked.mapM_eq_ok.mp hparts, rfl⟩⟩

/-- **The walk over a function lists exactly the operations that are reached**, with their slots. -/
theorem mem_entries (h : f.Nested) {es : List (OpId × Op)} (hes : f.entries = .ok es)
    {id : OpId} {op : Op} : (id, op) ∈ es ↔ f.Reaches id ∧ f.ops[id]? = some op := by
  obtain ⟨parts, hparts, rfl⟩ := entries_eq_ok.mp hes
  rw [List.mem_flatten]
  constructor
  · rintro ⟨part, hpart, hmem⟩
    obtain ⟨top, htop, hnest⟩ := Checked.forall₂_left hparts hpart
    obtain ⟨hop, hreach, -⟩ := h.of_mem_nest (.top htop) hnest _ hmem
    exact ⟨hreach, hop⟩
  · rintro ⟨hid, hop⟩
    obtain ⟨top, htop, hup⟩ := h.exists_top hid
    obtain ⟨part, hpart, hnest⟩ := Checked.forall₂_right hparts htop
    exact ⟨part, hpart, h.mem_nest_of_above (.top htop) hnest hid hop hup⟩

/-- ...each once. -/
theorem nodup_entries (h : f.Nested) {es : List (OpId × Op)} (hes : f.entries = .ok es) :
    (es.map Prod.fst).Nodup := by
  obtain ⟨parts, hparts, rfl⟩ := entries_eq_ok.mp hes
  rw [List.map_flatten, List.nodup_flatten]
  constructor
  · intro slots hslots
    obtain ⟨part, hpart, rfl⟩ := List.mem_map.mp hslots
    obtain ⟨top, htop, hnest⟩ := Checked.forall₂_left hparts hpart
    exact h.nodup_nest (.top htop) hnest
  · rw [List.pairwise_map]
    refine Checked.pairwise_of_forall₂ hparts h.nodup_body
      fun a b part part' ha hb hne hpart hpart' => ?_
    intro x hx hx'
    obtain ⟨e, he, rfl⟩ := List.mem_map.mp hx
    obtain ⟨e', he', heq⟩ := List.mem_map.mp hx'
    have hup := (h.of_mem_nest (.top ha) hpart e he).2.2
    have hup' := (h.of_mem_nest (.top hb) hpart' e' he').2.2
    rw [heq] at hup'
    exact hne (h.eq_of_above_tops ha hb hup hup')

theorem walk_isOk (h : f.Nested) : ∃ order, f.walk = .ok order := by
  obtain ⟨es, hes⟩ := h.entries_isOk
  exact ⟨_, walk_eq_ok.mpr ⟨es, hes, rfl⟩⟩

/-- The slots of a walk over a function are those that are reached... -/
theorem mem_walk (h : f.Nested) {order : List OpId} (hwalk : f.walk = .ok order) {id : OpId} :
    id ∈ order ↔ f.Reaches id := by
  obtain ⟨es, hes, rfl⟩ := walk_eq_ok.mp hwalk
  constructor
  · intro hid
    obtain ⟨⟨id, op⟩, hmem, rfl⟩ := List.mem_map.mp hid
    exact ((h.mem_entries hes).mp hmem).1
  · intro hid
    obtain ⟨op, hop, -⟩ := h.live id hid
    exact List.mem_map.mpr ⟨(id, op), (h.mem_entries hes).mpr ⟨hid, hop⟩, rfl⟩

/-- ...each once. -/
theorem nodup_walk (h : f.Nested) {order : List OpId} (hwalk : f.walk = .ok order) :
    order.Nodup := by
  obtain ⟨es, hes, rfl⟩ := walk_eq_ok.mp hwalk
  exact h.nodup_entries hes

/-- The operations that a test picks out are reached, and the test holds of them. -/
theorem mem_findAll (h : f.Nested) {p : Op → Bool} {ids : List OpId} (hids : f.findAll p = .ok ids)
    {id : OpId} : id ∈ ids ↔ f.Reaches id ∧ ∃ op, f.ops[id]? = some op ∧ p op = true := by
  obtain ⟨es, hes, heq⟩ := Checked.bind_eq_ok.mp hids
  cases heq
  simp only [List.mem_map, List.mem_filter, Prod.exists, exists_and_right, exists_eq_right,
    h.mem_entries hes]
  constructor
  · rintro ⟨op, ⟨hid, hop⟩, hp⟩
    exact ⟨hid, op, hop, hp⟩
  · rintro ⟨hid, op, hop, hp⟩
    exact ⟨op, ⟨hid, hop⟩, hp⟩

theorem findAll_isOk (h : f.Nested) (p : Op → Bool) :
    ∃ ids, f.findAll p = .ok ids ∧ ids.Nodup := by
  obtain ⟨es, hes⟩ := h.entries_isOk
  refine ⟨(es.filter fun e => p e.2).map Prod.fst, by rw [findAll, hes]; rfl, ?_⟩
  exact (h.nodup_entries hes).sublist (List.filter_sublist.map Prod.fst)

end Nested

/-! ## 4. The node around an operation -/

/-- `f.NodeOver start node`: the first node on the way up from a parent link. -/
inductive NodeOver (f : Func) : Option OpId → OpId → Prop
  | here {id : OpId} {op : Op} : f.ops[id]? = some op → op.kind.isNode = true →
      f.NodeOver (some id) id
  | up {id node : OpId} {op : Op} : f.ops[id]? = some op → op.kind.isNode = false →
      f.NodeOver op.parent node → f.NodeOver (some id) node

/-- `f.InNode node id`: no other node comes between the operation and the node around it. -/
def InNode (f : Func) (node id : OpId) : Prop := f.NodeOver (f.parentOf id) node

/-- There is one nearest node at most. -/
theorem NodeOver.unique {start : Option OpId} {node node' : OpId} (h : f.NodeOver start node) :
    f.NodeOver start node' → node = node' := by
  induction h with
  | here hop hnode =>
    intro h'
    cases h' with
    | here => rfl
    | up hop' hnode' =>
      rw [hop] at hop'
      cases hop'
      rw [hnode] at hnode'
      cases hnode'
  | up hop hnode _ ih =>
    intro h'
    cases h' with
    | here hop' hnode' =>
      rw [hop] at hop'
      cases hop'
      rw [hnode] at hnode'
      cases hnode'
    | up hop' _ h' =>
      rw [hop] at hop'
      cases hop'
      exact ih h'

theorem NodeOver.isNode {start : Option OpId} {node : OpId} (h : f.NodeOver start node) :
    ∃ name, f.kindOf node = some (.node name) := by
  induction h with
  | @here id op hop hnode =>
    cases hkind : op.kind with
    | node name => exact ⟨name, hkind ▸ kindOf_eq hop⟩
    | _ => simp [hkind, Kind.isNode] at hnode
  | up _ _ _ ih => exact ih

theorem nodeOver_of_nearestNode : ∀ {levels : Nat} {start : Option OpId} {node : OpId},
    f.nearestNode levels start = .ok (some node) → f.NodeOver start node
  | levels, none, _, h => by cases levels <;> cases h
  | 0, some _, _, h => by cases h
  | levels + 1, some id, node, h => by
    obtain ⟨op, hop, h⟩ := Checked.bind_eq_ok.mp h
    rw [op_eq_ok_iff] at hop
    cases hnode : op.kind.isNode with
    | true =>
      simp only [hnode, if_true, Checked.pure_eq_ok, Except.ok.injEq, Option.some.injEq] at h
      subst h
      exact .here hop hnode
    | false =>
      simp only [hnode, Bool.false_eq_true, if_false] at h
      exact .up hop hnode (nodeOver_of_nearestNode h)

theorem inNode_of_nodeAround {id node : OpId} (h : f.nodeAround id = .ok (some node)) :
    f.InNode node id := by
  obtain ⟨op, hop, h⟩ := Checked.bind_eq_ok.mp h
  rw [InNode, parentOf_eq (op_eq_ok_iff.mp hop)]
  exact nodeOver_of_nearestNode h

/-- The search for the node around a reached operation ends. -/
theorem Nested.nodeAround_isOk (h : f.Nested) {id : OpId} (hid : f.Reaches id) :
    ∃ node?, f.nodeAround id = .ok node? := by
  have hclimb : ∀ id, f.Reaches id → ∀ op, f.ops[id]? = some op →
      ∃ node?, f.nearestNode f.depthBound op.parent = .ok node? := by
    refine h.upward (motive := fun levels id => ∀ op, f.ops[id]? = some op →
      ∃ node?, f.nearestNode levels op.parent = .ok node?) ?_ ?_
    · intro levels id op hop hparent op' hop'
      rw [hop] at hop'
      cases hop'
      exact ⟨none, by rw [hparent, nearestNode]⟩
    · intro levels id op parent hop hparent hreached ih op' hop'
      rw [hop] at hop'
      cases hop'
      obtain ⟨above, habove, -⟩ := h.live parent hreached
      obtain ⟨node?, hnode⟩ := ih above habove
      rw [hparent, nearestNode, op_eq_ok_iff.mpr habove, Checked.ok_bind]
      split
      · exact ⟨some parent, rfl⟩
      · exact ⟨node?, hnode⟩
  obtain ⟨op, hop, -⟩ := h.live id hid
  obtain ⟨node?, hnode⟩ := hclimb id hid op hop
  refine ⟨node?, ?_⟩
  rw [nodeAround, op_eq_ok_iff.mpr hop, Checked.ok_bind]
  exact hnode

theorem not_nodeOver_of_nearestNode : ∀ {levels : Nat} {start : Option OpId} {node : OpId},
    f.nearestNode levels start = .ok none → ¬ f.NodeOver start node
  | _, none, _, _, hover => by cases hover
  | 0, some _, _, h, _ => by cases h
  | levels + 1, some id, node, h, hover => by
    obtain ⟨op, hop, h⟩ := Checked.bind_eq_ok.mp h
    rw [op_eq_ok_iff] at hop
    cases hkind : op.kind.isNode with
    | true =>
      simp only [hkind, if_true] at h
      cases h
    | false =>
      simp only [hkind, Bool.false_eq_true, if_false] at h
      cases hover with
      | here hop' hkind' =>
        rw [hop] at hop'
        cases hop'
        rw [hkind] at hkind'
        cases hkind'
      | up hop' _ hover =>
        rw [hop] at hop'
        cases hop'
        exact not_nodeOver_of_nearestNode h hover

theorem Nested.nodeAround_eq_some_iff (h : f.Nested) {node x : OpId} (hx : f.Reaches x) :
    f.nodeAround x = .ok (some node) ↔ f.InNode node x := by
  refine ⟨inNode_of_nodeAround, fun hin => ?_⟩
  obtain ⟨node?, haround⟩ := h.nodeAround_isOk hx
  cases node? with
  | some node' => rw [haround, (inNode_of_nodeAround haround).unique hin]
  | none =>
    obtain ⟨op, hop, hnearest⟩ := Checked.bind_eq_ok.mp haround
    rw [InNode, parentOf_eq (op_eq_ok_iff.mp hop)] at hin
    exact absurd hin (not_nodeOver_of_nearestNode hnearest)

end Func
end Dataflow
