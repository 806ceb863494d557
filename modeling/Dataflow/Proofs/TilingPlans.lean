/-
# When a band is tiled

Before a band is tiled its headers are planned, and the plan may refuse.  A plan says exactly this
of the band (`Func.Planned`): there is one size for each loop, the loops are a perfect nest, none of
them is a point loop or has one, and the size of each loop divides its trip count within the range
of words (`Func.Nested.tilingPlan_eq_ok_iff`).

On a perfect nest of a function in order nothing goes wrong: the plan is made or refused, and where
it is made the loops are split (`Func.Tidy.tileBand_outcome`).
-/
import Dataflow.Proofs.TiledNests

namespace Dataflow

namespace Checked

variable {α : Type}

/-- A search for an element that satisfies a condition, when every test decides the condition. -/
theorem anyM_decides {p : α → Checked Bool} {P : α → Prop} : ∀ {l : List α},
    (∀ a ∈ l, ∃ b, p a = .ok b ∧ (b = true ↔ P a)) →
      ∃ b, l.anyM p = .ok b ∧ (b = true ↔ ∃ a ∈ l, P a)
  | [], _ => ⟨false, rfl, by simp⟩
  | a :: l, h => by
    obtain ⟨⟨b, hb, hiff⟩, hl⟩ := List.forall_mem_cons.mp h
    rw [List.anyM, hb, ok_bind, List.exists_mem_cons_iff]
    cases b with
    | true => exact ⟨true, rfl, iff_of_true rfl (.inl (hiff.mp rfl))⟩
    | false =>
      have hnot : ¬ P a := fun hP => Bool.noConfusion (hiff.mpr hP)
      obtain ⟨b, hb, hiff⟩ := anyM_decides hl
      exact ⟨b, hb, hiff.trans (or_iff_right hnot).symm⟩

end Checked

namespace Func

variable {f g : Func} {audience : Audience}

/-! ## 1. Tiled loops -/

/-- The tile loop that the loop in a slot is a point loop of. -/
def pointOf? (f : Func) (id : OpId) : Option OpId :=
  ((f.kindOf id).bind Kind.loop?).bind Loop.pointOf

theorem pointOf?_eq {id : OpId} {l : Loop} (hk : f.kindOf id = some (.loop l)) :
    f.pointOf? id = l.pointOf := by
  simp [pointOf?, hk, Kind.loop?]

/-- A loop that is a point loop or has one. -/
def TiledLoop (f : Func) (id : OpId) : Prop :=
  (f.pointOf? id).isSome ∨ ∃ p, f.Reaches p ∧ f.pointOf? p = some id

/-- The search for tiled loops looks at everything that is reached. -/
theorem Nested.isTiled_decides (h : f.Nested) {id : OpId} (hid : f.Reaches id) :
    ∃ b, f.isTiled id = .ok b ∧ (b = true ↔ f.TiledLoop id) := by
  obtain ⟨op, hop, -⟩ := h.live id hid
  have hloop : f.loop? id = .ok op.kind.loop? := loop?_eq_ok.mpr ⟨_, kindOf_eq hop, rfl⟩
  have hself : f.pointOf? id = op.kind.loop?.bind Loop.pointOf := by
    rw [pointOf?, kindOf_eq hop]
    rfl
  obtain ⟨es, hes⟩ := h.entries_isOk
  rw [isTiled, hloop, Checked.ok_bind, hes, Checked.ok_bind, ← hself, TiledLoop]
  by_cases hpoint : (f.pointOf? id).isSome = true
  · rw [if_pos hpoint]
    exact ⟨true, rfl, iff_of_true rfl (.inl hpoint)⟩
  · rw [if_neg hpoint]
    refine ⟨_, rfl, ?_⟩
    rw [or_iff_right hpoint, List.any_eq_true]
    constructor
    · rintro ⟨⟨p, pop⟩, he, heq⟩
      obtain ⟨hp, hpop⟩ := (h.mem_entries hes).mp he
      refine ⟨p, hp, ?_⟩
      rw [pointOf?, kindOf_eq hpop]
      exact beq_iff_eq.mp heq
    · rintro ⟨p, hp, heq⟩
      obtain ⟨pop, hpop, -⟩ := h.live p hp
      rw [pointOf?, kindOf_eq hpop] at heq
      exact ⟨(p, pop), (h.mem_entries hes).mpr ⟨hp, hpop⟩, beq_iff_eq.mpr heq⟩

/-! ## 2. Plans -/

/-- A perfect nest is not refused as one. -/
theorem PerfectNest.nestRefusal?_eq (hn : f.Nested) : ∀ {band : Band}, f.PerfectNest band →
    f.nestRefusal? band = .ok none
  | [], _ => rfl
  | [_], _ => rfl
  | outer :: inner :: band, h => by
    obtain ⟨oop, hoop, -⟩ := hn.live outer (h.reaches outer List.mem_cons_self)
    obtain ⟨iop, hiop, -⟩ := hn.live inner (h.reaches inner (by simp))
    have hparent : iop.parent = some outer := (parentOf_eq hiop).symm.trans (h.isParent_head hn)
    have hbody : oop.body = [inner] := (bodyOf_eq hoop).symm.trans h.bodyOf_head
    rw [nestRefusal?, op_eq_ok_iff.mpr hiop, Checked.ok_bind, if_pos hparent, op_eq_ok_iff.mpr hoop,
      Checked.ok_bind, hbody, if_pos (List.length_singleton)]
    exact nestRefusal?_eq hn h.tail

/-- A loop gets a header or is refused one. -/
theorem IsLoop.tileHeader_isOk {id : OpId} (h : f.IsLoop id) (size : Nat) :
    ∃ outcome, f.tileHeader id size = .ok outcome := by
  obtain ⟨l, hk⟩ := h
  obtain ⟨text, htext⟩ := label_isOk hk rfl
  have hloop : f.loop? id = .ok (some l) := loop?_eq_ok.mpr ⟨_, hk, rfl⟩
  rw [tileHeader, hloop, Checked.ok_bind]
  cases htrip : l.tripCount with
  | none => exact ⟨.error (.dynamicTripCount id text), by simp [htrip, htext]⟩
  | some trip =>
    simp only [htrip, htext, Checked.ok_bind]
    split
    · exact ⟨_, rfl⟩
    · split
      · exact ⟨_, rfl⟩
      · exact ⟨_, rfl⟩

theorem tileHeaders_isOk : ∀ {es : List (OpId × Nat)}, (∀ e ∈ es, f.IsLoop e.1) →
    ∃ outcome, f.tileHeaders es = .ok outcome
  | [], _ => ⟨_, rfl⟩
  | (id, size) :: es, h => by
    obtain ⟨hid, hes⟩ := List.forall_mem_cons.mp h
    obtain ⟨first, hfirst⟩ := hid.tileHeader_isOk size
    obtain ⟨rest, hrest⟩ := tileHeaders_isOk hes
    rw [tileHeaders, hfirst, Checked.ok_bind]
    cases first with
    | error reason => exact ⟨_, rfl⟩
    | ok header =>
      simp only [hrest, Checked.ok_bind]
      cases rest with
      | error reason => exact ⟨_, rfl⟩
      | ok headers => exact ⟨_, rfl⟩

/-- Headers for all loops of a list are its plan. -/
theorem tileHeaders_of_forall₂ : ∀ {es : List (OpId × Nat)} {headers : List TileHeader},
    List.Forall₂ (fun e header => f.tileHeader e.1 e.2 = .ok (.ok header)) es headers →
      f.tileHeaders es = .ok (.ok headers)
  | [], _, h => by
    cases h
    rfl
  | (id, size) :: es, _, h => by
    obtain ⟨header, headers, hfirst, hrest, rfl⟩ := List.forall₂_cons_left_iff.mp h
    rw [tileHeaders, hfirst, Checked.ok_bind]
    simp only [tileHeaders_of_forall₂ hrest, Checked.ok_bind]
    rfl

/-- `f.Planned band sizes headers`: the band can be tiled by the sizes, with the headers. -/
structure Planned (f : Func) (band : Band) (sizes : List Nat) (headers : List TileHeader) :
    Prop where
  lengths : band.length = sizes.length
  nest : f.PerfectNest band
  fresh : ∀ id ∈ band, ¬ f.TiledLoop id
  headers : List.Forall₂ (fun e header => f.tileHeader e.1 e.2 = .ok (.ok header)) (band.zip sizes)
    headers

/-- The plan of a perfect nest, question by question. -/
theorem PerfectNest.tilingPlan_eq (hn : f.Nested) {band : Band} (hnest : f.PerfectNest band)
    {sizes : List Nat} (hlen : band.length = sizes.length) :
    (∃ reason, f.tilingPlan band sizes = .ok (.error reason)) ∧ (∃ id ∈ band, f.TiledLoop id) ∨
      f.tilingPlan band sizes = f.tileHeaders (band.zip sizes) ∧ ∀ id ∈ band, ¬ f.TiledLoop id := by
  obtain ⟨tiled, htiled, hiff⟩ := Checked.anyM_decides (p := f.isTiled) fun id hid =>
    hn.isTiled_decides (hnest.reaches id hid)
  rw [tilingPlan, if_neg (not_not.mpr hlen), hnest.nestRefusal?_eq hn, Checked.ok_bind]
  simp only [htiled, Checked.ok_bind]
  cases tiled with
  | false =>
    have hnone : ∀ id ∈ band, ¬ f.TiledLoop id := fun id hid ht =>
      Bool.noConfusion (hiff.mpr ⟨id, hid, ht⟩)
    cases band.head? with
    | none => exact .inr ⟨rfl, hnone⟩
    | some outermost => exact .inr ⟨rfl, hnone⟩
  | true =>
    obtain ⟨id, hid, ht⟩ := hiff.mp rfl
    cases hhead : band.head? with
    | none =>
      rw [List.head?_eq_none_iff.mp hhead] at hid
      cases hid
    | some outermost =>
      obtain ⟨l, hl⟩ := hnest.isLoop outermost (List.mem_of_mem_head? hhead)
      obtain ⟨text, htext⟩ := label_isOk hl rfl
      exact .inl ⟨⟨.alreadyTiled outermost text, by simp [htext]⟩, id, hid, ht⟩

/-- **What a plan says.** -/
theorem Nested.tilingPlan_eq_ok_iff (hn : f.Nested) {band : Band} {sizes : List Nat}
    {headers : List TileHeader} (hreach : ∀ id ∈ band, f.Reaches id) :
    f.tilingPlan band sizes = .ok (.ok headers) ↔ f.Planned band sizes headers := by
  constructor
  · intro h
    obtain ⟨hlen, -, -, hheaders⟩ := tilingPlan_spec h
    obtain ⟨-, hnest, -⟩ := nest_of_tilingPlan hn hreach h
    rcases hnest.tilingPlan_eq hn hlen with ⟨⟨reason, hreason⟩, -⟩ | ⟨-, hfresh⟩
    · rw [hreason] at h
      cases h
    · exact ⟨hlen, hnest, hfresh, tileHeaders_spec hheaders⟩
  · rintro ⟨hlen, hnest, hfresh, hheaders⟩
    rcases hnest.tilingPlan_eq hn hlen with ⟨-, id, hid, ht⟩ | ⟨heq, -⟩
    · exact absurd ht (hfresh id hid)
    · rw [heq, tileHeaders_of_forall₂ hheaders]

/-- A perfect nest is planned or refused. -/
theorem PerfectNest.tilingPlan_isOk (hn : f.Nested) {band : Band} (hnest : f.PerfectNest band)
    (sizes : List Nat) : ∃ outcome, f.tilingPlan band sizes = .ok outcome := by
  by_cases hlen : band.length = sizes.length
  · rcases hnest.tilingPlan_eq hn hlen with ⟨⟨reason, hreason⟩, -⟩ | ⟨heq, -⟩
    · exact ⟨_, hreason⟩
    · rw [heq]
      exact tileHeaders_isOk fun e he => hnest.isLoop e.1 (List.of_mem_zip he).1
  · exact ⟨.error (.sizeCount sizes.length band.length), by rw [tilingPlan, if_pos hlen]; rfl⟩

/-! ## 3. Outcomes -/

theorem push_isOk {parent : OpId} (hparent : parent < f.ops.size) (kind : Kind) :
    ∃ r, f.push (some parent) kind = .ok r := by
  have hsize : parent < (f.create (some parent) kind).1.ops.size := by
    rw [create, Array.size_push]
    exact Nat.lt_succ_of_lt hparent
  exact ⟨_, Checked.bind_eq_ok.mpr ⟨_, modifyOp_eq_ok.mpr ⟨hsize, rfl⟩, rfl⟩⟩

theorem addPointLoops_isOk : ∀ {tiles : List (OpId × TileHeader)} {f : Func} {parent : OpId},
    parent < f.ops.size → ∃ r, f.addPointLoops parent tiles = .ok r
  | [], _, _, _ => ⟨_, rfl⟩
  | (tile, h) :: tiles, f, parent, hparent => by
    obtain ⟨⟨f', point⟩, hpush⟩ := push_isOk hparent (.loop (h.pointLoop tile))
    have hpoint : point < f'.ops.size := by
      obtain ⟨rfl, rfl⟩ := push_eq hpush
      simp
    obtain ⟨r, hr⟩ := @addPointLoops_isOk tiles f' point hpoint
    exact ⟨_, Checked.bind_eq_ok.mpr ⟨_, hpush, Checked.bind_eq_ok.mpr ⟨r, hr, rfl⟩⟩⟩

/-- **The loops of a perfect nest can be split.** -/
theorem PerfectNest.splitLoops_isOk (hn : f.Nested) {innermost : OpId}
    {tiles : List (OpId × TileHeader)} (hband : f.PerfectNest (tiles.map Prod.fst))
    (hlast : (tiles.map Prod.fst).getLast? = some innermost) :
    ∃ r, f.splitLoops innermost tiles = .ok r := by
  have hmem : innermost ∈ tiles.map Prod.fst := List.mem_of_getLast? hlast
  have hinner : f.Reaches innermost := hband.reaches innermost hmem
  have hne : tiles ≠ [] := fun hnil => by simp [hnil] at hmem
  have hpos : 0 < tiles.length := List.length_pos_of_ne_nil hne
  have hlt : innermost < f.ops.size := hn.lt_size hinner
  have htiles : ∀ e ∈ tiles, e.1 < f.ops.size := fun e he =>
    hn.lt_size (hband.reaches e.1 (List.mem_map_of_mem he))
  have hbody : ∀ id ∈ f.bodyOf innermost, id < f.ops.size := fun id hid =>
    hn.lt_size (.nested hinner hid)
  obtain ⟨op, hop, -⟩ := hn.live innermost hinner
  -- Each step finds the slots that it changes: they are old ones, or that of the last point loop.
  obtain ⟨f₁, h₁⟩ : ∃ f₁, (f.modifyOp innermost fun op => { op with body := [] }) = .ok f₁ :=
    ⟨_, modifyOp_eq_ok.mpr ⟨hlt, rfl⟩⟩
  have hsize₁ : f₁.ops.size = f.ops.size := by
    obtain ⟨-, rfl⟩ := modifyOp_eq_ok.mp h₁
    exact size_ops_edit f _
  obtain ⟨⟨f₂, points⟩, h₂⟩ := @addPointLoops_isOk tiles f₁ innermost (hsize₁ ▸ hlt)
  have hadded := addPointLoops_spec (hsize₁ ▸ hlt) h₂
  have hsize₂ : f₂.ops.size = f.ops.size + tiles.length := by rw [hadded.size, hsize₁]
  have hlastPoint : points.getLastD innermost < f₂.ops.size := by
    rw [hadded.slots, List.getLastD_eq_getLast?, List.getLast?_range', if_neg (by omega), hsize₁,
      Option.getD_some, hsize₂, Nat.add_sub_assoc hpos]
    exact Nat.add_lt_add_left (Nat.sub_lt hpos Nat.one_pos) _
  obtain ⟨f₃, h₃⟩ : ∃ f₃, f₂.adopt (points.getLastD innermost) op.body = .ok f₃ := by
    refine foldlM_modifyOp_isOk (fun id : OpId => id) (fun _ op => { op with parent := some _ })
      fun id hid => ?_
    rw [hsize₂]
    exact Nat.lt_add_right _ (hbody id (bodyOf_eq hop ▸ hid))
  have hsize₃ : f₃.ops.size = f₂.ops.size := by
    rw [foldlM_modifyOp (fun id : OpId => id) (fun _ op => { op with parent := some _ }) h₃,
      size_ops_edit]
  obtain ⟨f₄, h₄⟩ : ∃ f₄, (f₃.modifyOp (points.getLastD innermost)
      fun last => { last with body := op.body }) = .ok f₄ :=
    ⟨_, modifyOp_eq_ok.mpr ⟨hsize₃ ▸ hlastPoint, rfl⟩⟩
  have hsize₄ : f₄.ops.size = f₃.ops.size := by
    obtain ⟨-, rfl⟩ := modifyOp_eq_ok.mp h₄
    exact size_ops_edit f₃ _
  obtain ⟨split, h₅⟩ : ∃ split, f₄.makeTileLoops tiles = .ok split := by
    refine foldlM_modifyOp_isOk (fun e : OpId × TileHeader => e.1)
      (fun e op => { op with kind := op.kind.mapLoop e.2.tileLoop }) fun e he => ?_
    rw [hsize₄, hsize₃, hsize₂]
    exact Nat.lt_add_right _ (htiles e he)
  obtain ⟨hslots, hsplit⟩ := split_of_steps hop hbody (hn.nodup_bodyOf innermost hinner) htiles
    (hband.nodup hn) hne h₁ h₂ h₃ h₄ h₅
  obtain ⟨es, hes⟩ : ∃ es, split.entriesOf (points.getLastD innermost) = .ok es := by
    refine (hsplit.nested hn hne hinner).entriesOf_isOk ?_
    rw [hslots, List.getLastD_eq_getLast?, List.getLast?_range', if_neg (by omega),
      Option.getD_some, Nat.add_sub_assoc hpos]
    exact hsplit.reaches_point hlt (hsplit.reaches_old hn hne hinner) (Nat.sub_lt hpos Nat.one_pos)
  have hwalk : split.walkFrom (points.getLastD innermost) = .ok (es.map Prod.fst) :=
    Checked.bind_eq_ok.mpr ⟨es, hes, rfl⟩
  rw [splitLoops, op_eq_ok_iff.mpr hop, Checked.ok_bind]
  simp only [h₁, h₂, h₃, h₄, h₅, hwalk, Checked.ok_bind]
  exact ⟨_, rfl⟩

/-- **A perfect nest is tiled if there is a plan for it, and left alone if there is none.** -/
theorem Tidy.tileBand_outcome (hf : f.Tidy) {band : Band} {innermost : OpId}
    (hnest : f.PerfectNest band) (hlast : band.getLast? = some innermost) (sizes : List Nat)
    (audience : Audience) :
    (∃ headers g, f.Planned band sizes headers ∧
      (f.tileBand band sizes).Yields audience (g, .ok (band ++ f.points (band.zip headers))) ∧
      (band.zip headers).map Prod.fst = band ∧ f.Tiled innermost (band.zip headers) g) ∨
    (¬ ∃ headers, f.Planned band sizes headers) ∧
      ∃ reason, (f.tileBand band sizes).Yields audience (f, .error reason) := by
  have hn := hf.toNested
  obtain ⟨outcome, hplan⟩ := hnest.tilingPlan_isOk hn sizes
  cases outcome with
  | error reason =>
    refine .inr ⟨?_, reason, ?_⟩
    · rintro ⟨headers, hplanned⟩
      rw [(hn.tilingPlan_eq_ok_iff hnest.reaches).mpr hplanned] at hplan
      cases hplan
    · rw [tileBand, hlast]
      simp [hplan]
  | ok headers =>
    have hplanned := (hn.tilingPlan_eq_ok_iff hnest.reaches).mp hplan
    have hband := (mem_zip_headers hplanned.lengths hplanned.headers).1
    obtain ⟨⟨g, points⟩, hloops⟩ : ∃ r, f.splitLoops innermost (band.zip headers) = .ok r :=
      PerfectNest.splitLoops_isOk hn (by rwa [hband]) (by rwa [hband])
    obtain ⟨-, T, rfl⟩ := tiled_of_plan hf hnest.reaches hlast hplan hloops
    refine .inl ⟨headers, g, hplanned, ?_, hband, T⟩
    rw [tileBand, hlast]
    simp [hplan, hloops]

end Func
end Dataflow
