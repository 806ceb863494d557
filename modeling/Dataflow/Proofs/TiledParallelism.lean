/-
# Tiling keeps what is parallel

Whether a loop is parallel is read off the accesses below it.  Tiling moves the computes below the
band under the point loops and redirects their subscripts, and neither changes the answer: a walk
meets the same computes in the same order (`Func.Tiled.nest_old`, `Func.Tiled.collect_nest`),
redirecting tells subscripts apart that were different (`Redirection.access_inj`), and a loop
drives the subscripts that it drove (`Redirection.uses_index_old`).

A point loop drives the subscripts that its loop drove, provided that no subscript was the sum of
the loop and another (`Redirection.Apart.uses_index_point`).  A loop that is not reached drives no
subscript that is redirected (`Func.Tiled.undriven`).  So all loops keep their answer, and the point
loops have the one of their loops (`Func.tileBand_keeps_parallelism`).

That is so for perfect nests.  Two loops also pass for neighbours of one when the outer holds a
single operation and the inner names the outer as its parent without being that operation; then
the point loops stand around nothing (`Func.tileBand_invents_parallelism_strayInner`).
-/
import Dataflow.Proofs.Roots
import Dataflow.Proofs.TiledRuns
import Dataflow.Proofs.TilingPlans

namespace Dataflow

namespace Func

variable {f g : Func} {innermost : OpId} {tiles : List (OpId × TileHeader)}

/-! ## 1. What a walk collects -/

/-- A walk that has levels enough has enough with one more. -/
theorem nest_succ : ∀ {levels : Nat} {id : OpId} {es : List (OpId × Op)},
    f.nest levels id = .ok es → f.nest (levels + 1) id = .ok es
  | 0, _, _, h => by cases h
  | levels + 1, id, es, h => by
    obtain ⟨op, parts, hop, hparts, rfl⟩ := nest_eq_ok.mp h
    exact nest_eq_ok.mpr ⟨op, parts, hop, hparts.imp fun _ _ hpart => nest_succ hpart, rfl⟩

/-- The operation in a slot and everything nested in it. -/
def below (f : Func) (id : OpId) : List (OpId × Op) := (f.entriesOf id).toOption.getD []

theorem below_of_entriesOf {id : OpId} {es : List (OpId × Op)} (h : f.entriesOf id = .ok es) :
    f.below id = es := by
  rw [below, h]
  rfl

theorem entriesOf_eq_below {id : OpId} {es : List (OpId × Op)} (h : f.entriesOf id = .ok es) :
    f.entriesOf id = .ok (f.below id) := by
  rw [below_of_entriesOf h, h]

namespace Nested

theorem entriesOf_eq (h : f.Nested) {id : OpId} (hid : f.Reaches id) :
    f.entriesOf id = .ok (f.below id) := by
  obtain ⟨es, hes⟩ := h.entriesOf_isOk hid
  exact entriesOf_eq_below hes

/-- **Below an operation there is what is below those in its body.** -/
theorem below_eq (h : f.Nested) {id : OpId} (hid : f.Reaches id) {op : Op}
    (hop : f.ops[id]? = some op) : f.below id = (id, op) :: op.body.flatMap f.below := by
  have hentries := h.entriesOf_eq hid
  rw [entriesOf, depthBound] at hentries
  obtain ⟨op', parts, hop', hparts, hes⟩ := nest_eq_ok.mp hentries
  rw [hop] at hop'
  cases hop'
  have hbelow : List.Forall₂ (fun child part => f.below child = part) op.body parts :=
    hparts.imp fun child part hpart => below_of_entriesOf (nest_succ hpart)
  have hmap : parts = op.body.map f.below := by
    have hforall := List.forall₂_eq_eq_eq ▸ List.forall₂_map_left_iff.mpr hbelow
    exact hforall.symm
  rw [hes, hmap, List.flatMap_def]

end Nested

/-- What the kinds of operations contribute, in order. -/
def gather {β : Type} (K : Kind → List β) (es : List (OpId × Op)) : List β :=
  es.flatMap fun e => K e.2.kind

/-- What the kinds of the operations below an operation contribute, in program order. -/
def collect {β : Type} (f : Func) (K : Kind → List β) (id : OpId) : List β :=
  gather K (f.below id)

variable {β γ : Type} {K : Kind → List β}

theorem forall₂_gather {R : β → γ → Prop} {K' : Kind → List γ}
    {parts parts' : List (List (OpId × Op))}
    (h : List.Forall₂ (fun part part' => List.Forall₂ R (gather K part) (gather K' part')) parts
      parts') : List.Forall₂ R (gather K parts.flatten) (gather K' parts'.flatten) := by
  induction h with
  | nil => exact .nil
  | cons hpart _ ih =>
    rw [List.flatten_cons, List.flatten_cons, gather, gather, List.flatMap_append,
      List.flatMap_append]
    exact List.rel_append hpart ih

/-- A walk gathers what the operation contributes, and what the walks from its body gather. -/
theorem nest_of_parts {levels : Nat} {x : OpId} {k : Kind} {parts : List (List (OpId × Op))}
    (hk : f.kindOf x = some k)
    (hparts : List.Forall₂ (fun child part => f.nest levels child = .ok part) (f.bodyOf x) parts) :
    ∃ es, f.nest (levels + 1) x = .ok es ∧ gather K es = K k ++ gather K parts.flatten := by
  obtain ⟨op, hop, rfl⟩ := Option.map_eq_some_iff.mp hk
  rw [bodyOf_eq hop] at hparts
  exact ⟨_, nest_eq_ok.mpr ⟨op, parts, hop, hparts, rfl⟩, List.flatMap_cons⟩

theorem nest_of_part {levels : Nat} {x child : OpId} {k : Kind} {part : List (OpId × Op)}
    (hk : f.kindOf x = some k) (hbody : f.bodyOf x = [child])
    (hpart : f.nest levels child = .ok part) :
    ∃ es, f.nest (levels + 1) x = .ok es ∧ gather K es = K k ++ gather K part := by
  have hparts : List.Forall₂ (fun child part => f.nest levels child = .ok part) (f.bodyOf x)
      [part] := by
    rw [hbody]
    exact .cons hpart .nil
  obtain ⟨es, hes, hgather⟩ := nest_of_parts (K := K) hk hparts
  exact ⟨es, hes, by rw [hgather, List.flatten_singleton]⟩

theorem Nested.collect_eq (h : f.Nested) {id : OpId} (hid : f.Reaches id) {k : Kind}
    (hk : f.kindOf id = some k) :
    f.collect K id = K k ++ (f.bodyOf id).flatMap (f.collect K) := by
  obtain ⟨op, hop, rfl⟩ := Option.map_eq_some_iff.mp hk
  rw [collect, h.below_eq hid hop, gather, List.flatMap_cons, List.flatMap_assoc, bodyOf_eq hop]
  rfl

/-- What is collected comes from what is reached below. -/
theorem Nested.mem_collect (h : f.Nested) {id : OpId} (hid : f.Reaches id) {b : β}
    (hb : b ∈ f.collect K id) :
    ∃ x k, f.Reaches x ∧ f.Above id x ∧ f.kindOf x = some k ∧ b ∈ K k := by
  obtain ⟨e, he, hb⟩ := List.mem_flatMap.mp hb
  obtain ⟨hop, hx, hup⟩ := h.of_mem_nest hid (h.entriesOf_eq hid) e he
  exact ⟨e.1, e.2.kind, hx, hup, kindOf_eq hop, hb⟩

/-- Loops that contribute nothing can be left out of a perfect nest. -/
theorem PerfectNest.collect_eq (hn : f.Nested) (hloops : ∀ l, K (.loop l) = []) :
    ∀ {band : Band} {innermost : OpId}, f.PerfectNest band → band.getLast? = some innermost →
      ∀ id ∈ band, f.collect K id = (f.bodyOf innermost).flatMap (f.collect K)
  | [], _, _, hlast, _, _ => by cases hlast
  | first :: band, innermost, h, hlast, id, hid => by
    cases band with
    | nil =>
      rw [List.getLast?_singleton, Option.some.injEq] at hlast
      obtain ⟨l, hl⟩ := h.isLoop id hid
      rw [hn.collect_eq (h.reaches id hid) hl, hloops, List.nil_append, List.mem_singleton.mp hid,
        hlast]
    | cons second band =>
      rw [List.getLast?_cons_cons] at hlast
      have ih := collect_eq hn hloops h.tail hlast
      rcases List.mem_cons.mp hid with rfl | hid
      · obtain ⟨l, hl⟩ := h.isLoop id List.mem_cons_self
        rw [hn.collect_eq (h.reaches id List.mem_cons_self) hl, hloops, h.bodyOf_head,
          List.flatMap_singleton, List.nil_append]
        exact ih second List.mem_cons_self
      · exact ih id hid

/-! ## 2. Walks in a tiled function -/

namespace Tiled

/-- An operation that is neither a loop nor a compute stays what it was. -/
theorem kindOf_same (T : f.Tiled innermost tiles g) {x : OpId} {k : Kind}
    (hk : f.kindOf x = some k) (hloop : k.loop? = none) (hcompute : k.compute? = none) :
    g.kindOf x = some k := by
  obtain ⟨split, ids, hsplit, -, rfl⟩ := T.steps
  obtain ⟨op, hop, rfl⟩ := Option.map_eq_some_iff.mp hk
  have hentry : (f.splitEntry innermost tiles x op).kind = op.kind := by
    simp only [splitEntry]
    cases tiling tiles x with
    | none => rfl
    | some change =>
      cases hkind : op.kind with
      | loop l => simp [hkind, Kind.loop?] at hloop
      | _ => rfl
  rw [kindOf, getElem?_ops_edit, hsplit.old x op hop]
  rcases redirectAt_cases (f.pairing tiles) ids x (f.splitEntry innermost tiles x op) with
    heq | ⟨c, -, hc, -⟩
  · simp [heq, hentry]
  · rw [hentry] at hc
    simp [hc, Kind.compute?] at hcompute

/-- An operation that is not reached stays what it was. -/
theorem kindOf_stray (T : f.Tiled innermost tiles g) {x : OpId} (hx : ¬ f.Reaches x) {k : Kind}
    (hk : f.kindOf x = some k) : g.kindOf x = some k := by
  have hfind : (tiles.find? fun e => e.1 == x) = none := by
    rw [List.find?_eq_none]
    intro e he heq
    exact hx (beq_iff_eq.mp heq ▸ T.nest.reaches e.1 (List.mem_map_of_mem he))
  obtain ⟨split, ids, hsplit, hids, rfl⟩ := T.steps
  obtain ⟨op, hop, rfl⟩ := Option.map_eq_some_iff.mp hk
  have hout : x ∉ ids := by
    intro hmem
    rcases hsplit.reaches_cases T.tidy.toNested T.tiles_ne_nil T.reaches_innermost
      ((hids x).mp hmem).1 with hold | ⟨position, -, rfl⟩
    · exact hx hold
    · exact Nat.not_lt.mpr (Nat.le_add_right _ position) (lt_size_of_some hop)
  rw [kindOf, getElem?_ops_edit, hsplit.old x op hop]
  simp [redirectAt, hout, splitEntry, tiling, hfind, changeLoop]

/-- What was there still is something. -/
theorem exists_kindOf (T : f.Tiled innermost tiles g) {x : OpId} (hx : x < f.ops.size) :
    ∃ k, g.kindOf x = some k := by
  obtain ⟨split, ids, hsplit, -, rfl⟩ := T.steps
  obtain ⟨op, hop⟩ := exists_op_of_lt hx
  exact ⟨_, kindOf_eq (by rw [getElem?_ops_edit, hsplit.old x op hop]; rfl)⟩

theorem depthBound_eq (T : f.Tiled innermost tiles g) :
    g.depthBound = f.depthBound + tiles.length := by
  obtain ⟨split, ids, hsplit, -, rfl⟩ := T.steps
  rw [depthBound, depthBound, size_ops_edit, hsplit.size, Nat.add_right_comm]

theorem bodyOf_old (T : f.Tiled innermost tiles g) {x : OpId} (hx : x < f.ops.size)
    (hne : x ≠ innermost) : g.bodyOf x = f.bodyOf x := by
  obtain ⟨split, hsplit, hsame⟩ := T.exists_split
  rw [hsame.bodyOf, hsplit.bodyOf_old hx hne]

theorem bodyOf_innermost (T : f.Tiled innermost tiles g) : g.bodyOf innermost = [f.ops.size] := by
  obtain ⟨split, hsplit, hsame⟩ := T.exists_split
  rw [hsame.bodyOf, hsplit.bodyOf_innermost (T.tidy.toNested.lt_size T.reaches_innermost)]

/-- The point loops are a chain that ends in the old body. -/
theorem bodyOf_point (T : f.Tiled innermost tiles g) {position : Nat}
    (hlt : position < tiles.length) : g.bodyOf (f.ops.size + position) =
      if position + 1 < tiles.length then [f.ops.size + (position + 1)]
      else f.bodyOf innermost := by
  obtain ⟨split, hsplit, hsame⟩ := T.exists_split
  rw [hsame.bodyOf, hsplit.bodyOf_point hlt]

theorem reaches_point (T : f.Tiled innermost tiles g) {position : Nat}
    (hlt : position < tiles.length) : g.Reaches (f.ops.size + position) := by
  obtain ⟨split, hsplit, hsame⟩ := T.exists_split
  exact hsame.reaches (hsplit.reaches_point (T.tidy.toNested.lt_size T.reaches_innermost)
    (hsplit.reaches_old T.tidy.toNested T.tiles_ne_nil T.reaches_innermost) hlt)

/-- The last point loop has taken over the body of the innermost loop. -/
theorem bodyOf_lastPoint (T : f.Tiled innermost tiles g) :
    g.bodyOf (f.lastPoint tiles) = f.bodyOf innermost := by
  have hpos : 0 < tiles.length := List.length_pos_of_ne_nil T.tiles_ne_nil
  rw [lastPoint, T.bodyOf_point (Nat.sub_lt hpos Nat.one_pos), if_neg (by omega)]

theorem getLast?_points (T : f.Tiled innermost tiles g) :
    (tiles.map Prod.fst ++ f.points tiles).getLast? = some (f.lastPoint tiles) := by
  have hpos : 0 < tiles.length := List.length_pos_of_ne_nil T.tiles_ne_nil
  rw [List.getLast?_append, points, List.getLast?_range', if_neg (by omega), Option.some_or,
    lastPoint, Nat.add_sub_assoc hpos]

/-- **The tile loops and the point loops are one perfect nest.** -/
theorem nest_tiled (T : f.Tiled innermost tiles g) :
    g.PerfectNest (tiles.map Prod.fst ++ f.points tiles) where
  reaches := by
    intro x hx
    rcases List.mem_append.mp hx with hx | hx
    · exact T.reaches_old (T.nest.reaches x hx)
    · obtain ⟨position, hlt, rfl⟩ := mem_points.mp hx
      exact T.reaches_point hlt
  isLoop := by
    intro x hx
    rw [T.isLoop_iff]
    exact (List.mem_append.mp hx).imp_left (T.nest.isLoop x)
  chain := by
    refine List.isChain_append.mpr ⟨?_, ?_, ?_⟩
    · refine List.IsChain.imp_of_mem_imp (fun outer inner houter hinner hbody => ?_) T.nest.chain
      rw [T.bodyOf_old (T.lt_size_of_mem houter) ?_, hbody]
      -- The innermost loop holds no loop of the band.
      rintro rfl
      refine T.tidy.toNested.not_above_owner T.reaches_innermost ?_
        (T.nest.above_last T.tidy.toNested T.last inner hinner)
      rw [hbody]
      exact List.mem_cons_self
    · refine List.IsChain.imp_of_mem_imp (fun outer inner houter hinner hnext => ?_)
        (List.isChain_range' f.ops.size tiles.length 1)
      obtain ⟨position, -, rfl⟩ := mem_points.mp houter
      obtain ⟨position', hlt, rfl⟩ := mem_points.mp hinner
      have hposition : position' = position + 1 :=
        Nat.add_left_cancel (hnext.trans (Nat.add_assoc f.ops.size position 1))
      subst hposition
      rw [T.bodyOf_point (Nat.lt_of_succ_lt hlt), if_pos hlt]
    · intro last hlast first hfirst
      rw [T.last, Option.mem_some_iff] at hlast
      rw [points, List.head?_range', if_neg (List.length_pos_of_ne_nil T.tiles_ne_nil).ne',
        Option.mem_some_iff] at hfirst
      rw [← hlast, ← hfirst, T.bodyOf_innermost]

/-- **Below a tile or a point loop** a walk collects what stood in the innermost loop. -/
theorem collect_nest (T : f.Tiled innermost tiles g) (hloops : ∀ l, K (.loop l) = []) {x : OpId}
    (hx : x ∈ tiles.map Prod.fst ++ f.points tiles) :
    g.collect K x = (f.bodyOf innermost).flatMap (g.collect K) := by
  rw [T.nest_tiled.collect_eq T.tidy_tiled.toNested hloops T.getLast?_points x hx,
    T.bodyOf_lastPoint]

/-- What is in the body of something inside the innermost loop is inside. -/
theorem inside_child (T : f.Tiled innermost tiles g) {x child : OpId} (hx : f.Reaches x)
    (hup : f.Above innermost x) (hchild : child ∈ f.bodyOf x) :
    f.Reaches child ∧ f.Around innermost child := by
  have hn := T.tidy.toNested
  refine ⟨.nested hx hchild, T.isLoop_innermost,
    hup.tail (hn.parentOf_nested x hx child hchild), ?_⟩
  rintro rfl
  exact hn.not_above_owner hx hchild hup

/-- A walk from a point loop gathers what the walks from the old body do. -/
theorem nest_points (T : f.Tiled innermost tiles g) (hloops : ∀ l, K (.loop l) = [])
    {levels : Nat} {parts : List (List (OpId × Op))}
    (hparts : List.Forall₂ (fun child part => g.nest levels child = .ok part) (f.bodyOf innermost)
      parts) : ∀ count position : Nat, position + (count + 1) = tiles.length →
        ∃ es, g.nest (levels + (count + 1)) (f.ops.size + position) = .ok es ∧
          gather K es = gather K parts.flatten
  | 0, position, hlen => by
    have hlt : position < tiles.length := by omega
    have hbody : g.bodyOf (f.ops.size + position) = f.bodyOf innermost := by
      rw [T.bodyOf_point hlt, if_neg (by omega)]
    obtain ⟨es, hes, hgather⟩ :=
      nest_of_parts (K := K) (T.kindOf_point (List.getElem?_eq_getElem hlt)) (hbody ▸ hparts)
    exact ⟨es, hes, by rw [hgather, hloops, List.nil_append]⟩
  | count + 1, position, hlen => by
    have hlt : position < tiles.length := by omega
    have hbody : g.bodyOf (f.ops.size + position) = [f.ops.size + (position + 1)] := by
      rw [T.bodyOf_point hlt, if_pos (by omega)]
    obtain ⟨part, hpart, hrest⟩ := T.nest_points hloops hparts count (position + 1) (by omega)
    obtain ⟨es, hes, hgather⟩ :=
      nest_of_part (K := K) (T.kindOf_point (List.getElem?_eq_getElem hlt)) hbody hpart
    exact ⟨es, hes, by rw [hgather, hloops, List.nil_append, hrest]⟩

section Walk

variable {P : OpId → Prop} {R : β → γ → Prop} {K' : Kind → List γ}

/-- **Below an operation that was there** a walk gathers what it did, as the kinds say.  On the way
through the innermost loop it needs a level for each point loop, and after that no more. -/
theorem nest_old (T : f.Tiled innermost tiles g) (hP : ∀ x, P x → ∀ child ∈ f.bodyOf x, P child)
    (hloops : ∀ l, K (.loop l) = [])
    (hkinds : ∀ x k k', P x → f.kindOf x = some k → g.kindOf x = some k' →
      List.Forall₂ R (K k') (K' k)) :
    ∀ {levels extra : Nat} {x : OpId} {es : List (OpId × Op)}, P x → f.nest levels x = .ok es →
      (extra = tiles.length ∨ extra = 0 ∧ f.Reaches x ∧ f.Around innermost x) →
        ∃ es', g.nest (levels + extra) x = .ok es' ∧
          List.Forall₂ R (gather K es') (gather K' es)
  | 0, _, _, _, _, h, _ => by cases h
  | levels + 1, extra, x, es, hx, h, hextra => by
    obtain ⟨op, parts, hop, hparts, rfl⟩ := nest_eq_ok.mp h
    have hlt : x < f.ops.size := lt_size_of_some hop
    have hbody : f.bodyOf x = op.body := bodyOf_eq hop
    obtain ⟨k', hk'⟩ := T.exists_kindOf hlt
    have hkind := hkinds x op.kind k' hx (kindOf_eq hop) hk'
    -- The walks from the body, by induction.
    have hwalks : ∀ more, (∀ child ∈ op.body,
        more = tiles.length ∨ more = 0 ∧ f.Reaches child ∧ f.Around innermost child) → ∃ parts',
          List.Forall₂ (fun child part => g.nest (levels + more) child = .ok part) op.body parts' ∧
          List.Forall₂ R (gather K parts'.flatten) (gather K' parts.flatten) := by
      intro more hmore
      obtain ⟨parts', hparts', hrel⟩ := Checked.exists_forall₂ hparts fun child hchild part hpart =>
        T.nest_old hP hloops hkinds (hP x hx child (hbody ▸ hchild)) hpart (hmore child hchild)
      exact ⟨parts', hparts', forall₂_gather hrel⟩
    by_cases hinner : x = innermost
    · subst hinner
      obtain rfl : extra = tiles.length := hextra.resolve_right fun hin => hin.2.2.2.2 rfl
      obtain ⟨parts', hparts', hrel⟩ := hwalks 0 fun child hchild =>
        .inr ⟨rfl, T.inside_child T.reaches_innermost .refl (hbody ▸ hchild)⟩
      have hpos : 0 < tiles.length := List.length_pos_of_ne_nil T.tiles_ne_nil
      obtain ⟨part, hpart, hpoints⟩ :=
        T.nest_points hloops (hbody ▸ hparts') (tiles.length - 1) 0 (by omega)
      obtain ⟨es', hes', hgather⟩ := nest_of_part (K := K) hk' T.bodyOf_innermost hpart
      have hlevels : levels + 1 + tiles.length = levels + (tiles.length - 1 + 1) + 1 := by omega
      rw [hlevels]
      refine ⟨es', hes', ?_⟩
      rw [hgather, hpoints]
      exact List.rel_append hkind hrel
    · obtain ⟨parts', hparts', hrel⟩ := hwalks extra fun child hchild => hextra.imp_right
        fun ⟨hnone, hreach, haround⟩ =>
          ⟨hnone, T.inside_child hreach haround.2.1 (hbody ▸ hchild)⟩
      have hbody' : g.bodyOf x = op.body := (T.bodyOf_old hlt hinner).trans hbody
      obtain ⟨es', hes', hgather⟩ := nest_of_parts (K := K) hk' (hbody' ▸ hparts')
      rw [Nat.add_right_comm]
      refine ⟨es', hes', ?_⟩
      rw [hgather]
      exact List.rel_append hkind hrel

/-- **So do whole walks.**  What is below an operation can be told if it could. -/
theorem collect_forall₂ (T : f.Tiled innermost tiles g)
    (hP : ∀ x, P x → ∀ child ∈ f.bodyOf x, P child) (hloops : ∀ l, K (.loop l) = [])
    (hkinds : ∀ x k k', P x → f.kindOf x = some k → g.kindOf x = some k' →
      List.Forall₂ R (K k') (K' k))
    {x : OpId} (hx : P x) (hes : f.entriesOf x = .ok (f.below x)) :
    g.entriesOf x = .ok (g.below x) ∧ List.Forall₂ R (g.collect K x) (f.collect K' x) := by
  obtain ⟨es, hes', hrel⟩ := T.nest_old hP hloops hkinds hx hes (.inl rfl)
  have hentries : g.entriesOf x = .ok es := by rw [entriesOf, T.depthBound_eq, hes']
  refine ⟨entriesOf_eq_below hentries, ?_⟩
  rw [collect, below_of_entriesOf hentries]
  exact hrel

end Walk

/-- What is reached contributes the same if the kinds do. -/
theorem collect_old (T : f.Tiled innermost tiles g) {K' : Kind → List β}
    (hloops : ∀ l, K (.loop l) = [])
    (hkinds : ∀ x k k', f.Reaches x → f.kindOf x = some k → g.kindOf x = some k' → K k' = K' k)
    {x : OpId} (hx : f.Reaches x) : g.collect K x = f.collect K' x := by
  have hrel := (T.collect_forall₂ (R := Eq) (fun x hx child hchild => .nested hx hchild) hloops
    (fun x k k' hx hk hk' => by rw [List.forall₂_eq_eq_eq]; exact hkinds x k k' hx hk hk') hx
    (T.tidy.toNested.entriesOf_eq hx)).2
  rwa [List.forall₂_eq_eq_eq] at hrel

end Tiled

/-! ## 3. Roots -/

/-- Roots are found in the table of values and through the operations that define them. -/
theorem resolve_congr (hvalues : g.values = f.values)
    (hkinds : ∀ v d, f.definerOf v = some d → g.kind d = f.kind d) :
    ∀ (steps : Nat) (v : ValueId), g.resolve steps v = f.resolve steps v
  | 0, _ => rfl
  | steps + 1, v => by
    have hvalue : g.value v = f.value v := by rw [value, hvalues, value]
    rw [resolve, resolve, hvalue]
    cases hv : f.value v with
    | error fault => rfl
    | ok value =>
      cases hdef : value.definition with
      | argument position => simp only [Checked.ok_bind, hdef]
      | op d =>
        have hd : f.definerOf v = some d :=
          definerOf_eq_some.mpr ⟨value, value_eq_ok_iff.mp hv, hdef⟩
        simp only [Checked.ok_bind, hdef, hkinds v d hd, resolve_congr hvalues hkinds steps]

theorem Tiled.root_eq (T : f.Tiled innermost tiles g) (v : ValueId) : g.root v = f.root v := by
  have hvalues : g.values = f.values := by
    obtain ⟨split, ids, hsplit, -, rfl⟩ := T.steps
    exact hsplit.values
  rw [root, root, hvalues]
  refine resolve_congr hvalues (fun v d hd => ?_) _ _
  -- What defines a value is a buffer or a view, and these are left alone.
  obtain ⟨k, hk, hresult⟩ := T.tidy.toTablesAgree.result_of_definerOf hd
  have hsame : g.kindOf d = some k := by
    cases k with
    | buffer result init => exact T.kindOf_same hk rfl rfl
    | view source result => exact T.kindOf_same hk rfl rfl
    | _ => cases hresult
  rw [kind_eq_ok.mpr hsame, kind_eq_ok.mpr hk]

end Func

/-! ## 4. Redirected accesses -/

namespace Redirection

variable {r : Redirection}

/-- An access with its subscripts redirected. -/
def access (r : Redirection) (a : Access) : Access := { a with indices := a.indices.map r.index }

theorem accesses_compute (r : Redirection) (c : Compute) :
    (r.compute c).accesses = c.accesses.map r.access := List.map_append.symm

/-- A subscript is left alone, or it is a loop of the band that gets its point loop. -/
theorem index_cases (r : Redirection) (i : Index) :
    r.index i = i ∧ (∀ l, i = .iv l → r.point? l = none) ∨
      ∃ l p, i = .iv l ∧ (l, p) ∈ r ∧ r.index i = .tiled l p := by
  cases i with
  | iv l =>
    cases hpoint : r.point? l with
    | none =>
      refine .inl ⟨by simp only [index, hpoint], fun l' heq => ?_⟩
      cases heq
      exact hpoint
    | some p => exact .inr ⟨l, p, rfl, Func.mem_of_point? hpoint, by simp only [index, hpoint]⟩
  | _ => exact .inl ⟨rfl, fun l heq => by cases heq⟩

theorem index_eq_self {i : Index} (hi : ∀ l ∈ i.loops, l ∉ r.map Prod.fst) : r.index i = i := by
  rcases r.index_cases i with ⟨heq, -⟩ | ⟨l, p, rfl, hmem, -⟩
  · exact heq
  · exact absurd (List.mem_map_of_mem hmem) (hi l List.mem_cons_self)

/-- A compute that mentions no loop of the band is left alone. -/
theorem compute_eq_self {c : Compute} (hc : ∀ l ∈ c.loops, l ∉ r.map Prod.fst) :
    r.compute c = c := by
  have haccess : ∀ a ∈ c.accesses, r.access a = a := by
    intro a ha
    have hindices : a.indices.map r.index = a.indices.map id := by
      refine List.map_congr_left fun i hi => index_eq_self fun l hl => hc l ?_
      exact List.mem_append_left _ (List.mem_flatMap.mpr ⟨a, ha, List.mem_flatMap.mpr ⟨i, hi, hl⟩⟩)
    rw [access, hindices, List.map_id]
  have hreads : c.reads.map r.access = c.reads.map id :=
    List.map_congr_left fun a ha => haccess a (List.mem_append_left _ ha)
  have hwrites : c.writes.map r.access = c.writes.map id :=
    List.map_congr_left fun a ha => haccess a (List.mem_append_right _ ha)
  have hlanes : (c.lanes.map fun o => ((r.point? o.1).getD o.1, o.2)) = c.lanes.map id := by
    refine List.map_congr_left fun o ho => ?_
    rw [point?_eq_none (hc o.1 (List.mem_append_right _ (List.mem_map_of_mem ho)))]
    rfl
  rw [List.map_id] at hreads hwrites hlanes
  calc r.compute c
      = { c with
          reads := c.reads.map r.access
          writes := c.writes.map r.access
          lanes := c.lanes.map fun o => ((r.point? o.1).getD o.1, o.2) } := rfl
    _ = c := by rw [hreads, hwrites, hlanes]

/-- **Redirecting tells subscripts apart.** -/
theorem index_inj {i j : Index} (hi : ∀ l ∈ i.loops, l ∉ r.map Prod.snd)
    (hj : ∀ l ∈ j.loops, l ∉ r.map Prod.snd) (heq : r.index i = r.index j) : i = j := by
  -- The point loop of a redirected subscript is not in one that was left alone.
  have hmixed : ∀ {k : Index}, (∀ l ∈ k.loops, l ∉ r.map Prod.snd) → ∀ {l p : OpId}, (l, p) ∈ r →
      k ≠ .tiled l p := by
    rintro k hk l p hmem rfl
    exact hk p (List.mem_cons_of_mem l List.mem_cons_self) (List.mem_map_of_mem hmem)
  rcases r.index_cases i with ⟨hsame, -⟩ | ⟨l, p, rfl, hmem, htiled⟩
  · rcases r.index_cases j with ⟨hsame', -⟩ | ⟨l', p', rfl, hmem', htiled'⟩
    · rw [hsame, hsame'] at heq
      exact heq
    · rw [hsame, htiled'] at heq
      exact absurd heq (hmixed hi hmem')
  · rcases r.index_cases j with ⟨hsame', -⟩ | ⟨l', p', rfl, hmem', htiled'⟩
    · rw [hsame', htiled] at heq
      exact absurd heq.symm (hmixed hj hmem)
    · rw [htiled, htiled'] at heq
      cases heq
      rfl

theorem map_index_inj : ∀ {is js : List Index}, (∀ i ∈ is, ∀ l ∈ i.loops, l ∉ r.map Prod.snd) →
    (∀ j ∈ js, ∀ l ∈ j.loops, l ∉ r.map Prod.snd) → is.map r.index = js.map r.index → is = js
  | [], [], _, _, _ => rfl
  | i :: is, j :: js, his, hjs, heq => by
    obtain ⟨hi, his⟩ := List.forall_mem_cons.mp his
    obtain ⟨hj, hjs⟩ := List.forall_mem_cons.mp hjs
    rw [List.map_cons, List.map_cons, List.cons.injEq] at heq
    rw [index_inj hi hj heq.1, map_index_inj his hjs heq.2]

theorem access_inj {a b : Access} (ha : ∀ i ∈ a.indices, ∀ l ∈ i.loops, l ∉ r.map Prod.snd)
    (hb : ∀ i ∈ b.indices, ∀ l ∈ i.loops, l ∉ r.map Prod.snd) :
    (r.access a == r.access b) = (a == b) := by
  rw [Bool.eq_iff_iff, beq_iff_eq, beq_iff_eq]
  constructor
  · intro heq
    obtain ⟨hmemref, hindices⟩ := Access.mk.inj heq
    obtain ⟨_, _⟩ := a
    obtain ⟨_, _⟩ := b
    rw [Access.mk.injEq]
    exact ⟨hmemref, map_index_inj ha hb hindices⟩
  · rintro rfl
    rfl

/-- A loop that is no point loop drives the subscripts that it drove. -/
theorem uses_index_old {l : OpId} (hl : l ∉ r.map Prod.snd) (i : Index) :
    (r.index i).uses l = i.uses l := by
  rcases r.index_cases i with ⟨hsame, -⟩ | ⟨l', p, rfl, hmem, htiled⟩
  · rw [hsame]
  · have hne : l ≠ p := fun heq => hl (heq ▸ List.mem_map_of_mem hmem)
    rw [htiled, Bool.eq_iff_iff, Index.uses_iff, Index.uses_iff]
    simp [Index.loops, hne]

/-- **A point loop drives the subscripts that its loop drove**, unless the loop drove one together
with another. -/
theorem Apart.uses_index_point (h : r.Apart) {t p : OpId} (htp : (t, p) ∈ r) {i : Index}
    (hi : ∀ l ∈ i.loops, l ∉ r.map Prod.snd)
    (hplain : ∀ t' p', i = .tiled t' p' → t' ≠ t ∧ p' ≠ t) : (r.index i).uses p = i.uses t := by
  have hp : p ∉ i.loops := fun hmem => hi p hmem (List.mem_map_of_mem htp)
  rw [Bool.eq_iff_iff, Index.uses_iff, Index.uses_iff]
  rcases r.index_cases i with ⟨hsame, hnone⟩ | ⟨l, q, rfl, hmem, htiled⟩
  · -- A subscript that is left alone is driven by neither.
    rw [hsame]
    refine iff_of_false hp fun ht => ?_
    cases i with
    | iv l =>
      rw [Index.loops, List.mem_singleton] at ht
      have hpoint := hnone l rfl
      rw [← ht, h.point?_eq htp] at hpoint
      cases hpoint
    | tiled t' p' =>
      obtain ⟨ht', hp'⟩ := hplain t' p' rfl
      simp [Index.loops, ht'.symm, hp'.symm] at ht
    | const value => cases ht
    | unknown => cases ht
  · have hpl : p ≠ l := fun heq => hp (heq ▸ List.mem_cons_self)
    have hpq : p = q ↔ t = l := by
      constructor
      · rintro rfl
        exact congrArg Prod.fst (List.inj_on_of_nodup_map h.points htp hmem rfl)
      · rintro rfl
        exact congrArg Prod.snd (List.inj_on_of_nodup_map h.tiles htp hmem rfl)
    rw [htiled]
    simp [Index.loops, hpl, hpq]

/-- A redirected access has a subscript that a loop drives if the access has one that another loop
drives in its place. -/
theorem isNone_dimensionOf {a : Access} {l l' : OpId}
    (h : ∀ i ∈ a.indices, (r.index i).uses l' = i.uses l) :
    ((r.access a).dimensionOf l').isNone = (a.dimensionOf l).isNone := by
  rw [Bool.eq_iff_iff, Option.isNone_iff_eq_none, Option.isNone_iff_eq_none, Access.dimensionOf,
    Access.dimensionOf, List.findIdx?_eq_none_iff, List.findIdx?_eq_none_iff, access,
    List.forall_mem_map]
  exact forall₂_congr fun i hi => by rw [h i hi]

end Redirection

namespace Func

variable {f g : Func} {innermost : OpId} {tiles : List (OpId × TileHeader)}

/-! ## 5. The question asked of a loop -/

/-- The computes below an operation, in program order. -/
def computesBelow (f : Func) (id : OpId) : List Compute := f.collect (fun k => k.compute?.toList) id

/-- The copies below an operation, in program order. -/
def copiesBelow (f : Func) (id : OpId) : List Kind :=
  f.collect (fun k => if k.isCopy then [k] else []) id

/-- The answer for a loop with given computes below it: every write of them goes to an element of
its own iteration. -/
def ownStores (f : Func) (id : OpId) (computes : List Compute) : Checked Bool :=
  (computes.flatMap Compute.writes).allM
    (f.storesOwnElement id (computes.flatMap Compute.accesses))

theorem isParallel_of_declared {id : OpId} {l : Loop} (hk : f.kindOf id = some (.loop l))
    (hparallel : l.parallel = true) : f.isParallel id = .ok true := by
  have hloop : f.loop? id = .ok (some l) := loop?_eq_ok.mpr ⟨_, hk, rfl⟩
  rw [isParallel, hloop, Checked.ok_bind]
  simp only [hparallel, if_true]
  rfl

/-- Without a declaration there is an answer only if it can be told what is below. -/
theorem entriesOf_of_isParallel {id : OpId} {l : Loop} (hk : f.kindOf id = some (.loop l))
    (hparallel : l.parallel = false) {answer : Bool} (h : f.isParallel id = .ok answer) :
    f.entriesOf id = .ok (f.below id) := by
  have hloop : f.loop? id = .ok (some l) := loop?_eq_ok.mpr ⟨_, hk, rfl⟩
  rw [isParallel, hloop, Checked.ok_bind] at h
  simp only [hparallel, Bool.false_eq_true, if_false] at h
  obtain ⟨es, hes, -⟩ := Checked.bind_eq_ok.mp h
  exact entriesOf_eq_below hes

/-- **What decides that a loop is parallel**: its declaration, the computes and the copies below. -/
theorem isParallel_eq {id : OpId} (hes : f.entriesOf id = .ok (f.below id)) {l : Loop}
    (hk : f.kindOf id = some (.loop l)) : f.isParallel id =
      if l.parallel then .ok true
      else f.ownStores id (f.computesBelow id) >>= fun own =>
        .ok (own && (f.copiesBelow id).isEmpty) := by
  have hloop : f.loop? id = .ok (some l) := loop?_eq_ok.mpr ⟨_, hk, rfl⟩
  have hcomputes : ((f.below id).filterMap fun e => e.2.kind.compute?) = f.computesBelow id :=
    List.filterMap_eq_flatMap_toList ..
  have hcopies : (!(f.below id).any fun e => e.2.kind.isCopy) = (f.copiesBelow id).isEmpty := by
    rw [Bool.eq_iff_iff, copiesBelow, collect, gather, List.isEmpty_iff, List.flatMap_eq_nil_iff]
    simp
  rw [isParallel, hloop, Checked.ok_bind]
  by_cases hparallel : l.parallel = true
  · simp only [hparallel, if_true]
    rfl
  · simp only [hparallel, Bool.false_eq_true, if_false, hes, Checked.ok_bind, hcomputes, hcopies]
    refine bind_congr fun own => ?_
    cases own <;> rfl

/-- **The answer is the same for stores that cannot be told apart**: they go to the same memrefs,
the loops that are asked about drive the same ones, and those that are driven equal the same. -/
theorem ownStores_congr {id id' : OpId} {R : Access → Access → Prop} {cs cs' : List Compute}
    (hroot : ∀ v, g.root v = f.root v) (hmemref : ∀ a' a, R a' a → a'.memref = a.memref)
    (hdimension : ∀ a' a, R a' a → (a'.dimensionOf id').isNone = (a.dimensionOf id).isNone)
    (hbeq : ∀ o' o w' w, R o' o → R w' w → (w.dimensionOf id).isNone = false →
      (o' == w') = (o == w))
    (hwrites : List.Forall₂ R (cs'.flatMap Compute.writes) (cs.flatMap Compute.writes))
    (haccesses : List.Forall₂ R (cs'.flatMap Compute.accesses) (cs.flatMap Compute.accesses)) :
    g.ownStores id' cs' = f.ownStores id cs := by
  refine Checked.allM_congr (hwrites.imp fun w' w hw => ?_)
  rw [storesOwnElement, storesOwnElement, hdimension w' w hw, hmemref w' w hw, hroot]
  split
  · rfl
  · rename_i hdriven
    refine bind_congr fun root => Checked.allM_congr (haccesses.imp fun o' o ho => ?_)
    have htouch : g.mayTouch o' root = f.mayTouch o root := by
      cases root with
      | none => rfl
      | some root => rw [mayTouch, mayTouch, hmemref o' o ho, hroot]
    rw [htouch, hbeq o' o w' w ho hw (Bool.eq_false_iff.mpr hdriven)]

namespace Tiled

/-- **The answer for redirected computes** is the answer for the computes, if the loops that are
asked about drive the same subscripts. -/
theorem ownStores_eq (T : f.Tiled innermost tiles g) {id id' : OpId} {cs : List Compute}
    (hloops : ∀ c ∈ cs, ∀ l ∈ c.loops, l ∉ f.points tiles)
    (huses : ∀ c ∈ cs, ∀ a ∈ c.accesses, ∀ i ∈ a.indices,
      ((f.pairing tiles).index i).uses id' = i.uses id) :
    g.ownStores id' (cs.map (f.pairing tiles).compute) = f.ownStores id cs := by
  have hwrites : (cs.map (f.pairing tiles).compute).flatMap Compute.writes
      = (cs.flatMap Compute.writes).map (f.pairing tiles).access := by
    rw [List.flatMap_map, List.map_flatMap]
    rfl
  have haccesses : (cs.map (f.pairing tiles).compute).flatMap Compute.accesses
      = (cs.flatMap Compute.accesses).map (f.pairing tiles).access := by
    rw [List.flatMap_map, List.map_flatMap]
    exact List.flatMap_congr fun c _ => (f.pairing tiles).accesses_compute c
  -- What is known of the subscripts of an access.
  have hold : ∀ a ∈ cs.flatMap Compute.accesses, ∀ i ∈ a.indices, ∀ l ∈ i.loops,
      l ∉ (f.pairing tiles).map Prod.snd := by
    intro a ha i hi l hl
    obtain ⟨c, hc, ha⟩ := List.mem_flatMap.mp ha
    rw [map_snd_pairing]
    refine hloops c hc l (List.mem_append_left _ ?_)
    exact List.mem_flatMap.mpr ⟨a, ha, List.mem_flatMap.mpr ⟨i, hi, hl⟩⟩
  refine ownStores_congr
    (R := fun a' a => a' = (f.pairing tiles).access a ∧ a ∈ cs.flatMap Compute.accesses)
    T.root_eq ?_ ?_ ?_ ?_ ?_
  · rintro _ a ⟨rfl, -⟩
    rfl
  · rintro _ a ⟨rfl, ha⟩
    obtain ⟨c, hc, ha⟩ := List.mem_flatMap.mp ha
    exact Redirection.isNone_dimensionOf (huses c hc a ha)
  · rintro _ o _ w ⟨rfl, ho⟩ ⟨rfl, hw⟩ -
    exact Redirection.access_inj (hold o ho) (hold w hw)
  · rw [hwrites, List.forall₂_map_left_iff, List.forall₂_same]
    intro w hw
    obtain ⟨c, hc, hw⟩ := List.mem_flatMap.mp hw
    exact ⟨rfl, List.mem_flatMap.mpr ⟨c, hc, List.mem_append_right _ hw⟩⟩
  · rw [haccesses, List.forall₂_map_left_iff, List.forall₂_same]
    exact fun a ha => ⟨rfl, ha⟩

/-! ## 6. The same answer -/

/-- Redirecting makes no difference to a compute outside the band. -/
theorem compute_outside (T : f.Tiled innermost tiles g) {x : OpId} (hx : f.Reaches x) {c : Compute}
    (hk : f.kindOf x = some (.compute c)) (hout : ¬ f.Around innermost x) :
    (f.pairing tiles).compute c = c := by
  refine Redirection.compute_eq_self fun l hl hmem => hout ?_
  rw [map_fst_pairing] at hmem
  obtain ⟨op, hop, hkind⟩ := Option.map_eq_some_iff.mp hk
  obtain ⟨hloop, hup⟩ := (T.tidy.mentions x op hx hop).compute c hkind l hl
  have hnot := T.not_mem_of_compute hk
  exact (T.around_tile_iff hmem hx hnot).mp ⟨hloop, hup, fun heq => hnot (heq ▸ hmem)⟩

/-- What becomes of an operation: a loop stays one, a compute is redirected, and anything else is
left alone. -/
theorem kindOf_cases (T : f.Tiled innermost tiles g) {x : OpId} (hx : f.Reaches x) {k k' : Kind}
    (hk : f.kindOf x = some k) (hk' : g.kindOf x = some k') :
    (∃ l l', k = .loop l ∧ k' = .loop l') ∨
      (∃ c, k = .compute c ∧ k' = .compute ((f.pairing tiles).compute c)) ∨
      k' = k ∧ k.loop? = none ∧ k.compute? = none := by
  cases k with
  | loop l =>
    rw [T.kindOf_loop hk] at hk'
    cases hk'
    exact .inl ⟨_, _, rfl, rfl⟩
  | compute c =>
    obtain ⟨hin, hout⟩ := T.kindOf_compute hx hk
    refine .inr (.inl ⟨c, rfl, ?_⟩)
    by_cases haround : f.Around innermost x
    · rw [hin haround] at hk'
      exact (Option.some.inj hk').symm
    · rw [T.compute_outside hx hk haround]
      rw [hout haround] at hk'
      exact (Option.some.inj hk').symm
  | _ =>
    rw [T.kindOf_same hk rfl rfl] at hk'
    exact .inr (.inr ⟨(Option.some.inj hk').symm, rfl, rfl⟩)

/-- **A walk meets the same computes, redirected.** -/
theorem computes_old (T : f.Tiled innermost tiles g) {x : OpId} (hx : f.Reaches x) :
    g.computesBelow x = (f.computesBelow x).map (f.pairing tiles).compute := by
  have hcollect : g.computesBelow x =
      f.collect (fun k => (k.compute?.map (f.pairing tiles).compute).toList) x := by
    refine T.collect_old (fun l => rfl) (fun x k k' hx hk hk' => ?_) hx
    rcases T.kindOf_cases hx hk hk' with ⟨l, l', rfl, rfl⟩ | ⟨c, rfl, rfl⟩ | ⟨rfl, -, hcompute⟩
    · rfl
    · rfl
    · simp only [hcompute, Option.map_none]
  rw [hcollect, computesBelow, collect, collect, gather, gather, List.map_flatMap]
  refine List.flatMap_congr fun e _ => ?_
  cases e.2.kind.compute? <;> rfl

/-- It meets the same copies, also from where nothing is reached. -/
theorem copies_old (T : f.Tiled innermost tiles g) {x : OpId}
    (hes : f.entriesOf x = .ok (f.below x)) : g.copiesBelow x = f.copiesBelow x := by
  have hkinds : ∀ x k k', f.kindOf x = some k → g.kindOf x = some k' →
      (if k'.isCopy then [k'] else []) = (if k.isCopy then [k] else []) := by
    intro x k k' hk hk'
    by_cases hx : f.Reaches x
    · rcases T.kindOf_cases hx hk hk' with ⟨l, l', rfl, rfl⟩ | ⟨c, rfl, rfl⟩ | ⟨rfl, -⟩
      · rfl
      · rfl
      · rfl
    · rw [T.kindOf_stray hx hk] at hk'
      cases hk'
      rfl
  have hrel : List.Forall₂ Eq (g.copiesBelow x) (f.copiesBelow x) :=
    (T.collect_forall₂ (P := fun _ => True) (fun _ _ _ _ => trivial) (fun l => rfl)
      (fun x k k' _ hk hk' => List.forall₂_eq_eq_eq ▸ hkinds x k k' hk hk') trivial hes).2
  rwa [List.forall₂_eq_eq_eq] at hrel

/-- The computes below a loop mention no point loop. -/
theorem loops_of_computes (T : f.Tiled innermost tiles g) {x : OpId} (hx : f.Reaches x) :
    ∀ c ∈ f.computesBelow x, ∀ l ∈ c.loops, l ∉ f.points tiles := by
  intro c hc l hl
  obtain ⟨y, k, hy, -, hk, hck⟩ := T.tidy.toNested.mem_collect hx hc
  obtain rfl := Kind.eq_compute_of_compute? (Option.mem_toList.mp hck)
  obtain ⟨op, hop, hkind⟩ := Option.map_eq_some_iff.mp hk
  obtain ⟨-, hup⟩ := (T.tidy.mentions y op hy hop).compute c hkind l hl
  exact not_mem_points (T.tidy.toNested.lt_size (T.tidy.toNested.reaches_of_above hup hy))

/-- **A loop that was there keeps its answer.** -/
theorem isParallel_old (T : f.Tiled innermost tiles g) {x : OpId} (hx : f.Reaches x) {l l' : Loop}
    (hk : f.kindOf x = some (.loop l)) (hk' : g.kindOf x = some (.loop l'))
    (hparallel : l'.parallel = l.parallel) : g.isParallel x = f.isParallel x := by
  have hpoint : x ∉ (f.pairing tiles).map Prod.snd := by
    rw [map_snd_pairing]
    exact not_mem_points (T.tidy.toNested.lt_size hx)
  have hes := T.tidy.toNested.entriesOf_eq hx
  rw [isParallel_eq (T.tidy_tiled.toNested.entriesOf_eq (T.reaches_old hx)) hk',
    isParallel_eq hes hk, hparallel, T.computes_old hx, T.copies_old hes,
    T.ownStores_eq (T.loops_of_computes hx) fun c _ a _ i _ =>
      Redirection.uses_index_old hpoint i]

/-- **A point loop has the answer of its loop.** -/
theorem isParallel_point (T : f.Tiled innermost tiles g) (hplain : f.Untiled (tiles.map Prod.fst))
    {t p : OpId} (htp : (t, p) ∈ f.pairing tiles) {l l' : Loop}
    (hk : f.kindOf t = some (.loop l)) (hk' : g.kindOf p = some (.loop l'))
    (hparallel : l'.parallel = l.parallel) : g.isParallel p = f.isParallel t := by
  have hn := T.tidy.toNested
  have ht : t ∈ tiles.map Prod.fst := tile_mem htp
  have hreach : f.Reaches t := T.nest.reaches t ht
  -- The loops of the band contribute nothing, so both walks collect what the innermost one held.
  have hcollect : ∀ {β : Type} {K : Kind → List β}, (∀ l, K (.loop l) = []) →
      g.collect K p = g.collect K t := by
    intro β K hloops
    rw [T.collect_nest hloops (List.mem_append_right _ (point_mem htp)),
      T.collect_nest hloops (List.mem_append_left _ ht)]
  have hcomputes : g.computesBelow p = (f.computesBelow t).map (f.pairing tiles).compute :=
    (hcollect fun l => rfl).trans (T.computes_old hreach)
  have hes := hn.entriesOf_eq hreach
  have hcopies : g.copiesBelow p = f.copiesBelow t :=
    (hcollect fun l => rfl).trans (T.copies_old hes)
  have hpoint : g.Reaches p := T.nest_tiled.reaches p (List.mem_append_right _ (point_mem htp))
  rw [isParallel_eq (T.tidy_tiled.toNested.entriesOf_eq hpoint) hk', isParallel_eq hes hk,
    hparallel, hcomputes, hcopies,
    T.ownStores_eq (T.loops_of_computes hreach) fun c hc a ha i hi => ?_]
  refine T.apart.uses_index_point htp (fun l hl => ?_) fun t' p' htiled => ?_
  · rw [map_snd_pairing]
    refine T.loops_of_computes hreach c hc l (List.mem_append_left _ ?_)
    exact List.mem_flatMap.mpr ⟨a, ha, List.mem_flatMap.mpr ⟨i, hi, hl⟩⟩
  · obtain ⟨y, k, hy, hup, hky, hck⟩ := T.tidy.toNested.mem_collect hreach hc
    obtain rfl := Kind.eq_compute_of_compute? (Option.mem_toList.mp hck)
    have hnot := T.not_mem_of_compute hky
    have haround : f.Around t y :=
      ⟨T.nest.isLoop t ht, hup, fun heq => hnot (heq ▸ ht)⟩
    have hunder : f.Under (tiles.map Prod.fst) y :=
      (T.under_iff hy hnot).mpr ((T.around_tile_iff ht hy hnot).mp haround)
    obtain ⟨ht', hp'⟩ := hplain y c hunder hky a ha t' p' (htiled ▸ hi)
    exact ⟨fun heq => ht' (heq ▸ ht), fun heq => hp' (heq ▸ ht)⟩

end Tiled

/-! ## 7. Loops that are not reached -/

/-- What an access can become in the eyes of a loop: it stays as it is, or the loop drives neither
it nor what it becomes. -/
def Undriven (m : OpId) (a' a : Access) : Prop :=
  a' = a ∨ a'.memref = a.memref ∧ a'.dimensionOf m = none ∧ a.dimensionOf m = none

namespace Undriven

variable {m : OpId} {a a' o o' w w' : Access}

theorem memref_eq (h : Undriven m a' a) : a'.memref = a.memref := by
  rcases h with rfl | ⟨hmemref, -⟩
  · rfl
  · exact hmemref

theorem dimensionOf_eq (h : Undriven m a' a) : a'.dimensionOf m = a.dimensionOf m := by
  rcases h with rfl | ⟨-, hnone', hnone⟩
  · rfl
  · rw [hnone', hnone]

/-- An access that the loop drives equals the same accesses as before. -/
theorem beq_eq (ho : Undriven m o' o) (hw : Undriven m w' w)
    (hdriven : (w.dimensionOf m).isNone = false) : (o' == w') = (o == w) := by
  have hne : ∀ {b : Access}, b.dimensionOf m = none → (b == w) = false := by
    intro b hb
    rw [beq_eq_false_iff_ne]
    rintro rfl
    rw [hb] at hdriven
    cases hdriven
  rcases hw with rfl | ⟨-, -, hnone⟩
  · rcases ho with rfl | ⟨-, hnone', hnone⟩
    · rfl
    · rw [hne hnone', hne hnone]
  · rw [hnone] at hdriven
    cases hdriven

end Undriven

theorem flatMap_computesBelow (f : Func) (x : OpId) (part : Compute → List Access) :
    (f.computesBelow x).flatMap part = f.collect (fun k => k.compute?.toList.flatMap part) x :=
  List.flatMap_assoc

namespace Tiled

/-- What is reached mentions no loop that is not, and nothing else is redirected. -/
theorem undriven (T : f.Tiled innermost tiles g) {m : OpId} (hm : ¬ f.Reaches m)
    (hpoint : m ∉ f.points tiles) {part : Compute → List Access}
    (hpart : ∀ c, ∀ a ∈ part c, a ∈ c.accesses)
    (hredirect : ∀ c, part ((f.pairing tiles).compute c) = (part c).map (f.pairing tiles).access)
    {x : OpId} {k k' : Kind} (hk : f.kindOf x = some k) (hk' : g.kindOf x = some k') :
    List.Forall₂ (Undriven m) (k'.compute?.toList.flatMap part)
      (k.compute?.toList.flatMap part) := by
  by_cases hx : f.Reaches x
  · rcases T.kindOf_cases hx hk hk' with ⟨l, l', rfl, rfl⟩ | ⟨c, rfl, rfl⟩ | ⟨rfl, -, hcompute⟩
    · exact .nil
    · simp only [Kind.compute?, Option.toList_some, List.flatMap_singleton, hredirect,
        List.forall₂_map_left_iff, List.forall₂_same]
      intro a ha
      have hnone : a.dimensionOf m = none := by
        refine List.findIdx?_eq_none_iff.mpr fun i hi => Bool.eq_false_iff.mpr fun huses => hm ?_
        obtain ⟨op, hop, hkind⟩ := Option.map_eq_some_iff.mp hk
        have hmem : m ∈ c.loops := List.mem_append_left _ (List.mem_flatMap.mpr
          ⟨a, hpart c a ha, List.mem_flatMap.mpr ⟨i, hi, Index.uses_iff.mp huses⟩⟩)
        exact T.tidy.toNested.reaches_of_above
          ((T.tidy.mentions x op hx hop).compute c hkind m hmem).2 hx
      have hsame := Redirection.isNone_dimensionOf (a := a) fun i _ =>
        Redirection.uses_index_old (map_snd_pairing ▸ hpoint) i
      rw [hnone] at hsame
      exact .inr ⟨rfl, Option.isNone_iff_eq_none.mp hsame, hnone⟩
    · rw [hcompute]
      exact .nil
  · rw [T.kindOf_stray hx hk] at hk'
    cases hk'
    exact List.forall₂_same.mpr fun a _ => .inl rfl

/-- So the computes below a loop that is not reached have the accesses that they had, as far as the
loop can tell. -/
theorem undriven_below (T : f.Tiled innermost tiles g) {m : OpId} (hm : ¬ f.Reaches m)
    (hpoint : m ∉ f.points tiles) {part : Compute → List Access}
    (hpart : ∀ c, ∀ a ∈ part c, a ∈ c.accesses)
    (hredirect : ∀ c, part ((f.pairing tiles).compute c) = (part c).map (f.pairing tiles).access)
    (hes : f.entriesOf m = .ok (f.below m)) :
    g.entriesOf m = .ok (g.below m) ∧
      List.Forall₂ (Undriven m) ((g.computesBelow m).flatMap part)
        ((f.computesBelow m).flatMap part) := by
  rw [flatMap_computesBelow, flatMap_computesBelow]
  exact T.collect_forall₂ (P := fun _ => True) (fun _ _ _ _ => trivial) (fun _ => rfl)
    (fun x k k' _ => T.undriven hm hpoint hpart hredirect) trivial hes

/-- **A loop that is not reached keeps its answer**, if it had one. -/
theorem isParallel_stray (T : f.Tiled innermost tiles g) {m : OpId} (hm : ¬ f.Reaches m) {l : Loop}
    (hk : f.kindOf m = some (.loop l)) {answer : Bool} (h : f.isParallel m = .ok answer) :
    g.isParallel m = .ok answer := by
  have hk' : g.kindOf m = some (.loop l) := T.kindOf_stray hm hk
  have hpoint : m ∉ f.points tiles := by
    obtain ⟨op, hop, -⟩ := Option.map_eq_some_iff.mp hk
    exact not_mem_points (lt_size_of_some hop)
  cases hparallel : l.parallel with
  | true =>
    rw [isParallel_of_declared hk hparallel] at h
    rw [isParallel_of_declared hk' hparallel, h]
  | false =>
    have hes := entriesOf_of_isParallel hk hparallel h
    obtain ⟨hes', hwrites⟩ := T.undriven_below hm hpoint
      (fun c a ha => List.mem_append_right _ ha) (fun c => rfl) hes
    obtain ⟨-, haccesses⟩ := T.undriven_below hm hpoint (fun c a ha => ha)
      (f.pairing tiles).accesses_compute hes
    have hstores : g.ownStores m (g.computesBelow m) = f.ownStores m (f.computesBelow m) :=
      ownStores_congr T.root_eq (fun _ _ ha => ha.memref_eq)
        (fun _ _ ha => congrArg Option.isNone ha.dimensionOf_eq)
        (fun _ _ _ _ ho hw => ho.beq_eq hw) hwrites haccesses
    rw [isParallel_eq hes' hk', hstores, T.copies_old hes, ← isParallel_eq hes hk, h]

end Tiled

/-! ## 8. Tile and point loops -/

/-- Loops that are no point loops are sorted to the tile loops. -/
theorem splitFrom_tiles {rest : Band} : ∀ {band tile : Band},
    (∀ t ∈ band, ∃ l, f.kindOf t = some (.loop l) ∧ l.pointOf = none) →
      f.splitFrom tile [] (band ++ rest) = f.splitFrom (tile ++ band) [] rest
  | [], tile, _ => by rw [List.nil_append, List.append_nil]
  | t :: band, tile, h => by
    obtain ⟨⟨l, hk, hnone⟩, hband⟩ := List.forall_mem_cons.mp h
    have hloop : f.loop? t = .ok (some l) := loop?_eq_ok.mpr ⟨_, hk, rfl⟩
    rw [List.cons_append, splitFrom, hloop, Checked.ok_bind]
    simp only [hnone, List.isEmpty_nil, if_true]
    rw [splitFrom_tiles hband, List.append_assoc, List.singleton_append]

/-- Point loops of them follow. -/
theorem splitFrom_points {tile : Band} : ∀ {band point : Band},
    (∀ p ∈ band, ∃ l t, f.kindOf p = some (.loop l) ∧ l.pointOf = some t ∧ t ∈ tile) →
      f.splitFrom tile point band = .ok (some (tile, point ++ band))
  | [], point, _ => by
    rw [List.append_nil]
    rfl
  | p :: band, point, h => by
    obtain ⟨⟨l, t, hk, hpoint, ht⟩, hband⟩ := List.forall_mem_cons.mp h
    have hloop : f.loop? p = .ok (some l) := loop?_eq_ok.mpr ⟨_, hk, rfl⟩
    rw [splitFrom, hloop, Checked.ok_bind]
    simp only [hpoint, List.contains_iff_mem.mpr ht, if_true]
    rw [splitFrom_points hband, List.append_assoc, List.singleton_append]

/-- **A band splits** into its tile loops and the point loops after them. -/
theorem splitBand_append {band points : Band}
    (htiles : ∀ t ∈ band, ∃ l, f.kindOf t = some (.loop l) ∧ l.pointOf = none)
    (hpoints : ∀ p ∈ points, ∃ l t, f.kindOf p = some (.loop l) ∧ l.pointOf = some t ∧ t ∈ band) :
    f.splitBand (band ++ points) = .ok (some (band, points)) := by
  rw [splitBand, splitFrom_tiles htiles, List.nil_append, splitFrom_points hpoints,
    List.nil_append]

theorem map_sortOf_eq {i : OpId} {tile? : Option OpId} :
    f.ops[i]?.map sortOf = some (some tile?) ↔
      ∃ l, f.kindOf i = some (.loop l) ∧ l.pointOf = tile? := by
  rw [kindOf]
  cases f.ops[i]? with
  | none => simp
  | some op => cases hk : op.kind <;> simp [sortOf, hk, Kind.loop?]

namespace SortsKept

variable {points : List OpId}

theorem tile (h : f.SortsKept tiles g points) {t : OpId} {l : Loop}
    (hk : f.kindOf t = some (.loop l)) (hnone : l.pointOf = none) :
    ∃ l', g.kindOf t = some (.loop l') ∧ l'.pointOf = none := by
  obtain ⟨op, hop, -⟩ := Option.map_eq_some_iff.mp hk
  rw [← map_sortOf_eq, h.old t (lt_size_of_some hop), map_sortOf_eq]
  exact ⟨l, hk, hnone⟩

theorem point_of_pairing (h : f.SortsKept tiles g points) {t p : OpId}
    (htp : (t, p) ∈ f.pairing tiles) :
    ∃ l, g.kindOf p = some (.loop l) ∧ l.pointOf = some t := by
  obtain ⟨position, header, hposition, rfl⟩ := mem_pairing.mp htp
  exact map_sortOf_eq.mp (h.point position (t, header) hposition)

end SortsKept

/-- **Whatever band is tiled**, reached or not: the new band is the old one and a point loop for
each of its loops, and it splits into the two. -/
theorem splitBand_tiled {band : Band} {sizes : List Nat} {headers : List TileHeader}
    {points : List OpId} (hplan : f.tilingPlan band sizes = .ok (.ok headers))
    (hloops : f.splitLoops innermost (band.zip headers) = .ok (g, points)) :
    band.zip points = f.pairing (band.zip headers) ∧ points.length = band.length ∧
      (∀ e ∈ band.zip points, ∃ l, g.kindOf e.2 = some (.loop l) ∧ l.pointOf = some e.1) ∧
      g.splitBand (band ++ points) = .ok (some (band, points)) := by
  obtain ⟨hlen, -, hfresh, hheaders⟩ := tilingPlan_spec hplan
  obtain ⟨hband, htiles⟩ := mem_zip_headers hlen (tileHeaders_spec hheaders)
  have hsorts := splitLoops_sortsKept hloops
  have hpairing : band.zip points = f.pairing (band.zip headers) := by
    rw [pairing, hband, Func.points, hsorts.slots]
  have hpoint : ∀ e ∈ band.zip points, ∃ l, g.kindOf e.2 = some (.loop l) ∧ l.pointOf = some e.1 :=
    fun e he => hsorts.point_of_pairing (hpairing ▸ he)
  refine ⟨hpairing, ?_, hpoint, splitBand_append (fun t ht => ?_) fun p hp => ?_⟩
  · rw [hsorts.slots, List.length_range', ← List.length_map Prod.fst, hband]
  · have htile := ht
    rw [← hband] at htile
    obtain ⟨e, he, rfl⟩ := List.mem_map.mp htile
    obtain ⟨size, hsize⟩ := htiles e he
    obtain ⟨l, -, hk, -⟩ := tileHeader_spec hsize
    exact hsorts.tile hk (pointOf_of_isTiled (hfresh e.1 ht) hk)
  · have hmem : p ∈ (f.pairing (band.zip headers)).map Prod.snd := by
      rw [map_snd_pairing, Func.points, ← hsorts.slots]
      exact hp
    obtain ⟨e, he, rfl⟩ := List.mem_map.mp hmem
    obtain ⟨l, hk, hpoint⟩ := hsorts.point_of_pairing he
    exact ⟨l, e.1, hk, hpoint, hband ▸ Tiled.tile_mem he⟩

/-- A loop of a band that was tiled, before and after, and its point loop: all have the same
declaration. -/
theorem Tiled.pair (T : f.Tiled innermost tiles g)
    (hheaders : ∀ e ∈ tiles, ∃ l, f.kindOf e.1 = some (.loop l) ∧ e.2.parallel = l.parallel) :
    ∀ e ∈ f.pairing tiles, ∃ l, ∃ header : TileHeader,
      f.kindOf e.1 = some (.loop l) ∧ header.parallel = l.parallel ∧
      g.kindOf e.1 = some (.loop (header.tileLoop l)) ∧
      g.kindOf e.2 = some (.loop (header.pointLoop e.1)) := by
  rintro ⟨t, p⟩ he
  obtain ⟨position, header, hposition, rfl⟩ := mem_pairing.mp he
  have hmem : (t, header) ∈ tiles := List.mem_of_getElem? hposition
  obtain ⟨l, hk, hparallel⟩ := hheaders (t, header) hmem
  exact ⟨l, header, hk, hparallel, T.kindOf_tile hmem hk, T.kindOf_point hposition⟩

/-- **Tiling keeps what is parallel in a perfect nest.**  Let a band be tiled, with no subscript
that is a sum over one of its loops.  The new band then splits into the band and its point loops.
The band need not be the perfect nest that it passed for, but it is one if its innermost loop is
reached.  Then a tile loop and its point loop are parallel if the loop was, and so is every other
loop; where the question has no answer for a loop that is reached it had none, for the same
reason. -/
theorem tileBand_keeps_parallelism (audience : Audience) (f g : Func) (band newBand : Band)
    (sizes : List Nat) (hf : f.verify = .ok ()) (hplain : f.Untiled band)
    (hy : (f.tileBand band sizes).Yields audience (g, .ok newBand)) :
    ∃ points, newBand = band ++ points ∧ points.length = band.length ∧
      (∀ e ∈ band.zip points, ∃ l, g.kindOf e.2 = some (.loop l) ∧ l.pointOf = some e.1) ∧
      g.splitBand newBand = .ok (some (band, points)) ∧
      (f.PerfectNest band ↔ ∀ innermost, band.getLast? = some innermost → f.Reaches innermost) ∧
      (f.PerfectNest band →
        (∀ e ∈ band.zip points,
          g.isParallel e.1 = f.isParallel e.1 ∧ g.isParallel e.2 = f.isParallel e.1) ∧
        ∀ m, f.IsLoop m → m ∉ band →
          (f.Reaches m → g.isParallel m = f.isParallel m) ∧
          ∀ answer, f.isParallel m = .ok answer → g.isParallel m = .ok answer) := by
  have htidy : f.Tidy := verify_eq_ok_iff_tidy.mp hf
  rcases tileBand_plan hy with
    ⟨rfl, rfl, rfl⟩ | ⟨innermost, headers, points, hlast, hplan, hloops, rfl⟩
  · refine ⟨[], rfl, rfl, fun _ he => absurd he List.not_mem_nil, rfl,
      iff_of_true (.nil g) fun _ hlast => ?_, fun _ => ⟨fun _ he => absurd he List.not_mem_nil, ?_⟩⟩
    · cases hlast
    · exact fun m _ _ => ⟨fun _ => rfl, fun _ hanswer => hanswer⟩
  obtain ⟨hpairing, hlength, hpoint, hsplit⟩ := splitBand_tiled hplan hloops
  refine ⟨points, rfl, hlength, hpoint, hsplit, ⟨fun hnest last hlast => ?_, fun hinner => ?_⟩,
    fun hnest => ?_⟩
  · exact hnest.reaches last (List.mem_of_getLast? hlast)
  · obtain ⟨-, hrefusal, -⟩ := tilingPlan_spec hplan
    have hreach := reaches_of_nestRefusal? htidy.toNested hlast (hinner innermost hlast) hrefusal
    exact (nest_of_tilingPlan htidy.toNested hreach hplan).2.1
  · obtain ⟨hband, -, htiles⟩ := nest_of_tilingPlan htidy.toNested hnest.reaches hplan
    obtain ⟨-, T, -⟩ := tiled_of_plan htidy hnest.reaches hlast hplan hloops
    have hpair := T.pair fun e he => by
      obtain ⟨size, hsize⟩ := htiles e he
      obtain ⟨l, -, hk, -, -, -, -, heq⟩ := tileHeader_spec hsize
      exact ⟨l, hk, by rw [heq]⟩
    rw [hpairing]
    refine ⟨fun e he => ?_, fun m hloop hout => ?_⟩
    · obtain ⟨l, h, hk, hparallel, htile, hpoint⟩ := hpair e he
      exact ⟨T.isParallel_old (hnest.reaches e.1 (hband ▸ Tiled.tile_mem he)) hk htile rfl,
        T.isParallel_point (hband.symm ▸ hplain) he hk hpoint hparallel⟩
    · obtain ⟨l, hk⟩ := hloop
      rw [← hband] at hout
      have hreached : f.Reaches m → g.isParallel m = f.isParallel m := fun hm =>
        T.isParallel_old hm hk (T.kindOf_other hout hk) rfl
      refine ⟨hreached, fun answer hanswer => ?_⟩
      by_cases hm : f.Reaches m
      · rw [hreached hm, hanswer]
      · exact T.isParallel_stray hm hk hanswer

/-- A compute for each row, and one in a loop of its own for each element of the row. -/
def scaledRows : Func where
  name := "f"
  arguments := [0, 1]
  body := [0]
  ops := #[
    { id := 0, kind := .node "n", parent := none, body := [1, 2], erased := false },
    { id := 1, kind := .view 0 2, parent := some 0, body := [], erased := false },
    { id := 2, kind := .loop (.plain "i" 0 (some 8) 2), parent := some 0, body := [3],
      erased := false },
    { id := 3, kind := .loop (.plain "r" 0 (some 6) 1), parent := some 2, body := [4, 5],
      erased := false },
    { id := 4, kind := .compute { name := "s", reads := [{ memref := 2, indices := [.iv 2] }],
                                  writes := [{ memref := 2, indices := [.iv 2] }], lanes := [] },
      parent := some 3, body := [], erased := false },
    { id := 5, kind := .loop (.plain "k" 0 none 1), parent := some 3, body := [6],
      erased := false },
    { id := 6, kind := .compute { name := "t", reads := [{ memref := 2, indices := [.iv 2] }],
                                  writes := [{ memref := 1, indices := [.iv 2, .iv 5] }],
                                  lanes := [] },
      parent := some 5, body := [], erased := false }]
  values := #[
    { id := 0, name := "A", shape := [8], space := 0, definition := .argument 0 },
    { id := 1, name := "B", shape := [8, 8], space := 0, definition := .argument 1 },
    { id := 2, name := "V", shape := [8], space := 0, definition := .op 1 }]

/-- The rows are parallel, their repetition is not, the elements of a row are; and so it is after
tiling the rows and the repetitions by two and three. -/
theorem tileBand_keeps_parallelism_scaledRows : scaledRows.verify = .ok () ∧
    scaledRows.Untiled [2, 3] ∧ scaledRows.PerfectNest [2, 3] ∧
    scaledRows.isParallel 2 = .ok true ∧ scaledRows.isParallel 3 = .ok false ∧
    scaledRows.isParallel 5 = .ok true ∧ ∃ g,
      (scaledRows.tileBand [2, 3] [2, 3]).Yields none (g, .ok [2, 3, 7, 8]) ∧
      (g.isParallel 2 = .ok true ∧ g.isParallel 7 = .ok true) ∧
      (g.isParallel 3 = .ok false ∧ g.isParallel 8 = .ok false) ∧ g.isParallel 5 = .ok true ∧
      g.splitBand [2, 3, 7, 8] = .ok (some ([2, 3], [7, 8])) := by
  have hf : scaledRows.verify = .ok () := by decide
  have hrows : scaledRows.isParallel 2 = .ok true := by decide
  have hrepeats : scaledRows.isParallel 3 = .ok false := by decide
  have helements : scaledRows.isParallel 5 = .ok true := by decide
  have h₃ : scaledRows.Reaches 3 :=
    .nested (.nested (.top List.mem_cons_self) (show 2 ∈ scaledRows.bodyOf 0 by decide))
      List.mem_cons_self
  have hplain : scaledRows.Untiled [2, 3] := untiled_of_all (by decide)
  obtain ⟨g, hy⟩ : ∃ g, (scaledRows.tileBand [2, 3] [2, 3]).Yields none (g, .ok [2, 3, 7, 8]) :=
    Traced.exists_yields rfl
  obtain ⟨points, hpoints, -, -, hsplit, hnest, hkeeps⟩ :=
    tileBand_keeps_parallelism none scaledRows g [2, 3] [2, 3, 7, 8] [2, 3] hf hplain hy
  have hnest : scaledRows.PerfectNest [2, 3] := hnest.mpr fun innermost hlast => by
    cases hlast
    exact h₃
  obtain ⟨hband, hothers⟩ := hkeeps hnest
  obtain rfl : [7, 8] = points := List.append_cancel_left (show [2, 3] ++ [7, 8] = _ from hpoints)
  obtain ⟨htile, hpoint⟩ := hband (2, 7) List.mem_cons_self
  obtain ⟨htile', hpoint'⟩ := hband (3, 8) (List.mem_cons_of_mem _ List.mem_cons_self)
  rw [hrows] at htile hpoint
  rw [hrepeats] at htile' hpoint'
  exact ⟨hf, hplain, hnest, hrows, hrepeats, helements, g, hy, ⟨htile, hpoint⟩, ⟨htile', hpoint'⟩,
    (hothers 5 ⟨_, rfl⟩ (by decide)).2 true helements, hsplit⟩

/-- A loop around a store, and a second loop that names the first one as its parent but stands in no
block. -/
def strayInner : Func where
  name := "f"
  arguments := [0]
  body := [0]
  ops := #[
    { id := 0, kind := .node "n", parent := none, body := [1], erased := false },
    { id := 1, kind := .loop (.plain "i" 0 (some 4) 1), parent := some 0, body := [2],
      erased := false },
    { id := 2, kind := .compute { name := "s", reads := [],
                                  writes := [{ memref := 0, indices := [.const 0] }], lanes := [] },
      parent := some 1, body := [], erased := false },
    { id := 3, kind := .loop (.plain "j" 0 (some 4) 1), parent := some 1, body := [],
      erased := false }]
  values := #[{ id := 0, name := "A", shape := [4], space := 0, definition := .argument 0 }]

/-- **Parallelism is invented in a band that only passes for a perfect nest.**  The two loops are
tiled as a band, although the second is not in the first.  The first is not parallel, its point loop
around nothing is. -/
theorem tileBand_invents_parallelism_strayInner : strayInner.verify = .ok () ∧
    strayInner.Untiled [1, 3] ∧ strayInner.isParallel 1 = .ok false ∧ ∃ g,
      (strayInner.tileBand [1, 3] [2, 2]).Yields none (g, .ok [1, 3, 4, 5]) ∧
      (∃ l, g.kindOf 4 = some (.loop l) ∧ l.pointOf = some 1) ∧ g.isParallel 4 = .ok true := by
  obtain ⟨⟨g, outcome⟩, hy, hrun⟩ := @Traced.exists_yields_and _ none
    (strayInner.tileBand [1, 3] [2, 2])
    (fun r => decide (r.2.toOption = some [1, 3, 4, 5] ∧
      r.1.ops[4]?.map sortOf = some (some (some 1)) ∧ (r.1.isParallel 4).toOption = some true))
    (by decide +kernel)
  obtain ⟨houtcome, hpoint, hparallel⟩ := of_decide_eq_true hrun
  cases outcome with
  | error reason => cases houtcome
  | ok newBand =>
    cases houtcome
    refine ⟨by decide, untiled_of_all (by decide), by decide, g, hy, map_sortOf_eq.mp hpoint, ?_⟩
    cases hanswer : g.isParallel 4 with
    | error fault =>
      rw [hanswer] at hparallel
      cases hparallel
    | ok answer =>
      rw [hanswer] at hparallel
      cases hparallel
      rfl

end Func
end Dataflow
