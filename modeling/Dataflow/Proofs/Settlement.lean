/-
# Agreed factors are shares

A node that has its turn takes a share of what it aims at, and carries it over to the correlated
nodes that have no factors yet.  Those are only a start: the node they were carried over to shares
out from there when its own turn comes.  So in the end every agreed list of factors is a share of
what its node aims at (`Func.agree_isShare`), if nothing is carried over to a node that had its
turn, and nothing that does not fit.

That is so of the correlations found in a function (`Func.correlations_passable`): both ends list
them, and their maps have one place for each loop of the two bands.
-/
import Dataflow.Proofs.Correlations

namespace Dataflow

theorem OpMap.has_eq_isSome {α : Type} (m : OpMap α) (id : OpId) :
    m.has id = (m.get? id).isSome := by
  rw [has, get?, Option.isSome_map, Bool.eq_iff_iff, List.find?_isSome, List.any_eq_true]

/-- What a node aims at is never nothing, if no budget is and the bound is not. -/
theorem Config.target_pos {config : Config} (hmax : config.maxUnroll ≠ 0) {budgets : Budgets}
    (hpos : ∀ e ∈ budgets, 0 < e.2) (node : OpId) : 0 < config.target budgets node := by
  unfold target
  split
  · rename_i budget hget
    split
    · exact hpos _ (OpMap.mem_of_get? hget)
    · exact Nat.pos_of_ne_zero hmax
  · exact Nat.pos_of_ne_zero hmax

/-- Nodes with correlations. -/
def pending (m : Correlations) : List OpId := (m.filter fun e => !e.2.isEmpty).map Prod.fst

theorem mem_pending {m : Correlations} {node : OpId} :
    node ∈ pending m ↔ ∃ links, (node, links) ∈ m ∧ links ≠ [] := by
  simp [pending]

theorem mem_pending_cons {m : Correlations} {node k : OpId} {links : List Correlation} :
    k ∈ pending ((node, links) :: m) ↔ (k = node ∧ links ≠ []) ∨ k ∈ pending m := by
  simp only [mem_pending, List.mem_cons, Prod.mk.injEq]
  constructor
  · rintro ⟨cs, ⟨rfl, rfl⟩ | hmem, hne⟩
    · exact .inl ⟨rfl, hne⟩
    · exact .inr ⟨cs, hmem, hne⟩
  · rintro (⟨rfl, hne⟩ | ⟨cs, hmem, hne⟩)
    · exact ⟨links, .inl ⟨rfl, rfl⟩, hne⟩
    · exact ⟨cs, .inr hmem, hne⟩

theorem pending_subset_keys {m : Correlations} {node : OpId} (h : node ∈ pending m) :
    node ∈ m.map Prod.fst := by
  obtain ⟨links, hmem, -⟩ := mem_pending.mp h
  exact List.mem_map_of_mem hmem

namespace Func

variable {f : Func} {audience : Audience} {budgets : Budgets} {config : Config}

/-! ## 1. Nodes one after another -/

/-- The primary band of the node has `n` loops. -/
def Deep (f : Func) (node : OpId) (n : Nat) : Prop :=
  ∀ band, f.primaryBand node = .ok band → band.length = n

/-- The factors are a share of what the node aims at, over the trip counts of its primary band. -/
def IsShare (f : Func) (budgets : Budgets) (config : Config) (node : OpId) (factors : List Nat) :
    Prop :=
  ∃ base band, f.primaryBand node = .ok band ∧ factors = f.share budgets config node base band

/-- Correlations that can be followed: what is carried over goes to a node with correlations, and
has one factor for each loop of its band. -/
def Passable (f : Func) (m : Correlations) : Prop :=
  ∀ e ∈ m, ∀ c ∈ e.2, c.other e.1 ∈ pending m ∧
    ∀ chosen, f.Deep (c.other e.1) (c.carry e.1 chosen).length

/-- A node that is not skipped has nothing to complain about. -/
theorem agreeOnNode_diagnostics {node : OpId} {cs : List Correlation} {state state' : Agreement}
    (hfits : ∀ carried, state.factors.get? node = some carried → f.Deep node carried.length)
    (hy : (f.agreeOnNode budgets config node cs state).Yields audience state') :
    state'.diagnostics = state.diagnostics := by
  obtain ⟨band, hband, hy⟩ := Traced.yields_bind.mp hy
  rw [Traced.yields_lift] at hband
  obtain ⟨shape, -, hy⟩ := Traced.yields_bind.mp hy
  have hchosen : ∀ {target base}, (f.chooseFactors node target base shape cs state).Yields audience
      state' → state'.diagnostics = state.diagnostics := by
    intro target base hy
    obtain ⟨_, -, hy⟩ := Traced.yields_bind.mp hy
    obtain ⟨_, -, hy⟩ := Traced.yields_bind.mp hy
    cases Traced.yields_pure.mp hy
    rfl
  split at hy
  · exact hchosen hy
  · rename_i carried hsome
    rw [if_pos (hfits carried hsome band hband).symm] at hy
    exact hchosen hy

/-- The factors while nodes still wait for their turn: the nodes in `rest`.  Of them some have what
was carried over; all others have a share, and each of them has one. -/
structure Underway (f : Func) (budgets : Budgets) (config : Config) (links rest : Correlations)
    (factors : OpMap (List Nat)) : Prop where
  shares : ∀ node chosen, factors.get? node = some chosen → node ∉ pending rest →
    f.IsShare budgets config node chosen
  fits : ∀ node carried, factors.get? node = some carried → node ∈ pending rest →
    f.Deep node carried.length
  served : ∀ node ∈ pending links, node ∈ pending rest ∨ (factors.get? node).isSome

namespace Underway

variable {links rest : Correlations} {factors factors' : OpMap (List Nat)}

/-- Something that fits is carried over to a node that waits. -/
theorem put_carried (h : f.Underway budgets config links rest factors) {node : OpId}
    {carried : List Nat} (hnode : node ∈ pending rest) (hfits : f.Deep node carried.length) :
    f.Underway budgets config links rest (factors.put node carried) where
  shares := fun k chosen hk hnot => by
    have hne : k ≠ node := fun heq => hnot (heq ▸ hnode)
    rw [OpMap.get?_put, if_neg hne] at hk
    exact h.shares k chosen hk hnot
  fits := fun k chosen hk hmem => by
    rw [OpMap.get?_put] at hk
    split at hk
    · rename_i heq
      cases hk
      exact heq ▸ hfits
    · exact h.fits k chosen hk hmem
  served := fun k hk => (h.served k hk).imp_right fun hsome => by
    rw [OpMap.get?_put]
    split
    · rfl
    · exact hsome

/-- A node has its turn and takes a share. -/
theorem put_share {node : OpId} {cs : List Correlation}
    (h : f.Underway budgets config links ((node, cs) :: rest) factors)
    (hfresh : node ∉ rest.map Prod.fst) {chosen : List Nat}
    (hshare : f.IsShare budgets config node chosen) :
    f.Underway budgets config links rest (factors.put node chosen) where
  shares := fun k chosen' hk hnot => by
    rw [OpMap.get?_put] at hk
    split at hk
    · rename_i heq
      cases hk
      exact heq ▸ hshare
    · rename_i hne
      refine h.shares k chosen' hk fun hmem => ?_
      rcases mem_pending_cons.mp hmem with ⟨heq, -⟩ | hmem
      · exact hne heq
      · exact hnot hmem
  fits := fun k carried hk hmem => by
    have hne : k ≠ node := fun heq => hfresh (heq ▸ pending_subset_keys hmem)
    rw [OpMap.get?_put, if_neg hne] at hk
    exact h.fits k carried hk (mem_pending_cons.mpr (.inr hmem))
  served := fun k hk => by
    rw [OpMap.get?_put]
    split
    · exact .inr rfl
    · rename_i hne
      refine (h.served k hk).imp_left fun hmem => ?_
      exact (mem_pending_cons.mp hmem).resolve_left fun ⟨heq, _⟩ => hne heq

/-- Carrying over reaches nodes that wait, for the others have factors already. -/
theorem carryOver (h : f.Underway budgets config links rest factors) {node : OpId}
    {chosen : List Nat} {cs : List Correlation}
    (hcs : ∀ c ∈ cs, c.other node ∈ pending links ∧
      f.Deep (c.other node) (c.carry node chosen).length)
    (hy : (f.carryOver node chosen cs factors).Yields audience factors') :
    f.Underway budgets config links rest factors' := by
  refine carryOver_preserves (fun c hc factors hnone h => ?_) h hy
  obtain ⟨hother, hfits⟩ := hcs c hc
  -- A correlated node without factors has not been served, so it still waits.
  rw [OpMap.has_eq_isSome] at hnone
  refine h.put_carried ((h.served _ hother).resolve_right fun hsome => ?_) hfits
  rw [hnone] at hsome
  cases hsome

/-- What was carried over fits the band of the node whose turn it is. -/
theorem fits_next {node : OpId} {cs : List Correlation}
    (h : f.Underway budgets config links ((node, cs) :: rest) factors) (hne : cs ≠ [])
    {carried : List Nat} (hget : factors.get? node = some carried) :
    f.Deep node carried.length :=
  h.fits node carried hget (mem_pending_cons.mpr (.inl ⟨rfl, hne⟩))

/-- **One turn.**  What was carried over fits, so nothing is taken away. -/
theorem agreeOnNode {node : OpId} {cs : List Correlation} {state state' : Agreement}
    (h : f.Underway budgets config links ((node, cs) :: rest) state.factors) (hne : cs ≠ [])
    (hfresh : node ∉ rest.map Prod.fst)
    (hcs : ∀ c ∈ cs, c.other node ∈ pending links ∧
      ∀ chosen, f.Deep (c.other node) (c.carry node chosen).length)
    (hy : (f.agreeOnNode budgets config node cs state).Yields audience state') :
    f.Underway budgets config links rest state'.factors
      ∧ state'.diagnostics = state.diagnostics := by
  refine ⟨?_, agreeOnNode_diagnostics (fun carried hget => h.fits_next hne hget) hy⟩
  obtain ⟨band, hband, ⟨carried, hget, hlen, -⟩ | ⟨base, -, -, hcarry⟩⟩ := agreeOnNode_yields hy
  · exact absurd (h.fits_next hne hget band hband).symm hlen
  · exact (h.put_share hfresh ⟨base, band, hband, rfl⟩).carryOver
      (fun c hc => ⟨(hcs c hc).1, (hcs c hc).2 _⟩) hcarry

end Underway

/-- **All turns.** -/
theorem agreeOnNodes_underway {links : Correlations} (hpass : f.Passable links) :
    ∀ {rest : Correlations} {state state' : Agreement}, (∀ e ∈ rest, e ∈ links) →
      (rest.map Prod.fst).Nodup → f.Underway budgets config links rest state.factors →
      (f.agreeOnNodes budgets config rest state).Yields audience state' →
      f.Underway budgets config links [] state'.factors ∧ state'.diagnostics = state.diagnostics
  | [], _, _, _, _, h, hy => by
    cases Traced.yields_pure.mp hy
    exact ⟨h, rfl⟩
  | (node, cs) :: rest, state, state', hsub, hnd, h, hy => by
    obtain ⟨hmem, hsub⟩ := List.forall_mem_cons.mp hsub
    obtain ⟨hfresh, hnd⟩ := List.nodup_cons.mp hnd
    rw [agreeOnNodes] at hy
    split at hy
    · rename_i hnil
      refine agreeOnNodes_underway hpass hsub hnd ?_ hy
      -- A node without correlations is not waited for.
      have hsame : ∀ k, k ∈ pending ((node, cs) :: rest) ↔ k ∈ pending rest := fun k => by
        rw [mem_pending_cons, List.isEmpty_iff.mp hnil]
        simp
      exact
        { shares := fun k chosen hk hnot => h.shares k chosen hk (mt (hsame k).mp hnot)
          fits := fun k carried hk hmem => h.fits k carried hk ((hsame k).mpr hmem)
          served := fun k hk => (h.served k hk).imp_left (hsame k).mp }
    · rename_i hne
      obtain ⟨state₁, hstate, hy⟩ := Traced.yields_bind.mp hy
      obtain ⟨hturn, hquiet⟩ :=
        h.agreeOnNode (fun hnil => hne (List.isEmpty_iff.mpr hnil)) hfresh (hpass _ hmem) hstate
      obtain ⟨hend, hquiet'⟩ := agreeOnNodes_underway hpass hsub hnd hturn hy
      exact ⟨hend, hquiet'.trans hquiet⟩

/-- **When all nodes had their turn**, if the correlations can be followed, no node waits and none
was skipped. -/
theorem agree_underway {links : Correlations} (hpass : f.Passable links)
    (hnd : (links.map Prod.fst).Nodup) {agreement : Agreement}
    (hy : (f.agree budgets links config).Yields audience agreement) :
    f.Underway budgets config links [] agreement.factors ∧ agreement.diagnostics = [] := by
  have hperm := links.ranked_perm
  have hpending : ∀ k ∈ pending links, k ∈ pending links.ranked := fun k hk => by
    obtain ⟨cs, hmem, hne⟩ := mem_pending.mp hk
    exact mem_pending.mpr ⟨cs, hperm.mem_iff.mpr hmem, hne⟩
  have hstart : f.Underway budgets config links links.ranked [] :=
    { shares := fun k chosen hk => by cases hk
      fits := fun k carried hk => by cases hk
      served := fun k hk => .inl (hpending k hk) }
  exact agreeOnNodes_underway hpass (fun e he => hperm.mem_iff.mp he)
    ((hperm.map Prod.fst).nodup_iff.mpr hnd) hstart hy

/-- **Agreed factors are shares**, if the correlations can be followed. -/
theorem agree_isShare {links : Correlations} (hpass : f.Passable links)
    (hnd : (links.map Prod.fst).Nodup) {agreement : Agreement}
    (hy : (f.agree budgets links config).Yields audience agreement) {node : OpId}
    {factors : List Nat} (hget : agreement.factors.get? node = some factors) :
    f.IsShare budgets config node factors :=
  (agree_underway hpass hnd hy).1.shares node factors hget List.not_mem_nil

end Func

/-! ## 2. Correlations of a function -/

namespace Correlation

/-- A factor goes to its place, if it has one. -/
def place (acc : List Nat) : Option Nat × Nat → List Nat
  | (some j, factor) => acc.set j factor
  | (none, _) => acc

theorem carry_eq (c : Correlation) (node : OpId) (factors : List Nat) : c.carry node factors =
    ((c.mapFrom node).zip factors).foldl place (List.replicate (c.loopsOpposite node) 1) := by
  unfold carry
  congr 1
  funext acc p
  obtain ⟨_ | j, factor⟩ := p <;> rfl

theorem length_foldl_place (ps : List (Option Nat × Nat)) (acc : List Nat) :
    (ps.foldl place acc).length = acc.length := by
  induction ps generalizing acc with
  | nil => rfl
  | cons p ps ih =>
    obtain ⟨_ | j, factor⟩ := p <;> simp [place, ih]

@[simp] theorem length_carry (c : Correlation) (node : OpId) (factors : List Nat) :
    (c.carry node factors).length = c.loopsOpposite node := by
  rw [carry_eq, length_foldl_place, List.length_replicate]

end Correlation

namespace BandAccesses

theorem length_matchThrough (a b : BandAccesses) (forward : List (Option Nat))
    (pair : Access × Access) : (matchThrough a b forward pair).length = forward.length := by
  unfold matchThrough
  induction a.band.zipIdx generalizing forward with
  | nil => rfl
  | cons e es ih =>
    obtain ⟨l, i⟩ := e
    rw [List.foldl_cons, ih]
    simp only
    split
    · rfl
    · split
      · rfl
      · split <;> simp

/-- The map of two bands has a place for each loop of the first. -/
theorem length_matchBands {a b : BandAccesses} {forward : List (Option Nat)}
    (h : a.matchBands b = some forward) : forward.length = a.band.length := by
  rw [matchBands, Option.ite_none_right_eq_some, Option.some.injEq] at h
  have hfold : ∀ (pairs : List (Access × Access)) (acc : List (Option Nat)),
      (pairs.foldl (matchThrough a b) acc).length = acc.length := by
    intro pairs
    induction pairs with
    | nil => exact fun _ => rfl
    | cons pair pairs ih => exact fun acc => by rw [List.foldl_cons, ih, length_matchThrough]
  rw [← h.2, hfold, List.length_replicate]

end BandAccesses

namespace Func

variable {f : Func} {audience : Audience}

/-- The map has an entry for each of the nodes `keys`, both ends of a correlation have one, and its
maps have a place for each loop of their bands. -/
structure Paired (f : Func) (keys : List OpId) (m : Correlations) : Prop where
  keys_eq : m.map Prod.fst = keys
  listed : ∀ e ∈ m, ∀ c ∈ e.2, c.first ∈ pending m ∧ c.second ∈ pending m
  places : ∀ e ∈ m, ∀ c ∈ e.2, f.Deep c.first c.forward.length ∧ f.Deep c.second c.backward.length

theorem Paired.passable {keys : List OpId} {m : Correlations} (h : f.Paired keys m) :
    f.Passable m := by
  intro e he c hc
  obtain ⟨hfirst, hsecond⟩ := h.listed e he c hc
  obtain ⟨hforward, hbackward⟩ := h.places e he c hc
  simp only [Correlation.length_carry, Correlation.other, Correlation.loopsOpposite]
  split
  · exact ⟨hsecond, fun _ => hbackward⟩
  · exact ⟨hfirst, fun _ => hforward⟩

/-- Both nodes of a correlation of the function list it. -/
theorem correlations_paired (hn : f.Nested) {m : Correlations}
    (h : f.correlations.Yields audience m) : ∃ nodes, nodes.Nodup ∧ f.Paired nodes m := by
  obtain ⟨nodes, bands, hsurvey, rfl⟩ := of_correlations hn h
  have hpending : ∀ {node c}, node ∈ nodes → c ∈ BandAccesses.linksAmong bands → c.touches node →
      node ∈ pending (Correlations.listed nodes (BandAccesses.linksAmong bands)) := by
    intro node c hnode hc htouch
    refine mem_pending.mpr ⟨_, List.mem_map_of_mem hnode, ?_⟩
    exact List.ne_nil_of_mem (List.mem_filter.mpr ⟨hc, htouch⟩)
  have hdeep : ∀ b ∈ bands, f.Deep b.node b.band.length := by
    intro b hb band hband
    cases (bandAccesses_eq_ok (hsurvey.found b hb).2).2.symm.trans hband
    rfl
  refine ⟨nodes, hsurvey.distinct, Correlations.map_fst_listed _ _, fun e he c hc => ?_,
    fun e he c hc => ?_⟩
  all_goals
    obtain ⟨node, -, rfl⟩ := List.mem_map.mp he
    obtain ⟨hc, -⟩ := List.mem_filter.mp hc
    obtain ⟨a, ha, b, hb, hlink, -, hfirst, hsecond⟩ := hsurvey.of_mem_linksAmong hc
  · exact ⟨hpending hfirst hc (by simp [Correlation.touches]),
      hpending hsecond hc (by simp [Correlation.touches])⟩
  · obtain ⟨-, forward, hforward, rfl⟩ := BandAccesses.link?_eq_some hlink
    simp only [Correlation.ofForward, BandAccesses.length_matchBands hforward, List.length_map,
      List.length_range]
    exact ⟨hdeep a ha, hdeep b hb⟩

/-- **The correlations of a function can be followed.** -/
theorem correlations_passable (hn : f.Nested) {m : Correlations}
    (h : f.correlations.Yields audience m) : f.Passable m ∧ (m.map Prod.fst).Nodup := by
  obtain ⟨nodes, hdistinct, hpaired⟩ := correlations_paired hn h
  exact ⟨hpaired.passable, hpaired.keys_eq ▸ hdistinct⟩

end Func
end Dataflow
