/-
# Factors of two matched nodes

Two nodes are correlated with each other only, and the correlation matches their loops one to one,
loops of equal trip count with each other.  The node that chooses first carries its factors over;
the other one shares out again from there.

* If valid factors can make up what the nodes aim at, the first node finds some, and the second
  keeps what was carried over: it makes up the same product already.
* If not, the second node does not keep it.  It falls back to greedy factors of its own, as the
  first did, and these are served from the innermost loop outwards, whatever the matching.

So the two nodes end up with matching factors in the first case, and in the second only if their
greedy factors happen to match.
-/
import Dataflow.Proofs.Factors
import Dataflow.Proofs.Settlement

namespace Dataflow

/-! ## 1. Carrying along a matching -/

/-- `Along matching xs ys`: place `i` of `xs` and place `matching[i]` of `ys` hold the same. -/
def Along {α : Type} (matching : List Nat) (xs ys : List α) : Prop :=
  ∀ i j : Nat, matching[i]? = some j → xs[i]? = ys[j]?

section Matching

variable {α β : Type} {matching : List Nat} {n : Nat}

theorem length_of_matching (hm : matching.Perm (List.range n)) : matching.length = n := by
  simpa using hm.length_eq

theorem exists_index (hm : matching.Perm (List.range n)) {j : Nat} (hj : j < n) :
    ∃ i : Nat, matching[i]? = some j :=
  List.mem_iff_getElem?.mp (hm.mem_iff.mpr (List.mem_range.mpr hj))

theorem lt_of_getElem? (hm : matching.Perm (List.range n)) {i j : Nat}
    (h : matching[i]? = some j) : i < n ∧ j < n := by
  have hlen := length_of_matching hm
  constructor
  · exact hlen ▸ (List.getElem?_eq_some_iff.mp h).1
  · exact List.mem_range.mp (hm.mem_iff.mp (List.mem_of_getElem? h))

theorem Along.zip {xs ys : List α} {us vs : List β} (h : Along matching xs ys)
    (h' : Along matching us vs) : Along matching (xs.zip us) (ys.zip vs) := by
  intro i j hij
  simp only [List.zip_eq_zipWith, List.getElem?_zipWith, h i j hij, h' i j hij]

/-- Lists that a matching relates are permutations of each other. -/
theorem Along.perm (hm : matching.Perm (List.range n)) {xs ys : List α} (hxs : xs.length = n)
    (hys : ys.length = n) (h : Along matching xs ys) : xs.Perm ys := by
  have hlen := length_of_matching hm
  have hread : xs.map some = matching.map (ys[·]?) := by
    refine List.ext_getElem (by simp [hxs, hlen]) fun i hi hi' => ?_
    rw [List.length_map] at hi hi'
    have hsame := h i matching[i] (List.getElem?_eq_getElem hi')
    rw [List.getElem?_eq_getElem hi] at hsame
    simpa using hsame
  have hall : ys.map some = (List.range n).map (ys[·]?) := by
    refine List.ext_getElem (by simp [hys]) fun j hj _ => ?_
    simp at hj
    simp [hj]
  rw [← List.map_perm_map_iff (Option.some_injective α), hread, hall]
  exact hm.map _

end Matching

namespace Correlation

theorem foldl_place_of_notMem {j : Nat} : ∀ {targets : List (Option Nat)} {factors acc : List Nat},
    some j ∉ targets → ((targets.zip factors).foldl place acc)[j]? = acc[j]?
  | [], _, _, _ => by simp
  | _ :: _, [], _, _ => by simp
  | target :: targets, factor :: factors, acc, h => by
    rw [List.mem_cons, not_or] at h
    rw [List.zip_cons_cons, List.foldl_cons, foldl_place_of_notMem h.2]
    cases target with
    | none => rfl
    | some i => exact List.getElem?_set_ne fun heq => h.1 (congrArg some heq.symm)

/-- No two places are sent to the same one. -/
def OneToOne (targets : List (Option Nat)) : Prop :=
  ∀ i i' j : Nat, targets[i]? = some (some j) → targets[i']? = some (some j) → i = i'

theorem OneToOne.tail {target : Option Nat} {targets : List (Option Nat)}
    (h : OneToOne (target :: targets)) : OneToOne targets := by
  intro i i' j hi hi'
  have heq := h (i + 1) (i' + 1) j (by simpa using hi) (by simpa using hi')
  omega

theorem OneToOne.notMem_tail {j : Nat} {targets : List (Option Nat)}
    (h : OneToOne (some j :: targets)) : some j ∉ targets := by
  intro hmem
  obtain ⟨i, hi⟩ := List.mem_iff_getElem?.mp hmem
  have heq := h 0 (i + 1) j rfl (by simpa using hi)
  omega

/-- Where no two factors go to the same place, each is found in its own. -/
theorem getElem?_foldl_place {j : Nat} : ∀ {targets : List (Option Nat)} {factors acc : List Nat}
    {i : Nat}, OneToOne targets → targets.length = factors.length → targets[i]? = some (some j) →
      j < acc.length → ((targets.zip factors).foldl place acc)[j]? = factors[i]?
  | [], _, _, _, _, _, hi, _ => by cases hi
  | _ :: _, [], _, _, _, hlen, _, _ => by cases hlen
  | target :: targets, factor :: factors, acc, 0, h, _, hi, hj => by
    cases hi
    rw [List.zip_cons_cons, List.foldl_cons, foldl_place_of_notMem h.notMem_tail]
    simp [place, hj]
  | target :: targets, factor :: factors, acc, i + 1, h, hlen, hi, hj => by
    rw [List.zip_cons_cons, List.foldl_cons, List.getElem?_cons_succ]
    refine getElem?_foldl_place h.tail (Nat.succ.inj hlen) hi ?_
    cases target <;> simpa [place] using hj

variable {a b : OpId} {matching : List Nat} {n : Nat}

/-- `Inverse there back`: a place is sent to another exactly if the other is sent back to it. -/
def Inverse (there back : List (Option Nat)) : Prop :=
  ∀ i j : Nat, there[i]? = some (some j) ↔ back[j]? = some (some i)

theorem Inverse.symm {there back : List (Option Nat)} (h : Inverse there back) :
    Inverse back there := fun j i => (h i j).symm

theorem Inverse.oneToOne {there back : List (Option Nat)} (h : Inverse there back) :
    OneToOne there := by
  intro i i' j hi hi'
  rw [h] at hi hi'
  exact Option.some.inj (Option.some.inj (hi.symm.trans hi'))

/-- **The way back undoes the way there**, where no two places are sent to the same one. -/
theorem inverse_ofForward {forward : List (Option Nat)} (h : OneToOne forward)
    (hrange : ∀ i j : Nat, forward[i]? = some (some j) → j < n) :
    Inverse forward (ofForward a b forward n).backward := by
  intro i j
  have hfind : forward.findIdx? (· == some j) = some i ↔ forward[i]? = some (some j) := by
    rw [List.findIdx?_eq_some_iff_getElem]
    constructor
    · rintro ⟨hi, heq, -⟩
      simpa [hi] using heq
    · intro hij
      obtain ⟨hi, hget⟩ := List.getElem?_eq_some_iff.mp hij
      refine ⟨hi, by simp [hget], fun i' hlt heq => ?_⟩
      -- An earlier place with the same target would be the same place.
      have hsame : forward[i']? = some (some j) := by
        simpa [List.getElem?_eq_some_iff, hlt.trans hi] using heq
      exact absurd (h i' i j hsame hij) (Nat.ne_of_lt hlt)
  by_cases hj : j < n
  · simp [ofForward, hj, hfind]
  · have hnone : (List.range n)[j]? = none := List.getElem?_eq_none (by simpa using hj)
    simp only [ofForward, List.getElem?_map, hnone, Option.map_none, reduceCtorEq, iff_false]
    exact fun hij => hj (hrange i j hij)

theorem oneToOne_matching (hm : matching.Perm (List.range n)) : OneToOne (matching.map some) := by
  have hnd : matching.Nodup := hm.nodup_iff.mpr List.nodup_range
  intro i i' j hi hi'
  simp only [List.getElem?_map, Option.map_eq_some_iff, Option.some.injEq, exists_eq_right]
    at hi hi'
  obtain ⟨hlt, -⟩ := List.getElem?_eq_some_iff.mp hi
  exact (List.getElem?_inj hlt hnd).mp (hi.trans hi'.symm)

theorem inverse_matching (hm : matching.Perm (List.range n)) :
    Inverse (matching.map some) (ofForward a b (matching.map some) n).backward :=
  inverse_ofForward (oneToOne_matching hm) fun i j hij =>
    (lt_of_getElem? hm (by simpa using hij)).2

theorem loopsOpposite_first : (ofForward a b (matching.map some) n).loopsOpposite a = n := by
  simp [loopsOpposite, ofForward]

theorem loopsOpposite_second (hab : a ≠ b) (hm : matching.Perm (List.range n)) :
    (ofForward a b (matching.map some) n).loopsOpposite b = n := by
  simp [loopsOpposite, ofForward, hab.symm, length_of_matching hm]

/-- **What a matching carries over is what it relates to the factors**, from the first node... -/
theorem along_iff_carry_first (hm : matching.Perm (List.range n)) {xs ys : List Nat}
    (hxs : xs.length = n) (hys : ys.length = n) :
    Along matching xs ys ↔ ys = (ofForward a b (matching.map some) n).carry a xs := by
  have hlen := length_of_matching hm
  have hcarry : Along matching xs ((ofForward a b (matching.map some) n).carry a xs) := by
    intro i j hij
    rw [carry_eq]
    refine (getElem?_foldl_place ?_ ?_ ?_ ?_).symm
    · simpa [mapFrom, ofForward] using oneToOne_matching hm
    · simp [mapFrom, ofForward, hlen, hxs]
    · simp [mapFrom, ofForward, hij]
    · simpa [loopsOpposite_first] using (lt_of_getElem? hm hij).2
  constructor
  · intro h
    refine List.ext_getElem? fun j => ?_
    by_cases hj : j < n
    · obtain ⟨i, hi⟩ := exists_index hm hj
      rw [← h i j hi, hcarry i j hi]
    · rw [List.getElem?_eq_none (by omega), List.getElem?_eq_none]
      simpa [loopsOpposite_first] using hj
  · rintro rfl
    exact hcarry

/-- ...and from the second. -/
theorem along_iff_carry_second (hab : a ≠ b) (hm : matching.Perm (List.range n)) {xs ys : List Nat}
    (hxs : xs.length = n) (hys : ys.length = n) :
    Along matching xs ys ↔ xs = (ofForward a b (matching.map some) n).carry b ys := by
  have hlen := length_of_matching hm
  have hba : ¬ b = (ofForward a b (matching.map some) n).first := fun heq => hab heq.symm
  have hcarry : Along matching ((ofForward a b (matching.map some) n).carry b ys) ys := by
    intro i j hij
    rw [carry_eq, mapFrom, if_neg hba]
    have hback := inverse_matching (a := a) (b := b) hm
    refine getElem?_foldl_place hback.symm.oneToOne ?_ ((hback i j).mp (by simp [hij])) ?_
    · simp [ofForward, hys]
    · simpa [loopsOpposite_second hab hm] using (lt_of_getElem? hm hij).1
  constructor
  · intro h
    refine List.ext_getElem? fun i => ?_
    by_cases hi : i < n
    · have hget : matching[i]? = some matching[i] := List.getElem?_eq_getElem (hlen ▸ hi)
      rw [h i _ hget, hcarry i _ hget]
    · rw [List.getElem?_eq_none (by omega), List.getElem?_eq_none]
      simpa [loopsOpposite_second hab hm] using hi
  · rintro rfl
    exact hcarry

end Correlation

/-! ## 2. Sharing out again -/

section Sharing

variable {goal : Nat} {shape shape' : List (Option Nat)} {seed : List Nat}

theorem HasShare.perm (hperm : shape.Perm shape') (h : HasShare goal shape) :
    HasShare goal shape' := by
  obtain ⟨factors, hvalid, hprod⟩ := h
  obtain ⟨factors', hvalid', hperm'⟩ := List.perm_comp_forall₂ hperm.symm hvalid
  exact ⟨factors', hvalid', hperm'.prod_eq.trans hprod⟩

theorem Shares.growAll_of_le {s : Shares} (h : goal ≤ s.product) :
    ∀ steps, Shares.growAll goal steps s = s
  | 0 => rfl
  | steps + 1 => by rw [Shares.growAll, if_pos h]

/-- Factors that make the goal already are kept. -/
theorem shareFactor_of_prod_eq (hgoal : goal ≠ 0) (hword : goal ≤ wordMax)
    (hlen : seed.length = shape.length) (hpos : ∀ n ∈ seed, 0 < n) (hprod : seed.prod = goal) :
    shareFactor goal seed shape = seed := by
  have hbase : raisedBase seed = seed := raisedBase_of_pos hpos
  have hproduct : Shares.product (seed.zip shape) = goal := by
    rw [Shares.product_eq, List.map_fst_zip hlen.le, hprod]
  have hgrown : grown goal seed shape = seed.zip shape := by
    rw [grown, hbase, Shares.growAll_of_le hproduct.ge]
  refine shareFactor_of_some (evenFactors_eq_some_iff.mpr ⟨hgoal, hlen, ?_, ?_, ?_, ?_⟩)
  · rw [hbase, hprod]
  · rw [hbase]
    exact product?_of_le hpos (hprod ▸ hword)
  · rw [hgrown, hproduct]
  · rw [hgrown, List.map_fst_zip hlen.le]

/-- Without a share of the goal, sharing is greedy from any valid base. -/
theorem shareFactor_of_not_hasShare (hnone : ¬ HasShare goal shape)
    (hvalid : List.Forall₂ ValidFactor shape seed) :
    shareFactor goal seed shape = greedyFactors goal shape := by
  cases heven : evenFactors goal seed shape with
  | none => exact shareFactor_of_none heven
  | some factors =>
    have hbase : raisedBase seed = seed := raisedBase_of_pos (pos_of_valid hvalid)
    exact absurd ⟨factors, evenFactors_valid (hbase.symm ▸ hvalid) heven, prod_evenFactors heven⟩
      hnone

theorem ones_valid (shape : List (Option Nat)) :
    List.Forall₂ ValidFactor shape (List.replicate shape.length 1) := by
  have hones := raisedBase_ones shape
  rwa [raisedBase_of_pos fun n hn => List.eq_of_mem_replicate hn ▸ Nat.one_pos] at hones

theorem HasShare.goal_ne_zero (h : HasShare goal shape) : goal ≠ 0 := by
  obtain ⟨factors, hvalid, rfl⟩ := h
  exact (List.prod_pos (pos_of_valid hvalid)).ne'

theorem prod_shareFactor_ones (h : HasShare goal shape) :
    (shareFactor goal (List.replicate shape.length 1) shape).prod = goal := by
  have hprod : (raisedBase (List.replicate shape.length 1)).prod = 1 := by simp [raisedBase]
  obtain ⟨factors, heven⟩ := (exists_evenFactors_iff h.goal_ne_zero (raisedBase_ones shape)
    (by rw [hprod]; exact Nat.one_dvd goal) (by rw [hprod]; decide)).mpr h
  rw [shareFactor_of_some heven, prod_evenFactors heven]

/-- **Sharing out again from factors that were carried over**, over loops of the same trip counts:
if the goal can be made up, they are kept, and else both shares are greedy. -/
theorem shareFactor_again {n : Nat} (hword : goal ≤ wordMax) (hn : shape.length = n)
    (hlen : seed.length = shape'.length)
    (hperm : ((shareFactor goal (List.replicate n 1) shape).zip shape).Perm (seed.zip shape')) :
    (HasShare goal shape ∧ shareFactor goal seed shape' = seed) ∨
      (¬ HasShare goal shape ∧
        shareFactor goal (List.replicate n 1) shape = greedyFactors goal shape ∧
        shareFactor goal seed shape' = greedyFactors goal shape') := by
  subst hn
  have hfirst : (shareFactor goal (List.replicate shape.length 1) shape).length = shape.length :=
    length_shareFactor _ _ _
  have hseed : (shareFactor goal (List.replicate shape.length 1) shape).Perm seed := by
    have hmap := hperm.map Prod.fst
    rwa [List.map_fst_zip hfirst.le, List.map_fst_zip hlen.le] at hmap
  have hshapes : shape.Perm shape' := by
    have hmap := hperm.map Prod.snd
    rwa [List.map_snd_zip hfirst.ge, List.map_snd_zip hlen.ge] at hmap
  have hvalid : List.Forall₂ ValidFactor shape' seed := by
    have hold : List.Forall₂ ValidFactor shape
        (shareFactor goal (List.replicate shape.length 1) shape) :=
      shareFactor_valid (raisedBase_ones shape)
    refine List.Forall₂.flip (List.forall₂_iff_zip.mpr ⟨hlen, fun {n trip} hmem => ?_⟩)
    exact valid_zip hold (n, trip) (hperm.mem_iff.mpr hmem)
  -- The seed is the first share in another order: its product is the goal if there is a share.
  by_cases hshare : HasShare goal shape
  · refine .inl ⟨hshare, shareFactor_of_prod_eq hshare.goal_ne_zero hword hlen
      (pos_of_valid hvalid) ?_⟩
    rw [← hseed.prod_eq, prod_shareFactor_ones hshare]
  · refine .inr ⟨hshare, shareFactor_of_not_hasShare hshare (ones_valid shape), ?_⟩
    exact shareFactor_of_not_hasShare (fun h => hshare (h.perm hshapes.symm)) hvalid

end Sharing

namespace Func

variable {f : Func} {audience : Audience} {budgets : Budgets} {config : Config}

/-! ## 3. Two nodes among others -/

/-- The entry is of another node than `k`, and no correlation of it leads there. -/
def Apart (k : OpId) (e : OpId × List Correlation) : Prop :=
  e.1 ≠ k ∧ ∀ d ∈ e.2, d.other e.1 ≠ k

/-- A node apart leaves the factors of `k` as they are. -/
theorem agreeOnNode_get? {k node : OpId} {links : List Correlation} (hapart : Apart k (node, links))
    {state state' : Agreement}
    (hy : (f.agreeOnNode budgets config node links state).Yields audience state') :
    state'.factors.get? k = state.factors.get? k := by
  have hne : k ≠ node := fun heq => hapart.1 heq.symm
  obtain ⟨band, -, ⟨_, -, -, hremove⟩ | ⟨base, -, -, hcarry⟩⟩ := agreeOnNode_yields hy
  · rw [hremove, OpMap.get?_remove, if_neg hne]
  · refine carryOver_preserves
      (I := fun factors => OpMap.get? factors k = state.factors.get? k)
      (fun c hc factors _ hI => ?_) ?_ hcarry
    · have hother : k ≠ c.other node := fun heq => hapart.2 c hc heq.symm
      rw [OpMap.get?_put, if_neg hother, hI]
    · rw [OpMap.get?_put, if_neg hne]

theorem agreeOnNodes_get? {k : OpId} : ∀ {entries : List (OpId × List Correlation)}
    {state state' : Agreement}, (∀ e ∈ entries, Apart k e) →
      (f.agreeOnNodes budgets config entries state).Yields audience state' →
      state'.factors.get? k = state.factors.get? k
  | [], _, _, _, hy => by
    cases Traced.yields_pure.mp hy
    rfl
  | (node, links) :: entries, state, state', hapart, hy => by
    obtain ⟨hhere, hapart⟩ := List.forall_mem_cons.mp hapart
    rw [agreeOnNodes] at hy
    split at hy
    · exact agreeOnNodes_get? hapart hy
    · obtain ⟨state₁, hstate, hy⟩ := Traced.yields_bind.mp hy
      rw [agreeOnNodes_get? hapart hy, agreeOnNode_get? hhere hstate]

theorem agreeOnNodes_append {after : List (OpId × List Correlation)} :
    ∀ {before : List (OpId × List Correlation)} {state state' : Agreement},
      (f.agreeOnNodes budgets config (before ++ after) state).Yields audience state' →
      ∃ state₁, (f.agreeOnNodes budgets config before state).Yields audience state₁ ∧
        (f.agreeOnNodes budgets config after state₁).Yields audience state'
  | [], state, state', hy => ⟨state, Traced.yields_pure.mpr rfl, hy⟩
  | (node, links) :: before, state, state', hy => by
    rw [List.cons_append, agreeOnNodes] at hy
    simp only [agreeOnNodes]
    split at hy
    · rename_i hnone
      simp only [if_pos hnone]
      exact agreeOnNodes_append hy
    · rename_i hsome
      simp only [if_neg hsome]
      obtain ⟨state₁, hstate, hy⟩ := Traced.yields_bind.mp hy
      obtain ⟨state₂, hbefore, hafter⟩ := agreeOnNodes_append hy
      exact ⟨state₂, Traced.yields_bind.mpr ⟨state₁, hstate, hbefore⟩, hafter⟩

/-- **The turn of a node with one correlation**, when what was carried over to it fits. -/
theorem agreeOnNodes_single {node : OpId} {c : Correlation} (hne : c.other node ≠ node)
    {band : Band} (hband : f.primaryBand node = .ok band) {state state' : Agreement}
    (hfits : ∀ carried, state.factors.get? node = some carried → carried.length = band.length)
    {after : List (OpId × List Correlation)}
    (hy : (f.agreeOnNodes budgets config ((node, [c]) :: after) state).Yields audience state') :
    ∃ state₁ chosen, chosen = f.share budgets config node
        ((state.factors.get? node).getD (List.replicate band.length 1)) band ∧
      state₁.factors.get? node = some chosen ∧
      state₁.factors.get? (c.other node) =
        (state.factors.get? (c.other node)).or (some (c.carry node chosen)) ∧
      (f.agreeOnNodes budgets config after state₁).Yields audience state' := by
  rw [agreeOnNodes] at hy
  obtain ⟨state₁, hstate, hy⟩ := Traced.yields_bind.mp hy
  obtain ⟨band', hband', ⟨carried, hget, hlen, -⟩ | ⟨base, rfl, -, hcarry⟩⟩ :=
    agreeOnNode_yields hstate
  all_goals
    rw [hband] at hband'
    cases hband'
  · exact absurd (hfits carried hget) hlen
  · refine ⟨state₁, _, rfl, ?_⟩
    rw [carryOver] at hcarry
    split at hcarry
    · rename_i hhas
      have hfactors := Traced.yields_pure.mp hcarry
      rw [OpMap.has_eq_isSome, OpMap.get?_put, if_neg hne] at hhas
      obtain ⟨old, hold⟩ := Option.isSome_iff_exists.mp hhas
      simp [← hfactors, OpMap.get?_put, hne, hold, hy]
    · rename_i hhas
      obtain ⟨_, -, hcarry⟩ := Traced.yields_bind.mp hcarry
      rw [carryOver] at hcarry
      have hfactors := Traced.yields_pure.mp hcarry
      rw [OpMap.has_eq_isSome, OpMap.get?_put, if_neg hne, Option.not_isSome_iff_eq_none] at hhas
      simp [← hfactors, OpMap.get?_put, hne.symm, hhas, hy]

/-- **Two nodes that are correlated with each other only.**  The first of them starts from ones, the
second from what was carried over. -/
theorem agreeOnNodes_pair {p q : OpId} {c : Correlation} (hpq : c.other p = q) (hqp : c.other q = p)
    (hne : p ≠ q) {bandP bandQ : Band} (hbandP : f.primaryBand p = .ok bandP)
    (hbandQ : f.primaryBand q = .ok bandQ) (hloops : c.loopsOpposite p = bandQ.length)
    {before between after : List (OpId × List Correlation)}
    (hp : ∀ e ∈ before ++ between ++ after, Apart p e)
    (hq : ∀ e ∈ before ++ between ++ after, Apart q e) {agreement : Agreement}
    (hy : (f.agreeOnNodes budgets config (before ++ (p, [c]) :: (between ++ (q, [c]) :: after))
      {}).Yields audience agreement) :
    ∃ first, first = f.share budgets config p (List.replicate bandP.length 1) bandP ∧
      agreement.factors.get? p = some first ∧
      agreement.factors.get? q = some (f.share budgets config q (c.carry p first) bandQ) := by
  simp only [List.mem_append, or_imp, forall_and] at hp hq
  obtain ⟨⟨hpbefore, hpbetween⟩, hpafter⟩ := hp
  obtain ⟨⟨hqbefore, hqbetween⟩, hqafter⟩ := hq
  obtain ⟨s₁, hs₁, hy⟩ := agreeOnNodes_append hy
  -- Nothing before leads to either node, so `p` starts from ones and carries over to `q`.
  have hp₁ : s₁.factors.get? p = none := agreeOnNodes_get? hpbefore hs₁
  have hq₁ : s₁.factors.get? q = none := agreeOnNodes_get? hqbefore hs₁
  obtain ⟨s₂, first, hfirst, hp₂, hq₂, hy⟩ := agreeOnNodes_single (hpq ▸ hne.symm) hbandP
    (fun carried hcarried => by rw [hp₁] at hcarried; cases hcarried) hy
  rw [hp₁, Option.getD_none] at hfirst
  rw [hpq, hq₁, Option.none_or] at hq₂
  obtain ⟨s₃, hs₃, hy⟩ := agreeOnNodes_append hy
  have hp₃ := (agreeOnNodes_get? hpbetween hs₃).trans hp₂
  have hq₃ := (agreeOnNodes_get? hqbetween hs₃).trans hq₂
  -- What `q` finds fits its band.  Its own turn carries nothing back: `p` has factors.
  obtain ⟨s₄, second, hsecond, hq₄, hp₄, hy⟩ := agreeOnNodes_single (hqp ▸ hne) hbandQ
    (fun carried hcarried => by
      rw [hq₃, Option.some.injEq] at hcarried
      rw [← hcarried, Correlation.length_carry, hloops]) hy
  rw [hq₃, Option.getD_some] at hsecond
  rw [hqp, hp₃, Option.some_or] at hp₄
  refine ⟨first, hfirst, (agreeOnNodes_get? hpafter hy).trans hp₄, ?_⟩
  rw [agreeOnNodes_get? hqafter hy, hq₄, hsecond]

/-! ## 4. Matching factors -/

/-- `Joins links c`: the two nodes of `c` are correlated by it and with no other node. -/
structure Joins (links : Correlations) (c : Correlation) : Prop where
  keys : (links.map Prod.fst).Nodup
  distinct : c.first ≠ c.second
  first : (c.first, [c]) ∈ links
  second : (c.second, [c]) ∈ links
  apart : ∀ e ∈ links, e.1 ≠ c.first → e.1 ≠ c.second → ∀ d ∈ e.2,
    d.other e.1 ≠ c.first ∧ d.other e.1 ≠ c.second

/-- Two members of a list stand in one order or the other. -/
theorem exists_split_pair {α : Type} {l : List α} {x y : α} (hx : x ∈ l) (hy : y ∈ l)
    (hne : x ≠ y) :
    ∃ before between after, l = before ++ x :: (between ++ y :: after) ∨
      l = before ++ y :: (between ++ x :: after) := by
  obtain ⟨before, after, rfl⟩ := List.append_of_mem hx
  rcases List.mem_append.mp hy with hy | hy
  · obtain ⟨before, between, rfl⟩ := List.append_of_mem hy
    exact ⟨before, between, after, .inr (by simp)⟩
  · obtain ⟨between, after, rfl⟩ :=
      List.append_of_mem ((List.mem_cons.mp hy).resolve_left fun heq => hne heq.symm)
    exact ⟨before, between, after, .inl rfl⟩

/-- Around the two nodes stand only entries that are apart from both. -/
theorem Joins.apart_of_split {links : Correlations} {c : Correlation} (h : Joins links c)
    {x y : OpId × List Correlation} (hxy : (x.1 = c.first ∧ y.1 = c.second) ∨
      (x.1 = c.second ∧ y.1 = c.first))
    {before between after : List (OpId × List Correlation)}
    (hsplit : List.Perm (before ++ x :: (between ++ y :: after)) links) :
    ∀ e ∈ before ++ between ++ after, Apart x.1 e ∧ Apart y.1 e := by
  have hperm : List.Perm (x :: y :: (before ++ between ++ after)) links := by
    refine List.Perm.trans ?_ hsplit
    refine List.Perm.trans ?_ List.perm_middle.symm
    refine .cons x ?_
    rw [List.append_assoc, ← List.append_assoc before between (y :: after)]
    refine List.Perm.trans ?_ List.perm_middle.symm
    rw [List.append_assoc]
  have hnd := (hperm.map Prod.fst).nodup_iff.mpr h.keys
  rw [List.map_cons, List.map_cons, List.nodup_cons, List.nodup_cons, List.mem_cons, not_or] at hnd
  obtain ⟨⟨-, hx⟩, hy, -⟩ := hnd
  intro e he
  have hmem : e ∈ links := hperm.mem_iff.mp (List.mem_cons_of_mem x (List.mem_cons_of_mem y he))
  have hex : e.1 ≠ x.1 := fun heq => hx (heq ▸ List.mem_map_of_mem he)
  have hey : e.1 ≠ y.1 := fun heq => hy (heq ▸ List.mem_map_of_mem he)
  rcases hxy with ⟨hxc, hyc⟩ | ⟨hxc, hyc⟩
  · have hlead := h.apart e hmem (hxc ▸ hex) (hyc ▸ hey)
    exact ⟨⟨hex, fun d hd => hxc ▸ (hlead d hd).1⟩, ⟨hey, fun d hd => hyc ▸ (hlead d hd).2⟩⟩
  · have hlead := h.apart e hmem (hyc ▸ hey) (hxc ▸ hex)
    exact ⟨⟨hex, fun d hd => hxc ▸ (hlead d hd).2⟩, ⟨hey, fun d hd => hyc ▸ (hlead d hd).1⟩⟩

/-- **Two joined nodes**: one of them starts from ones, the other from what was carried over. -/
theorem Joins.shares {links : Correlations} {c : Correlation} (h : Joins links c)
    {bandA bandB : Band} (hbandA : f.primaryBand c.first = .ok bandA)
    (hbandB : f.primaryBand c.second = .ok bandB) (hloopsA : c.forward.length = bandA.length)
    (hloopsB : c.backward.length = bandB.length) {agreement : Agreement}
    (hy : (f.agree budgets links config).Yields audience agreement) :
    ∃ fa fb, agreement.factors.get? c.first = some fa ∧ agreement.factors.get? c.second = some fb ∧
      ((fa = f.share budgets config c.first (List.replicate bandA.length 1) bandA ∧
          fb = f.share budgets config c.second (c.carry c.first fa) bandB) ∨
        (fb = f.share budgets config c.second (List.replicate bandB.length 1) bandB ∧
          fa = f.share budgets config c.first (c.carry c.second fb) bandA)) := by
  have hfirst : c.other c.first = c.second := if_pos rfl
  have hsecond : c.other c.second = c.first := if_neg h.distinct.symm
  have hranked := links.ranked_perm
  obtain ⟨before, between, after, hsplit | hsplit⟩ :=
    exists_split_pair (hranked.mem_iff.mpr h.first) (hranked.mem_iff.mpr h.second)
      fun heq => h.distinct (congrArg Prod.fst heq)
  all_goals rw [agree, hsplit] at hy
  · have hapart := h.apart_of_split (.inl ⟨rfl, rfl⟩) (hsplit ▸ hranked)
    have hloops : c.loopsOpposite c.first = bandB.length := (if_pos rfl).trans hloopsB
    obtain ⟨fa, hfa, hgetA, hgetB⟩ := agreeOnNodes_pair hfirst hsecond h.distinct hbandA hbandB
      hloops (fun e he => (hapart e he).1) (fun e he => (hapart e he).2) hy
    exact ⟨fa, _, hgetA, hgetB, .inl ⟨hfa, rfl⟩⟩
  · have hapart := h.apart_of_split (.inr ⟨rfl, rfl⟩) (hsplit ▸ hranked)
    have hloops : c.loopsOpposite c.second = bandA.length :=
      (if_neg h.distinct.symm).trans hloopsA
    obtain ⟨fb, hfb, hgetB, hgetA⟩ := agreeOnNodes_pair hsecond hfirst h.distinct.symm hbandB hbandA
      hloops (fun e he => (hapart e he).1) (fun e he => (hapart e he).2) hy
    exact ⟨_, fb, hgetA, hgetB, .inr ⟨hfb, rfl⟩⟩

/-- What two matched nodes end up with: matching factors, or greedy ones of their own. -/
theorem matched_or_greedy {a b : OpId} {matching : List Nat} {goal n : Nat}
    {shapeA shapeB : List (Option Nat)} (hab : a ≠ b) (hm : matching.Perm (List.range n))
    (hA : shapeA.length = n) (hB : shapeB.length = n) (htrips : Along matching shapeA shapeB)
    (hword : goal ≤ wordMax) {c : Correlation} (hc : c = .ofForward a b (matching.map some) n)
    {fa fb : List Nat}
    (hchosen : (fa = shareFactor goal (List.replicate n 1) shapeA ∧
        fb = shareFactor goal (c.carry a fa) shapeB) ∨
      (fb = shareFactor goal (List.replicate n 1) shapeB ∧
        fa = shareFactor goal (c.carry b fb) shapeA)) :
    (HasShare goal shapeA ∧ Along matching fa fb) ∨ (¬ HasShare goal shapeA ∧
      fa = greedyFactors goal shapeA ∧ fb = greedyFactors goal shapeB) := by
  subst hc
  rcases hchosen with ⟨rfl, rfl⟩ | ⟨rfl, rfl⟩
  · have hfa : (shareFactor goal (List.replicate n 1) shapeA).length = n := by
      rw [length_shareFactor, hA]
    have hseed := Correlation.length_carry (.ofForward a b (matching.map some) n) a
      (shareFactor goal (List.replicate n 1) shapeA)
    rw [Correlation.loopsOpposite_first] at hseed
    have halong := (Correlation.along_iff_carry_first hm hfa hseed).mpr rfl
    have hperm := (halong.zip htrips).perm hm (by simp [hfa, hA]) (by simp [hseed, hB])
    rcases shareFactor_again hword hA (hseed.trans hB.symm) hperm with
      ⟨hshare, hkept⟩ | ⟨hnone, hfirst, hsecond⟩
    · exact .inl ⟨hshare, hkept.symm ▸ halong⟩
    · exact .inr ⟨hnone, hfirst, hsecond⟩
  · have hfb : (shareFactor goal (List.replicate n 1) shapeB).length = n := by
      rw [length_shareFactor, hB]
    have hseed := Correlation.length_carry (.ofForward a b (matching.map some) n) b
      (shareFactor goal (List.replicate n 1) shapeB)
    rw [Correlation.loopsOpposite_second hab hm] at hseed
    have halong := (Correlation.along_iff_carry_second hab hm hseed hfb).mpr rfl
    have hperm := ((halong.zip htrips).perm hm (by simp [hseed, hA]) (by simp [hfb, hB])).symm
    have hshapes : shapeB.Perm shapeA := (htrips.perm hm hA hB).symm
    rcases shareFactor_again hword hB (hseed.trans hA.symm) hperm with
      ⟨hshare, hkept⟩ | ⟨hnone, hfirst, hsecond⟩
    · exact .inl ⟨hshare.perm hshapes, hkept.symm ▸ halong⟩
    · exact .inr ⟨fun h => hnone (h.perm hshapes.symm), hsecond, hfirst⟩

/-- **When the factors of two matched nodes match.**  Let a correlation join two nodes that are
correlated with no other one.  Let it match the loops of their bands one to one, loops of equal trip
count with each other, and let both nodes aim at the same product, which is a word.  Then both get
factors, whichever chooses first.  Each node's factors are the other's carried over exactly if valid
factors can make up the product, or if the greedy factors of the two bands match by themselves. -/
theorem agree_matches_iff (audience : Audience) (f : Func) (budgets : Budgets)
    (links : Correlations) (config : Config) (agreement : Agreement) (a b : OpId)
    (bandA bandB : Band) (matching : List Nat) (c : Correlation)
    (hc : c = .ofForward a b (matching.map some) bandB.length) (hlinks : Joins links c)
    (hbandA : f.primaryBand a = .ok bandA) (hbandB : f.primaryBand b = .ok bandB)
    (hdepth : bandA.length = bandB.length)
    (hmatching : matching.Perm (List.range bandB.length))
    (htrips : ∀ i j : Nat, matching[i]? = some j → (f.tripsOf bandA)[i]? = (f.tripsOf bandB)[j]?)
    (htarget : config.target budgets a = config.target budgets b)
    (hword : config.target budgets a ≤ wordMax)
    (hy : (f.agree budgets links config).Yields audience agreement) :
    ∃ fa fb, agreement.factors.get? a = some fa ∧ agreement.factors.get? b = some fb ∧
      ((fb = c.carry a fa ∧ fa = c.carry b fb) ↔
        HasShare (config.target budgets a) (f.tripsOf bandA) ∨
          greedyFactors (config.target budgets a) (f.tripsOf bandB) =
            c.carry a (greedyFactors (config.target budgets a) (f.tripsOf bandA))) := by
  have hlen := length_of_matching hmatching
  have hab : a ≠ b := by
    have hdistinct := hlinks.distinct
    rwa [hc] at hdistinct
  have hfirst : c.first = a := by rw [hc]; rfl
  have hsecond : c.second = b := by rw [hc]; rfl
  have hforward : c.forward.length = bandA.length := by
    simp [hc, Correlation.ofForward, hlen, hdepth]
  have hbackward : c.backward.length = bandB.length := by simp [hc, Correlation.ofForward]
  rw [← hfirst] at hbandA
  rw [← hsecond] at hbandB
  obtain ⟨fa, fb, hfa, hfb, hchosen⟩ := hlinks.shares hbandA hbandB hforward hbackward hy
  rw [hfirst] at hfa
  rw [hsecond] at hfb
  simp only [hfirst, hsecond, share, hdepth, ← htarget] at hchosen
  have hlenA : (f.tripsOf bandA).length = bandB.length := by rw [length_tripsOf, hdepth]
  have hlenB : (f.tripsOf bandB).length = bandB.length := length_tripsOf f bandB
  have hlens : fa.length = bandB.length ∧ fb.length = bandB.length := by
    rcases hchosen with ⟨rfl, rfl⟩ | ⟨rfl, rfl⟩ <;> simp [length_shareFactor, hlenA, hlenB]
  have hthere := Correlation.along_iff_carry_first (a := a) (b := b) hmatching hlens.1 hlens.2
  have hback := Correlation.along_iff_carry_second hab hmatching hlens.1 hlens.2
  rw [← hc] at hthere hback
  refine ⟨fa, fb, hfa, hfb, ?_⟩
  rw [← hback, ← hthere, and_self_iff]
  rcases matched_or_greedy hab hmatching hlenA hlenB htrips hword hc hchosen with
    ⟨hshare, halong⟩ | ⟨hnone, rfl, rfl⟩
  · exact iff_of_true halong (.inl hshare)
  · rw [hthere, or_iff_right hnone]

/-- A node that fills a buffer of three rows and two columns, and one that reads it column by
column. -/
def transposed : Func where
  name := "f"
  arguments := []
  body := [0]
  ops := #[
    { id := 0, kind := .schedule { name := "top", increase := none, decrease := none },
      parent := none, body := [1, 2, 6], erased := false },
    { id := 1, kind := .node "a", parent := some 0, body := [3], erased := false },
    { id := 2, kind := .buffer 0 none, parent := some 0, body := [], erased := false },
    { id := 3, kind := .loop (.plain "i" 0 (some 3) 1), parent := some 1, body := [4],
      erased := false },
    { id := 4, kind := .loop (.plain "j" 0 (some 2) 1), parent := some 3, body := [5],
      erased := false },
    { id := 5, kind := .compute { name := "p", reads := [], lanes := [],
                                  writes := [{ memref := 0, indices := [.iv 3, .iv 4] }] },
      parent := some 4, body := [], erased := false },
    { id := 6, kind := .node "b", parent := some 0, body := [7], erased := false },
    { id := 7, kind := .loop (.plain "x" 0 (some 2) 1), parent := some 6, body := [8],
      erased := false },
    { id := 8, kind := .loop (.plain "y" 0 (some 3) 1), parent := some 7, body := [9],
      erased := false },
    { id := 9, kind := .compute { name := "c", writes := [], lanes := [],
                                  reads := [{ memref := 0, indices := [.iv 8, .iv 7] }] },
      parent := some 8, body := [], erased := false }]
  values := #[{ id := 0, name := "T", shape := [3, 2], space := 0, definition := .op 2 }]

/-- It matches the rows of the one node with the inner loop of the other. -/
def transposition : Correlation := .ofForward 1 6 [some 1, some 0] 2

/-- No factors of three and two make five.  The first node settles for `[1, 2]`, the second for
`[1, 3]`, where `[2, 1]` would match. -/
theorem agree_mismatch_transposed : transposed.verify = .ok () ∧
    transposed.correlations.Yields none [(1, [transposition]), (6, [transposition])] ∧
    ∃ agreement fa fb, (transposed.agree [(1, 5), (6, 5)]
        [(1, [transposition]), (6, [transposition])] {}).Yields none agreement ∧
      agreement.factors.get? 1 = some fa ∧ agreement.factors.get? 6 = some fb ∧
      ¬ (fb = transposition.carry 1 fa ∧ fa = transposition.carry 6 fb) := by
  have hlinks : Joins [(1, [transposition]), (6, [transposition])] transposition := {
    keys := by decide
    distinct := by decide
    first := by decide
    second := by decide
    apart := by decide }
  have hnone : ¬ HasShare 5 [some 3, some 2] := by
    rintro ⟨factors, hvalid, hprod⟩
    cases hvalid with
    | cons hx hvalid =>
      cases hvalid with
      | cons hy hnil =>
        cases hnil
        have hdvd : 5 ∣ 3 * 2 := by
          rw [← hprod]
          simpa using Nat.mul_dvd_mul hx hy
        revert hdvd
        decide
  have htrips : ∀ i j : Nat, [1, 0][i]? = some j →
      (transposed.tripsOf [3, 4])[i]? = (transposed.tripsOf [7, 8])[j]?
    | 0, _, rfl => by decide
    | 1, _, rfl => by decide
  have hrun : (match (transposed.agree [(1, 5), (6, 5)]
      [(1, [transposition]), (6, [transposition])] {}).run none with
      | .ok _ => true
      | _ => false) = true := by decide +kernel
  refine ⟨by decide, ⟨_, rfl⟩, ?_⟩
  split at hrun
  case h_2 => cases hrun
  case h_1 result hrun' =>
    obtain ⟨agreement, journal⟩ := result
    obtain ⟨fa, fb, hfa, hfb, hiff⟩ := agree_matches_iff none transposed [(1, 5), (6, 5)] _ {}
      agreement 1 6 [3, 4] [7, 8] [1, 0] transposition rfl hlinks (by decide) (by decide) rfl
      (by decide) htrips rfl (by decide) ⟨journal, hrun'⟩
    refine ⟨agreement, fa, fb, ⟨journal, hrun'⟩, hfa, hfb, fun hmatch => ?_⟩
    rcases hiff.mp hmatch with hshare | hgreedy
    · exact hnone hshare
    · revert hgreedy
      decide

end Func
end Dataflow
