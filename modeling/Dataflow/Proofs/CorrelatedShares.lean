/-
# What correlated nodes settle on

Along the correlations of a function its nodes agree without complaint.  Both nodes of a correlation
list it, so factors are only ever carried over to nodes with a turn of their own
(`Func.agree_keyed_pending`).  What is carried over fits the band that it goes to, and the node
shares out from there within what it aims at itself, however much that was
(`Func.IsShare.bounds`).  So the nodes with factors are those with correlations, and each has a
factor for every loop of its primary band.
-/
import Dataflow.Proofs.CorrelationMaps

namespace Dataflow

theorem mem_pending_iff {m : Correlations} (hnd : (m.map Prod.fst).Nodup) {node : OpId} :
    node ∈ pending m ↔ m.linksOf node ≠ [] := by
  rw [mem_pending]
  constructor
  · rintro ⟨links, hmem, hne⟩
    rwa [Correlations.linksOf, OpMap.get?_of_mem hnd hmem, Option.getD_some]
  · intro hne
    cases hget : m.get? node with
    | none => simp [Correlations.linksOf, hget] at hne
    | some links =>
      rw [Correlations.linksOf, hget, Option.getD_some] at hne
      exact ⟨links, OpMap.mem_of_get? hget, hne⟩

namespace Func

variable {f : Func} {audience : Audience} {budgets : Budgets} {config : Config}

/-! ## 1. Who has factors -/

/-- Nodes without correlations have no turn. -/
theorem agreeOnNodes_filter : ∀ (entries : List (OpId × List Correlation)) (state : Agreement),
    f.agreeOnNodes budgets config (entries.filter fun e => !e.2.isEmpty) state
      = f.agreeOnNodes budgets config entries state
  | [], state => rfl
  | (node, links) :: entries, state => by
    cases links with
    | nil => simpa [agreeOnNodes] using agreeOnNodes_filter entries state
    | cons c cs =>
      simp only [List.filter_cons, List.isEmpty_cons, Bool.not_false, if_true, agreeOnNodes,
        Bool.false_eq_true, if_false]
      exact congrArg _ (funext fun state => agreeOnNodes_filter entries state)

/-- If both nodes of every correlation list it, only nodes with correlations get factors. -/
theorem agree_keyed_pending {links : Correlations}
    (hends : ∀ e ∈ links, ∀ c ∈ e.2, c.first ∈ pending links ∧ c.second ∈ pending links)
    {agreement : Agreement} (hy : (f.agree budgets links config).Yields audience agreement) :
    OpMap.Keyed (· ∈ pending links) agreement.factors := by
  rw [agree, ← agreeOnNodes_filter] at hy
  refine agreeOnNodes_keyed (fun e he => ?_) OpMap.keyed_nil hy
  obtain ⟨he, hne⟩ := List.mem_filter.mp he
  have hmem : e ∈ links := links.ranked_perm.mem_iff.mp he
  exact ⟨mem_pending.mpr ⟨e.2, hmem, by simpa using hne⟩, hends e hmem⟩

/-! ## 2. What they have -/

/-- A share has a factor for each loop of the primary band, and stays within what the node aims
at. -/
theorem IsShare.bounds {node : OpId} {factors : List Nat}
    (h : f.IsShare budgets config node factors) (htarget : 0 < config.target budgets node) :
    ∃ band, f.primaryBand node = .ok band ∧ factors.length = band.length
      ∧ (∀ n ∈ factors, 0 < n) ∧ factors.prod ≤ config.target budgets node := by
  obtain ⟨base, band, hband, rfl⟩ := h
  refine ⟨band, hband, ?_, shareFactor_pos _ _ _, ?_⟩
  · rw [share, length_shareFactor, length_tripsOf]
  · have hle := prod_shareFactor_le (config.target budgets node) base (f.tripsOf band)
    rwa [Nat.max_eq_left htarget] at hle

/-- **Correlated nodes settle, without complaint.**  Only a memref in use whose root cannot be found
keeps the correlations of a function from being told.  Along them the nodes agree, whatever their
budgets, and none is skipped.  The nodes with factors are those that list a correlation.  Each has
a factor of at least one for every loop of its primary band, and their product is at most what the
node aims at. -/
theorem agree_settles_correlated (audience : Audience) {f : Func} (hf : f.verify = .ok ())
    (budgets : Budgets) (hbudgets : ∀ e ∈ budgets, 0 < e.2) (config : Config)
    (hmax : 0 < config.maxUnroll) :
    (∀ fault, f.correlations.Faults audience fault → f.Astray fault)
      ∧ ∀ m, f.correlations.Yields audience m →
        ∃ agreement, (f.agree budgets m config).Yields audience agreement
          ∧ agreement.diagnostics = []
          ∧ (agreement.factors.map Prod.fst).Nodup
          ∧ (∀ node, node ∈ agreement.factors.map Prod.fst ↔ m.linksOf node ≠ [])
          ∧ ∀ node factors, (node, factors) ∈ agreement.factors →
              ∃ band, f.primaryBand node = .ok band ∧ factors.length = band.length
                ∧ (∀ n ∈ factors, 1 ≤ n) ∧ factors.prod ≤ config.target budgets node := by
  have hn := (verify_eq_ok_iff_tidy.mp hf).toNested
  refine ⟨fun fault hfault => astray_of_correlations hn hfault, fun m hm => ?_⟩
  obtain ⟨hpass, hnd⟩ := correlations_passable hn hm
  obtain ⟨_, -, hpaired⟩ := correlations_paired hn hm
  obtain ⟨agreement, hy⟩ := hn.agree_isOk (correlations_linked hn hm)
  obtain ⟨hdone, hquiet⟩ := agree_underway hpass hnd hy
  obtain ⟨hdistinct, hkeys⟩ := agree_keyed_pending hpaired.listed hy
  refine ⟨agreement, hy, hquiet, hdistinct, fun node => ⟨fun hnode => ?_, fun hne => ?_⟩,
    fun node factors hmem => ?_⟩
  · exact (mem_pending_iff hnd).mp (hkeys node hnode)
  · have hserved := (hdone.served node ((mem_pending_iff hnd).mpr hne)).resolve_left
      List.not_mem_nil
    rwa [← OpMap.has_eq_isSome, OpMap.has_iff] at hserved
  · exact (hdone.shares node factors (OpMap.get?_of_mem hdistinct hmem) List.not_mem_nil).bounds
      (config.target_pos (Nat.ne_of_gt hmax) hbudgets node)

/-- The first node takes four of each of its loops, and four are carried over to the second, which
may have two. -/
theorem agree_settles_tiledProducer : tiledProducer.verify = .ok ()
    ∧ tiledProducer.correlations.Yields none [(3, [pointMatch]), (7, [pointMatch])]
    ∧ pointMatch.carry 3 (shareFactor 16 [1, 1] [some 4, some 4]) = [4]
    ∧ ∃ agreement, (tiledProducer.agree [(3, 16), (7, 2)] [(3, [pointMatch]), (7, [pointMatch])]
          {}).Yields none agreement
        ∧ agreement.diagnostics = []
        ∧ ∃ n, agreement.factors.get? 7 = some [n] ∧ n ≤ 2 := by
  have hverify : tiledProducer.verify = .ok () := by decide
  have hfound : tiledProducer.correlations.Yields none [(3, [pointMatch]), (7, [pointMatch])] :=
    ⟨_, rfl⟩
  obtain ⟨-, hsettles⟩ :=
    agree_settles_correlated none hverify [(3, 16), (7, 2)] (by simp) {} (by decide)
  obtain ⟨agreement, hy, hquiet, hdistinct, hkeys, hfactors⟩ := hsettles _ hfound
  refine ⟨hverify, hfound, by decide +kernel, agreement, hy, hquiet, ?_⟩
  obtain ⟨e, hmem, heq⟩ := List.mem_map.mp ((hkeys 7).mpr (by decide))
  obtain ⟨node, factors⟩ := e
  obtain rfl : node = 7 := heq
  obtain ⟨band, hband, hlen, -, hprod⟩ := hfactors 7 factors hmem
  cases (show tiledProducer.primaryBand 7 = .ok [8] from rfl).symm.trans hband
  obtain ⟨n, rfl⟩ := List.length_eq_one_iff.mp hlen
  refine ⟨n, OpMap.get?_of_mem hdistinct hmem, ?_⟩
  simpa [Config.target, OpMap.get?] using hprod

end Func
end Dataflow
