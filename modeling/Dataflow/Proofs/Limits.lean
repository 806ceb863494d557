/-
# No node is unrolled beyond its budget

The factors of a listed band are a share of what its node aims at (`Func.Accounts.share_le`): by
agreement, whatever was carried over to the node before, or by the node's own budget.  The run
records on a loop the part of its factor that divides the trip count.

The loops of a perfect nest that a run changes are all in one listed band: that band goes on from
the outermost of them as deep as the nest does (`Func.Listed`).  So the factors recorded on any
perfect nest of a node multiply up to a divisor of one share.
-/
import Mathlib.Algebra.BigOperators.Group.List.Lemmas
import Dataflow.Proofs.Aftermath
import Dataflow.Proofs.Settlement

namespace Dataflow

/-- Divisors place by place multiply up to a divisor. -/
theorem prod_map_dvd_prod {r : OpId → Nat} : ∀ {band : Band} {factors : List Nat},
    band.length = factors.length → (∀ p ∈ band.zip factors, r p.1 ∣ p.2) →
      (band.map r).prod ∣ factors.prod
  | [], [], _, _ => Nat.dvd_refl _
  | id :: band, n :: factors, hlen, hdvd => by
    rw [List.zip_cons_cons, List.forall_mem_cons] at hdvd
    rw [List.map_cons, List.prod_cons, List.prod_cons]
    exact Nat.mul_dvd_mul hdvd.1 (prod_map_dvd_prod (Nat.succ.inj hlen) hdvd.2)

namespace Func

variable {f g h : Func} {audience : Audience} {applied : List Applied} {a : Applied}

/-! ## 1. Listed factors -/

/-- **The factors of a listed band stay within what its node aims at.** -/
theorem Accounts.share_le (hf : f.Tidy) {config : Config} (hmax : config.maxUnroll ≠ 0)
    {report : Report} (h : f.Accounts audience config report g) (ha : a ∈ report.applied) :
    a.factors.prod ≤ config.target report.budgets a.node ∧ ∀ n ∈ a.factors, 0 < n := by
  have hone : max (config.target report.budgets a.node) 1 = config.target report.budgets a.node :=
    Nat.max_eq_left (Config.target_pos hmax (budgets_pos hf.toNested h.budgets) a.node)
  -- Wherever the factors come from, they are a share of what the node aims at.
  suffices hshare : ∃ base shape,
      a.factors = shareFactor (config.target report.budgets a.node) base shape by
    obtain ⟨base, shape, heq⟩ := hshare
    have hle := prod_shareFactor_le (config.target report.budgets a.node) base shape
    rw [hone] at hle
    rw [heq]
    exact ⟨hle, shareFactor_pos _ base shape⟩
  rcases h.factorsFrom a ha with hmem | ⟨-, budget, hbudget, heq⟩
  · rcases h.agreed with hnil | ⟨links, agreement, hlinks, hagree, hfactors⟩
    · rw [hnil] at hmem
      cases hmem
    · have hkeyed := agree_keyed (correlations_linked hf.toNested hlinks) hagree
      obtain ⟨hpass, hnd⟩ := correlations_passable hf.toNested hlinks
      obtain ⟨base, band, -, heq⟩ :=
        agree_isShare hpass hnd hagree (OpMap.get?_of_mem hkeyed.1 (hfactors ▸ hmem))
      exact ⟨base, _, heq⟩
  · have hget := OpMap.get?_of_mem (budgets_keyed hf.toNested h.budgets).1 hbudget
    have htarget : config.target report.budgets a.node = ownTarget config budget := by
      rw [Config.target, hget]
      rfl
    exact ⟨_, _, htarget ▸ heq⟩

/-! ## 2. Listed bands -/

/-- A listed band, said of the function that the run started from: a perfect nest as deep as it
goes, with a factor for each loop. -/
structure Listed (f : Func) (a : Applied) : Prop extends f.PerfectNest a.band where
  endsNest : f.EndsNest a.band
  lengths : a.factors.length = a.band.length

theorem Listed.nodup_places (hf : f.Tidy) (ha : f.Listed a) :
    ((a.band.zip a.factors).map Prod.fst).Nodup := by
  rw [List.map_fst_zip ha.lengths.ge]
  exact ha.nodup hf.toNested

theorem Replays.isLoop_old (hf : f.Tidy) (hrun : f.Replays applied g) {id : OpId}
    (hid : f.IsLoop id) : g.IsLoop id := by
  obtain ⟨l, hl⟩ := hid
  obtain ⟨op, hop, hkind⟩ := Option.map_eq_some_iff.mp hl
  obtain ⟨op', hop', hs⟩ := hrun.survives hf id op hop
  exact ⟨_, by rw [kindOf_eq hop', hs.kind, hkind, changeLoop_loop]⟩

theorem Replays.inNode_old (hf : f.Tidy) (hrun : f.Replays applied g) {node id : OpId}
    (hid : f.Reaches id) (hnode : f.InNode node id) : g.Reaches id ∧ g.InNode node id := by
  induction hrun with
  | start => exact ⟨hid, hnode⟩
  | step hrun _ ht ih =>
    have hcarries := ht.carries (hrun.tidy hf)
    exact ⟨hcarries.reaches id ih.1, hcarries.inNode node id ih.1 ih.2⟩

/-- **Every band that a run lists was there at the start.** -/
theorem Replays.listed (hf : f.Tidy) (hrun : f.Replays applied g) : ∀ a ∈ applied, f.Listed a := by
  induction hrun with
  | start => exact fun a ha => by cases ha
  | @step applied h g a changed hrun hdis ht ih =>
    intro b hb
    rcases List.mem_append.mp hb with hb | hb
    · exact ih b hb
    · rw [List.mem_singleton] at hb
      subst hb
      have hsame := hrun.entry_eq hf ht.toPerfectNest hdis
      have hbody : ∀ id ∈ b.band, h.bodyOf id = f.bodyOf id := fun id hid => by
        rw [bodyOf, bodyOf, (hsame id hid).2]
      exact
        { reaches := fun id hid => (hsame id hid).1
          isLoop := fun id hid => by
            obtain ⟨l, hl⟩ := ht.isLoop id hid
            exact ⟨l, by rwa [kindOf, (hsame id hid).2] at hl⟩
          chain := ht.chain.imp_of_mem_imp fun outer inner houter _ hchain => by
            rwa [hbody outer houter] at hchain
          endsNest := fun last hlast inner hinner hloop => by
            rw [← hbody last (List.mem_of_getLast? hlast)] at hinner
            exact ht.endsNest last hlast inner hinner (hrun.isLoop_old hf hloop)
          lengths := ht.lengths }

/-- **A loop is listed once**, with one factor. -/
theorem Replays.listed_once (hf : f.Tidy) (hrun : f.Replays applied g) {b : Applied}
    (ha : a ∈ applied) (hb : b ∈ applied) {id : OpId} {n m : Nat}
    (hn : (id, n) ∈ a.band.zip a.factors) (hm : (id, m) ∈ b.band.zip b.factors) :
    a = b ∧ n = m := by
  have hab : a = b := by
    have hmem : a ∈ applied.filter (fun c => decide (id ∈ c.band)) :=
      List.mem_filter.mpr ⟨ha, decide_eq_true (List.of_mem_zip hn).1⟩
    rwa [filter_bands_eq hrun.pairwise hb (List.of_mem_zip hm).1, List.mem_singleton] at hmem
  subst hab
  have hnd := (hrun.listed hf a ha).nodup_places hf
  exact ⟨rfl, congrArg Prod.snd (List.inj_on_of_nodup_map hnd hn hm rfl)⟩

/-! ## 3. Recorded factors -/

/-- The factor that a run recorded on a loop: that of its mark, if the run changed the loop. -/
def recordedFactor (f g : Func) (id : OpId) : Nat :=
  if g.kindOf id = f.kindOf id then 1
  else (((g.kindOf id).bind Kind.loop?).bind Loop.mark).elim 1 Mark.factor

/-- What a run records is the part of the listed factor that divides the trip count. -/
theorem Replays.recordedFactor_eq (hf : f.Tidy) (hrun : f.Replays applied g) {id : OpId} {l : Loop}
    (hl : f.kindOf id = some (.loop l)) (hchanged : g.kindOf id ≠ f.kindOf id) :
    ∃ a n l' m, applied.filter (fun b => decide (id ∈ b.band)) = [a] ∧
      (id, n) ∈ a.band.zip a.factors ∧ g.kindOf id = some (.loop l') ∧ l'.mark = some m ∧
      f.recordedFactor g id = m.factor ∧ m.factor = l.tripCount.elim n n.gcd := by
  obtain ⟨op, hop, hkind⟩ := Option.map_eq_some_iff.mp hl
  obtain ⟨op', hop', hs⟩ := hrun.survives hf id op hop
  rcases hrun.widenedOnce hf hop hs with
    heq | ⟨l₁, l', hl₁, hl', a, n, k, hfilter, hmem, hk, -, hloop⟩
  · rw [kindOf_eq hop', kindOf_eq hop, heq] at hchanged
    exact absurd rfl hchanged
  · obtain rfl : l₁ = l := Kind.loop.inj (hl₁.symm.trans hkind)
    have hg : g.kindOf id = some (.loop l') := (kindOf_eq hop').trans (congrArg some hl')
    have hmark : l'.mark = some (a.kind.mark k) := by rw [hloop]
    have hfactor : (a.kind.mark k).factor = k := by cases a.kind <;> rfl
    refine ⟨a, n, l', _, hfilter, hmem, hg, hmark, ?_, hfactor.trans hk⟩
    rw [recordedFactor, if_neg hchanged, hg]
    simp [Kind.loop?, hmark]

/-- The recorded factor divides the listed one. -/
theorem Replays.recordedFactor_dvd (hf : f.Tidy) (hrun : f.Replays applied g) (ha : a ∈ applied)
    {id : OpId} {n : Nat} (hp : (id, n) ∈ a.band.zip a.factors) : f.recordedFactor g id ∣ n := by
  have hlisted := hrun.listed hf a ha
  obtain ⟨hid, -⟩ := List.of_mem_zip hp
  by_cases hchanged : g.kindOf id = f.kindOf id
  · rw [recordedFactor, if_pos hchanged]
    exact Nat.one_dvd _
  · obtain ⟨l, hl⟩ := hlisted.isLoop id hid
    obtain ⟨b, n', -, m, hfilter, hmem, -, -, hrec, hfactor⟩ :=
      hrun.recordedFactor_eq hf hl hchanged
    have hb : b ∈ applied := List.mem_of_mem_filter (hfilter ▸ List.mem_singleton_self b)
    obtain ⟨-, rfl⟩ := hrun.listed_once hf ha hb hp hmem
    rw [hrec, hfactor]
    cases l.tripCount with
    | none => exact Nat.dvd_refl n
    | some t => exact Nat.gcd_dvd_left n t

/-- **The loops of a perfect nest that a run changes are in one listed band**, and what it recorded
on them divides the product of its factors. -/
theorem Replays.prod_recorded (hf : f.Tidy) (hrun : f.Replays applied g) : ∀ {band : Band},
    f.PerfectNest band → (band.map (f.recordedFactor g)).prod = 1 ∨
      ∃ a ∈ applied, (∃ id ∈ band, id ∈ a.band) ∧
        (band.map (f.recordedFactor g)).prod ∣ a.factors.prod
  | [], _ => .inl rfl
  | id :: band, hband => by
    rw [List.map_cons, List.prod_cons]
    by_cases hone : f.recordedFactor g id = 1
    · rw [hone, Nat.one_mul]
      refine (hrun.prod_recorded hf hband.tail).imp_right fun ⟨a, ha, ⟨x, hx, hxa⟩, hdvd⟩ => ?_
      exact ⟨a, ha, ⟨x, List.mem_cons_of_mem id hx, hxa⟩, hdvd⟩
    · obtain ⟨op, hop, -⟩ := hf.live id (hband.reaches id List.mem_cons_self)
      have htouched : Touched applied id := by
        by_contra hnot
        refine hone (if_pos ?_)
        rw [kindOf_eq (hrun.untouched hf hop hnot), kindOf_eq hop]
      obtain ⟨a, ha, hid⟩ := htouched
      have hlisted := hrun.listed hf a ha
      obtain ⟨outer, inner, hsplit⟩ := List.append_of_mem hid
      -- From the outermost changed loop on, the nest is a part of the listed band.
      have hpart : band <+: inner := hband.prefix_of_endsNest
        (hsplit ▸ hlisted.toPerfectNest).of_append (hsplit ▸ hlisted.endsNest).of_append
      have hsub : (id :: band).Sublist a.band := by
        rw [hsplit]
        exact (hpart.sublist.cons_cons id).trans (List.sublist_append_right outer _)
      refine .inr ⟨a, ha, ⟨id, List.mem_cons_self, hid⟩, ?_⟩
      calc f.recordedFactor g id * (band.map (f.recordedFactor g)).prod
          = ((id :: band).map (f.recordedFactor g)).prod := by rw [List.map_cons, List.prod_cons]
        _ ∣ (a.band.map (f.recordedFactor g)).prod := (hsub.map _).prod_dvd_prod
        _ ∣ a.factors.prod := prod_map_dvd_prod hlisted.lengths.symm fun p hp =>
            hrun.recordedFactor_dvd hf ha hp

/-! ## 4. Parallelization -/

/-- **No node is parallelized beyond its budget.**  On every perfect nest of a node, and so on each
of its bands, the factors that the run records multiply up to no more than the node aims at; and
each of them divides the trip count that the loop had. -/
theorem parallelize_within_budget (audience : Audience) (f g : Func) (config : Config)
    (report : Report) (hf : f.verify = .ok ())
    (hy : (f.parallelize config).Yields audience (g, .ok report)) :
    (∀ node band, f.OwnBand node band →
      (band.map (f.recordedFactor g)).prod ≤ config.target report.budgets node) ∧
    ∀ id l, f.kindOf id = some (.loop l) → g.kindOf id ≠ f.kindOf id →
      ∃ l' m, g.kindOf id = some (.loop l') ∧ l'.mark = some m ∧
        f.recordedFactor g id = m.factor ∧ ∀ t, l.tripCount = some t → t ≠ 0 → m.factor ∣ t := by
  have htidy : f.Tidy := verify_eq_ok_iff_tidy.mp hf
  obtain ⟨hmax, hwith⟩ := parallelize_yields hy
  have haccounts := parallelizeWith_accounts htidy hwith
  have hrun := haccounts.replays
  constructor
  · intro node band hband
    rcases hrun.prod_recorded htidy hband.toPerfectNest with hone | ⟨a, ha, ⟨id, hid, hida⟩, hdvd⟩
    · rw [hone]
      exact Config.target_pos hmax (budgets_pos htidy.toNested haccounts.budgets) node
    · obtain ⟨hle, hpos⟩ := haccounts.share_le htidy hmax ha
      have hin := (hrun.inNode_old htidy (hband.reaches id hid) (hband.inNode id hid)).2
      rw [← (hrun.inNode htidy a ha id hida).2.unique hin]
      exact (Nat.le_of_dvd (List.prod_pos hpos) hdvd).trans hle
  · intro id l hl hchanged
    obtain ⟨-, n, l', m, -, -, hg, hmark, hrec, hfactor⟩ :=
      hrun.recordedFactor_eq htidy hl hchanged
    refine ⟨l', m, hg, hmark, hrec, fun t ht _ => ?_⟩
    rw [hfactor, ht]
    exact Nat.gcd_dvd_right n t

/-- The budgets of the two nodes are three and two.  The first node carries a factor of three over
to the second, which is more than that may use, and it takes two. -/
theorem parallelize_within_budget_pipeline : (pipeline 6 4 []).verify = .ok () ∧
    (pipeline 6 4 []).OwnBand 4 [5] ∧ ∃ g report,
    ((pipeline 6 4 []).parallelize { maxUnroll := 6 }).Yields none (g, .ok report) ∧
    report.budgets = [(1, 3), (4, 2)] ∧
    ([5].map ((pipeline 6 4 []).recordedFactor g)).prod = 2 ∧
    Config.target { maxUnroll := 6 } report.budgets 4 = 2 := by
  have hf : (pipeline 6 4 []).verify = .ok () := by decide
  have hband : (pipeline 6 4 []).OwnBand 4 [5] := by
    have htop : (pipeline 6 4 []).Reaches 0 := .top (by decide)
    have hreach : (pipeline 6 4 []).Reaches 4 := htop.nested (by decide)
    exact (primaryBand_spec (verify_eq_ok_iff_tidy.mp hf).toNested hreach ⟨_, rfl, rfl⟩
      (by decide)).toOwnBand
  have hrun : (match ((pipeline 6 4 []).parallelize { maxUnroll := 6 }).run none with
      | .ok ((g, .ok report), _) => decide (report.budgets = [(1, 3), (4, 2)]) &&
          decide ((pipeline 6 4 []).recordedFactor g 5 = 2)
      | _ => false) = true := by decide +kernel
  refine ⟨hf, hband, ?_⟩
  split at hrun
  case h_2 => cases hrun
  case h_1 g report journal hrun' =>
    simp only [Bool.and_eq_true, decide_eq_true_eq] at hrun
    obtain ⟨hbudgets, hrec⟩ := hrun
    have hy : ((pipeline 6 4 []).parallelize { maxUnroll := 6 }).Yields none (g, .ok report) :=
      ⟨journal, hrun'⟩
    have hle := (parallelize_within_budget none _ g _ report hf hy).1 4 [5] hband
    have hprod : ([5].map ((pipeline 6 4 []).recordedFactor g)).prod = 2 := by
      rw [List.map_singleton, List.prod_singleton, hrec]
    have htarget : Config.target { maxUnroll := 6 } report.budgets 4 ≤ 2 := by
      rw [hbudgets]
      decide
    rw [hprod] at hle
    exact ⟨g, report, hy, hbudgets, hprod, Nat.le_antisymm htarget hle⟩

end Func
end Dataflow
