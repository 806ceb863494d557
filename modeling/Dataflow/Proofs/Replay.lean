/-
# A parallelization, band by band

Whatever a parallelization decides, all it does to the function is to unroll bands, and its
report lists them in order (`Func.Replays`).  Each band has its turn (`Func.BandTurn`): it is a
perfect nest then, as deep as it goes, all its loops stand in the node that the report names, and
no two bands have a loop in common: a node is transformed once, by its agreed factors or by its own
budget, and the bands of one node are disjoint.

So every such run keeps the function in order (`Func.Replays.tidy`), and what is in no listed band
it leaves as it was (`Func.Replays.untouched`).  The factors of a listed band are the agreed ones
of its node, or a share of the node's own budget (`Func.FactorsFrom`).
-/
import Dataflow.Parallelize
import Dataflow.Proofs.Correlations
import Dataflow.Proofs.Factors
import Dataflow.Proofs.Unrolling

namespace Dataflow

/-- The mark that a realization leaves on a loop. -/
def Realization.mark : Realization → Nat → Mark
  | .unrollJam => .unrollJam
  | .vectorize => .vectorize

namespace Func

variable {f g h : Func} {audience : Audience}

/-! ## 1. Runs -/

/-- `h.BandTurn a changed g`: a listed band has its turn, from `h` to `g`.  A band is listed as
jammed only if that changed something. -/
structure BandTurn (h : Func) (a : Applied) (changed : Bool) (g : Func) : Prop extends
    h.InnerBand a.node a.band where
  lengths : a.factors.length = a.band.length
  jams : a.kind = .unrollJam → changed = true
  unrolls : h.replicateBand a.band a.factors a.kind.mark = .ok (g, changed)

/-- `f.Replays applied g`: unrolling the listed bands one after another leads from `f` to `g`. -/
inductive Replays (f : Func) : List Applied → Func → Prop
  | start : f.Replays [] f
  | step {applied : List Applied} {h g : Func} {a : Applied} {changed : Bool} :
      f.Replays applied h → (∀ b ∈ applied, b.band.Disjoint a.band) → h.BandTurn a changed g →
      f.Replays (applied ++ [a]) g

/-- **What a turn does**: nothing, and then the band is listed as vectorized, or it unrolls. -/
theorem BandTurn.effect (hn : h.Nested) {a : Applied} {changed : Bool}
    (ht : h.BandTurn a changed g) :
    (g = h ∧ h.lanesOf a.band a.factors = [] ∧ a.kind = .vectorize) ∨
      (h.lanesOf a.band a.factors ≠ [] ∧ ∃ innermost groups, a.band.getLast? = some innermost ∧
        h.Unrolled innermost (h.lanesOf a.band a.factors) a.kind.mark groups g) := by
  cases changed with
  | false =>
    obtain ⟨rfl, hnone⟩ := replicateBand_unchanged ht.unrolls
    have hkind : a.kind = .vectorize := by
      cases hk : a.kind with
      | unrollJam => cases ht.jams hk
      | vectorize => rfl
    refine .inl ⟨rfl, ?_, hkind⟩
    rcases hnone with hnil | hlen | hnil
    · simp [lanesOf, hnil]
    · exact absurd ht.lengths.symm hlen
    · exact hnil
  | true =>
    refine .inr (replicateBand_spec (ht.nodup hn) (fun innermost hlast id hid => ?_) ht.unrolls).2
    exact hn.lt_size (.nested (ht.reaches innermost (List.mem_of_getLast? hlast)) hid)

/-- A turn leaves every entry outside its band as it was. -/
theorem BandTurn.untouched (hn : h.Nested) {a : Applied} {changed : Bool}
    (ht : h.BandTurn a changed g) {id : OpId} {op : Op} (hop : h.ops[id]? = some op)
    (hid : id ∉ a.band) : g.ops[id]? = some op := by
  rcases ht.effect hn with ⟨rfl, -⟩ | ⟨-, innermost, groups, hlast, hu⟩
  · exact hop
  · exact hu.entry_same hop (fun lane hlane heq => hid (heq ▸ loop_mem_of_mem_lanesOf hlane))
      fun heq => hid (heq ▸ List.mem_of_getLast? hlast)

theorem BandTurn.carries (hh : h.Tidy) {a : Applied} {changed : Bool}
    (ht : h.BandTurn a changed g) : h.Carries a.band g := ht.toPerfectNest.carries hh ht.unrolls

/-- **A run keeps the function in order.** -/
theorem Replays.tidy (hf : f.Tidy) {applied : List Applied} (hrun : f.Replays applied g) :
    g.Tidy := by
  induction hrun with
  | start => exact hf
  | step _ _ ht ih => exact (ht.carries ih).tidy

/-- The loops of a band that was unrolled stay reached, and in their node. -/
theorem Replays.inNode (hf : f.Tidy) {applied : List Applied} (hrun : f.Replays applied g) :
    ∀ a ∈ applied, ∀ id ∈ a.band, g.Reaches id ∧ g.InNode a.node id := by
  induction hrun with
  | start => exact fun _ ha => by cases ha
  | @step applied h g a changed hrun _ ht ih =>
    have hcarries := ht.carries (hrun.tidy hf)
    intro b hb id hid
    have hbefore : h.Reaches id ∧ h.InNode b.node id := by
      rcases List.mem_append.mp hb with hb | hb
      · exact ih b hb id hid
      · rw [List.mem_singleton] at hb
        subst hb
        exact ⟨ht.reaches id hid, ht.inNode id hid⟩
    exact ⟨hcarries.reaches id hbefore.1, hcarries.inNode b.node id hbefore.1 hbefore.2⟩

/-- A band of a node that no unrolled band stands in has no loop in common with those. -/
theorem Replays.disjoint (hf : f.Tidy) {applied : List Applied} (hrun : f.Replays applied g)
    {node : OpId} {band : Band} (hband : g.OwnBand node band)
    (hnode : ∀ a ∈ applied, a.node ≠ node) : ∀ a ∈ applied, a.band.Disjoint band :=
  fun a ha id hid hid' =>
    hnode a ha ((hrun.inNode hf a ha id hid).2.unique (hband.inNode id hid'))

/-- The loop is in one of the bands. -/
def Touched (applied : List Applied) (id : OpId) : Prop := ∃ a ∈ applied, id ∈ a.band

/-- **A run leaves every entry that is in none of its bands as it was.** -/
theorem Replays.untouched (hf : f.Tidy) {applied : List Applied} (hrun : f.Replays applied g)
    {id : OpId} {op : Op} (hop : f.ops[id]? = some op) (hid : ¬ Touched applied id) :
    g.ops[id]? = some op := by
  induction hrun with
  | start => exact hop
  | @step applied h g a changed hrun _ ht ih =>
    refine ht.untouched (hrun.tidy hf).toNested (ih fun ⟨b, hb, hmem⟩ => hid ?_) fun hmem => hid ?_
    · exact ⟨b, List.mem_append_left [a] hb, hmem⟩
    · exact ⟨a, List.mem_append_right applied (List.mem_singleton_self a), hmem⟩

/-- A loop that is there after a run was there before. -/
theorem Replays.reaches_of_isLoop (hf : f.Tidy) {applied : List Applied}
    (hrun : f.Replays applied g) {id : OpId} (hid : g.Reaches id) (hloop : g.IsLoop id) :
    f.Reaches id := by
  induction hrun with
  | start => exact hid
  | @step applied h g a changed hrun _ ht ih =>
    have hn := (hrun.tidy hf).toNested
    rcases ht.effect hn with ⟨rfl, -⟩ | ⟨-, innermost, groups, -, hu⟩
    · exact ih hid hloop
    · obtain ⟨l', hl'⟩ := hloop
      obtain ⟨hold, l, hl, -⟩ := hu.isLoop_of_isLoop hn hid hl'
      exact ih hold ⟨l, hl⟩

/-- **A band that has not had its turn is what it was at the start.** -/
theorem Replays.entry_eq (hf : f.Tidy) {applied : List Applied} (hrun : f.Replays applied g)
    {band : Band} (hband : g.PerfectNest band) (hdis : ∀ a ∈ applied, a.band.Disjoint band) :
    ∀ id ∈ band, f.Reaches id ∧ g.ops[id]? = f.ops[id]? := by
  intro id hid
  have hreach := hrun.reaches_of_isLoop hf (hband.reaches id hid) (hband.isLoop id hid)
  obtain ⟨op, hop, -⟩ := hf.live id hreach
  refine ⟨hreach, ?_⟩
  rw [hop]
  exact hrun.untouched hf hop fun ⟨a, ha, hmem⟩ => hdis a ha hmem hid

theorem Replays.tripsOf_eq (hf : f.Tidy) {applied : List Applied} (hrun : f.Replays applied g)
    {band : Band} (hband : g.PerfectNest band) (hdis : ∀ a ∈ applied, a.band.Disjoint band) :
    g.tripsOf band = f.tripsOf band := by
  refine List.map_congr_left fun id hid => ?_
  rw [kindOf, kindOf, (hrun.entry_eq hf hband hdis id hid).2]

theorem Replays.lanesOf_eq (hf : f.Tidy) {applied : List Applied} (hrun : f.Replays applied g)
    {band : Band} (hband : g.PerfectNest band) (hdis : ∀ a ∈ applied, a.band.Disjoint band)
    (factors : List Nat) : g.lanesOf band factors = f.lanesOf band factors := by
  refine List.filterMap_congr fun p hp => ?_
  rw [laneOf, laneOf, kindOf, kindOf, (hrun.entry_eq hf hband hdis p.1 (List.of_mem_zip hp).1).2]

/-! ## 2. One band -/

/-- What happens to a function and the report when a band of a node has its turn with its factors:
nothing, or the band is unrolled and listed. -/
def BandStep (node : OpId) (band : Band) (factors : List Nat) (f : Func) (report : Report)
    (g : Func) (report' : Report) : Prop :=
  report'.factors = report.factors ∧ report'.budgets = report.budgets ∧
    ((g = f ∧ report'.applied = report.applied) ∨
      ∃ kind changed, factors.length = band.length ∧ (kind = .unrollJam → changed = true) ∧
        f.replicateBand band factors (Realization.mark kind) = .ok (g, changed) ∧
        report'.applied = report.applied ++ [⟨node, band, factors, kind⟩])

/-- The reports differ in their diagnostics only. -/
def SameBut (report report' : Report) : Prop :=
  report'.factors = report.factors ∧ report'.budgets = report.budgets ∧
    report'.applied = report.applied

theorem BandStep.skip {node : OpId} {band : Band} {factors : List Nat} {report report' : Report}
    (h : SameBut report report') : BandStep node band factors f report f report' :=
  ⟨h.1, h.2.1, .inl ⟨rfl, h.2.2⟩⟩

/-- A diagnostic changes neither the factors nor the list of bands. -/
theorem diagnose_yields {report report' : Report} {d : Diagnostic}
    (h : (report.diagnose d).Yields audience report') : SameBut report report' := by
  obtain ⟨_, -, h⟩ := Traced.yields_bind.mp h
  rw [Traced.yields_pure] at h
  subst h
  exact ⟨rfl, rfl, rfl⟩

theorem unrollJam_yields {band : Band} {factors : List Nat} {changed : Bool}
    (h : (f.unrollJam band factors).Yields audience (g, changed)) :
    f.replicateBand band factors .unrollJam = .ok (g, changed) := by
  obtain ⟨⟨g', changed'⟩, hrep, h⟩ := Traced.yields_bind.mp h
  rw [Traced.yields_lift] at hrep
  have heq : (g', changed') = (g, changed) := by cases changed' <;> simpa using h
  rw [← heq]
  exact hrep

/-- Vectorizing grants what asks for nothing, refuses, or unrolls. -/
theorem vectorize_yields {band : Band} {factors : List Nat} {rules : Safeguards} {done : Bool}
    (h : (f.vectorize band factors rules).Yields audience (g, done)) :
    (g = f ∧ (done = true → factors.all (· == 1) = true)) ∨
      (factors.all (· == 1) = false ∧ done = true ∧
        ∃ changed, f.replicateBand band factors .vectorize = .ok (g, changed)) := by
  unfold vectorize at h
  split at h
  · rename_i hones
    cases Traced.yields_pure.mp h
    exact .inl ⟨rfl, fun _ => hones⟩
  · rename_i hones
    obtain ⟨serial?, -, h⟩ := Traced.yields_bind.mp h
    cases serial? with
    | some serial =>
      obtain ⟨_, -, h⟩ := Traced.yields_bind.mp h
      cases Traced.yields_pure.mp h
      exact .inl ⟨rfl, fun hd => by cases hd⟩
    | none =>
      obtain ⟨⟨g', changed⟩, hrep, h⟩ := Traced.yields_bind.mp h
      rw [Traced.yields_lift] at hrep
      have heq : (g', true) = (g, done) := by cases changed <;> simpa using h
      cases heq
      exact .inr ⟨by simpa using hones, rfl, changed, hrep⟩

theorem vectorizeNode_yields {rules : Safeguards} {node : OpId} {band : Band}
    {factors : List Nat} {report report' : Report}
    (hlen : factors.length = band.length)
    (h : (f.vectorizeNode rules node band factors report).Yields audience (g, report')) :
    BandStep node band factors f report g report' := by
  obtain ⟨⟨g', done⟩, hvec, hrest⟩ := Traced.yields_bind.mp h
  cases done with
  | true =>
    rcases vectorize_yields hvec with ⟨rfl, hones⟩ | ⟨hones, -, changed, hrep⟩
    · simp only [hones rfl, if_true, Traced.yields_pure, Prod.mk.injEq] at hrest
      obtain ⟨rfl, rfl⟩ := hrest
      exact .skip ⟨rfl, rfl, rfl⟩
    · simp only [hones, if_true, Bool.false_eq_true, if_false, Traced.yields_pure,
        Prod.mk.injEq] at hrest
      obtain ⟨rfl, rfl⟩ := hrest
      refine ⟨rfl, rfl, .inr ⟨.vectorize, changed, hlen, ?_, hrep, rfl⟩⟩
      intro hjam
      cases hjam
  | false =>
    rcases vectorize_yields hvec with ⟨rfl, -⟩ | ⟨-, hd, -⟩
    · simp only [Bool.false_eq_true, if_false, Traced.yields_bind, Traced.yields_pure] at hrest
      obtain ⟨text, -, report'', hdiag, heq⟩ := hrest
      cases heq
      exact .skip (diagnose_yields hdiag)
    · cases hd

/-- A band that is unrolled and listed if that changed something. -/
theorem bandStep_of_unrollJam {node : OpId} {band : Band} {factors : List Nat} {changed : Bool}
    {report report' : Report} (hlen : factors.length = band.length)
    (hjam : (f.unrollJam band factors).Yields audience (g, changed))
    (hreport : report' = if changed then report.withApplied ⟨node, band, factors, .unrollJam⟩
      else report) : BandStep node band factors f report g report' := by
  have hrep := unrollJam_yields hjam
  subst hreport
  cases changed with
  | true => exact ⟨rfl, rfl, .inr ⟨.unrollJam, true, hlen, fun _ => rfl, hrep, rfl⟩⟩
  | false =>
    obtain ⟨rfl, -⟩ := replicateBand_unchanged hrep
    exact .skip ⟨rfl, rfl, rfl⟩

/-- By agreed factors, the primary band of the node has its turn. -/
theorem applyAgreed_yields {rules : Safeguards} {node : OpId} {factors : List Nat}
    {report report' : Report}
    (h : (f.applyAgreed rules node factors report).Yields audience (g, report')) :
    ∃ band, f.primaryBand node = .ok band ∧ BandStep node band factors f report g report' := by
  obtain ⟨band, hband, h⟩ := Traced.yields_bind.mp h
  rw [Traced.yields_lift] at hband
  refine ⟨band, hband, ?_⟩
  split at h
  · cases Traced.yields_pure.mp h
    exact .skip ⟨rfl, rfl, rfl⟩
  · split at h
    · simp only [Traced.yields_bind, Traced.yields_pure] at h
      obtain ⟨text, -, report'', hdiag, heq⟩ := h
      cases heq
      exact .skip (diagnose_yields hdiag)
    · rename_i hlen
      have hlen : factors.length = band.length := (not_not.mp hlen).symm
      obtain ⟨outside, -, h⟩ := Traced.yields_bind.mp h
      cases outside with
      | true => exact vectorizeNode_yields hlen h
      | false =>
        obtain ⟨⟨g', changed⟩, hjam, h⟩ := Traced.yields_bind.mp h
        cases changed with
        | true =>
          cases Traced.yields_pure.mp h
          exact bandStep_of_unrollJam hlen hjam rfl
        | false =>
          cases Traced.yields_pure.mp h
          exact bandStep_of_unrollJam hlen hjam rfl

/-- The loops of a band that are to be unrolled are the inner ones. -/
theorem loopsToUnroll_suffix {config : Config} {band inner : Band}
    (h : f.loopsToUnroll config .structural band = .ok (some inner)) :
    ∃ outer, outer ++ inner = band := by
  unfold loopsToUnroll at h
  split at h
  · cases h
    exact ⟨[], rfl⟩
  · obtain ⟨outside, -, h⟩ := Checked.bind_eq_ok.mp h
    split at h
    · cases h
      exact ⟨[], rfl⟩
    · obtain ⟨split?, hsplit, h⟩ := Checked.bind_eq_ok.mp h
      cases split? with
      | none => cases h
      | some parts =>
        obtain ⟨tile, point⟩ := parts
        simp only at h
        split at h
        · cases h
        · cases h
          exact ⟨tile, append_of_splitBand hsplit⟩

/-- The share of a goal that the loops of a band get when each starts from one. -/
def ownShare (f : Func) (goal : Nat) (band : Band) : List Nat :=
  shareFactor goal (List.replicate band.length 1) (f.tripsOf band)

/-- By the node's own budget, the inner loops of one of its bands have their turn. -/
theorem unrollBand_yields {config : Config} {node : OpId} {target : Nat} {band : Band}
    {report report' : Report}
    (h : (f.unrollBand config .structural node target band report).Yields audience (g, report')) :
    ∃ outer inner, outer ++ inner = band ∧
      BandStep node inner (f.ownShare target inner) f report g report' := by
  obtain ⟨inner?, hinner, h⟩ := Traced.yields_bind.mp h
  rw [Traced.yields_lift] at hinner
  cases inner? with
  | none =>
    simp only [Traced.yields_bind, Traced.yields_pure] at h
    obtain ⟨text, -, report'', hdiag, heq⟩ := h
    cases heq
    exact ⟨[], band, rfl, .skip (diagnose_yields hdiag)⟩
  | some inner =>
    obtain ⟨outer, hsplit⟩ := loopsToUnroll_suffix hinner
    obtain ⟨trips, htrips, h⟩ := Traced.yields_bind.mp h
    rw [Traced.yields_lift] at htrips
    obtain rfl := bandTrips_eq_ok htrips
    obtain ⟨⟨g', changed⟩, hjam, h⟩ := Traced.yields_bind.mp h
    have hlen : (f.ownShare target inner).length = inner.length := by simp [ownShare]
    refine ⟨outer, inner, hsplit, ?_⟩
    cases changed with
    | true =>
      cases Traced.yields_pure.mp h
      exact bandStep_of_unrollJam hlen hjam rfl
    | false =>
      cases Traced.yields_pure.mp h
      exact bandStep_of_unrollJam hlen hjam rfl

/-- **A band has its turn in a run.** -/
theorem Replays.bandStep (hf : f.Tidy) {report report' : Report} {node : OpId} {band : Band}
    {factors : List Nat} (hrun : f.Replays report.applied h) (hband : h.InnerBand node band)
    (hdis : ∀ a ∈ report.applied, a.band.Disjoint band)
    (hstep : BandStep node band factors h report g report') :
    f.Replays report'.applied g ∧ h.Carries band g ∧ (∀ a ∈ report'.applied,
      a ∈ report.applied ∨ (a.node = node ∧ a.band = band ∧ a.factors = factors)) := by
  obtain ⟨-, -, ⟨rfl, happlied⟩ | ⟨kind, changed, hlen, hjams, hrep, happlied⟩⟩ := hstep
  · rw [happlied]
    exact ⟨hrun, .refl (hrun.tidy hf) band, fun a ha => .inl ha⟩
  · rw [happlied]
    have ht : h.BandTurn ⟨node, band, factors, kind⟩ changed g := ⟨hband, hlen, hjams, hrep⟩
    refine ⟨.step hrun hdis ht, ht.carries (hrun.tidy hf), ?_⟩
    intro a ha
    rcases List.mem_append.mp ha with ha | ha
    · exact .inl ha
    · rw [List.mem_singleton] at ha
      subst ha
      exact .inr ⟨rfl, rfl, rfl⟩

/-! ## 3. The bands of several nodes -/

/-- Part of a run: from `h` to `g` only bands of the given sort were listed. -/
structure Progress (f : Func) (sort : Applied → Prop) (h : Func) (report : Report) (g : Func)
    (report' : Report) : Prop where
  replays : f.Replays report'.applied g
  factors : report'.factors = report.factors
  budgets : report'.budgets = report.budgets
  reaches : ∀ id, h.Reaches id → g.Reaches id
  applied : ∀ a ∈ report'.applied, a ∈ report.applied ∨ sort a

theorem Progress.refl {sort : Applied → Prop} {report : Report}
    (hrun : f.Replays report.applied h) : f.Progress sort h report h report where
  replays := hrun
  factors := rfl
  budgets := rfl
  reaches := fun _ hid => hid
  applied := fun _ ha => .inl ha

theorem Progress.trans {sort : Applied → Prop} {h₁ h₂ h₃ : Func} {r₁ r₂ r₃ : Report}
    (h : f.Progress sort h₁ r₁ h₂ r₂) (h' : f.Progress sort h₂ r₂ h₃ r₃) :
    f.Progress sort h₁ r₁ h₃ r₃ where
  replays := h'.replays
  factors := h'.factors.trans h.factors
  budgets := h'.budgets.trans h.budgets
  reaches := fun id hid => h'.reaches id (h.reaches id hid)
  applied := fun a ha => by
    rcases h'.applied a ha with ha | ha
    · exact h.applied a ha
    · exact .inr ha

theorem Progress.mono {sort sort' : Applied → Prop} {h : Func} {report report' : Report}
    (hp : f.Progress sort h report g report') (hsub : ∀ a, sort a → sort' a) :
    f.Progress sort' h report g report' where
  replays := hp.replays
  factors := hp.factors
  budgets := hp.budgets
  reaches := hp.reaches
  applied := fun a ha => (hp.applied a ha).imp_right (hsub a)

/-- A band of a node with a share of a goal as its factors. -/
def BySharing (f : Func) (node : OpId) (goal : Nat) (a : Applied) : Prop :=
  a.node = node ∧ a.factors = f.ownShare goal a.band

/-- **The bands of a node, one after another.**  Those that still wait stay bands of the node, for
they have no loop in common with those before. -/
theorem unrollBands_progress (hf : f.Tidy) {config : Config} {node : OpId} {target : Nat} :
    ∀ {bands : List Band} {h g : Func} {report report' : Report}, f.Replays report.applied h →
      (∀ band ∈ bands, h.InnerBand node band) → bands.Pairwise List.Disjoint →
      (∀ a ∈ report.applied, ∀ band ∈ bands, a.band.Disjoint band) →
      (unrollBands config .structural node target h bands report).Yields audience (g, report') →
      f.Progress (f.BySharing node target) h report g report'
  | [], h, g, report, report', hrun, _, _, _, hy => by
    cases Traced.yields_pure.mp hy
    exact .refl hrun
  | band :: bands, h, g, report, report', hrun, hown, hpair, hdis, hy => by
    obtain ⟨⟨h', report₁⟩, hband, hrest⟩ := Traced.yields_bind.mp hy
    obtain ⟨outer, inner, rfl, hstep⟩ := unrollBand_yields hband
    obtain ⟨hfirst, hpair⟩ := List.pairwise_cons.mp hpair
    have hinner : h.InnerBand node inner := (hown _ List.mem_cons_self).of_append
    have hsub : inner ⊆ outer ++ inner := List.subset_append_right outer inner
    have hbefore : ∀ a ∈ report.applied, a.band.Disjoint inner := fun a ha =>
      List.disjoint_of_subset_right hsub (hdis a ha _ List.mem_cons_self)
    obtain ⟨hrun', hcarries, happlied⟩ := hrun.bandStep hf hinner hbefore hstep
    have hwait : ∀ other ∈ bands, inner.Disjoint other := fun other hother =>
      List.disjoint_of_subset_left hsub (hfirst other hother)
    have hshare : h.ownShare target inner = f.ownShare target inner := by
      rw [ownShare, ownShare, hrun.tripsOf_eq hf hinner.toPerfectNest hbefore]
    have hfirstStep : f.Progress (f.BySharing node target) h report h' report₁ :=
      { replays := hrun'
        factors := hstep.1
        budgets := hstep.2.1
        reaches := hcarries.reaches
        applied := fun a ha => (happlied a ha).imp_right fun ⟨hnode, hband, hfactors⟩ =>
          ⟨hnode, by rw [hfactors, hband, hshare]⟩ }
    refine hfirstStep.trans (unrollBands_progress hf hrun' (fun other hother => ?_) hpair
      (fun a ha other hother => ?_) hrest)
    · exact hcarries.innerBand node other (hown other (List.mem_cons_of_mem _ hother))
        (hwait other hother)
    · rcases happlied a ha with ha | ⟨-, ha, -⟩
      · exact hdis a ha other (List.mem_cons_of_mem _ hother)
      · rw [ha]
        exact hwait other hother

/-- What a node with its own budget aims at. -/
def ownTarget (config : Config) (budget : Nat) : Nat :=
  if config.costAware then budget else config.maxUnroll

/-- Several nodes by their own budgets. -/
theorem unrollNodes_progress (hf : f.Tidy) {config : Config} : ∀ {entries : List (OpId × Nat)}
    {h g : Func} {report report' : Report}, f.Replays report.applied h →
      (entries.map Prod.fst).Nodup → (∀ e ∈ entries, h.Reaches e.1) →
      (∀ a ∈ report.applied, a.node ∉ entries.map Prod.fst) →
      (unrollNodes config .structural h entries report).Yields audience (g, report') →
      f.Progress (fun a => ∃ e ∈ entries, f.BySharing e.1 (ownTarget config e.2) a) h report g
        report'
  | [], h, g, report, report', hrun, _, _, _, hy => by
    cases Traced.yields_pure.mp hy
    exact .refl hrun
  | (node, budget) :: entries, h, g, report, report', hrun, hnd, hreach, hnew, hy => by
    obtain ⟨⟨h', report₁⟩, hnode, hrest⟩ := Traced.yields_bind.mp hy
    obtain ⟨bands, hbands, hnode⟩ := Traced.yields_bind.mp hnode
    rw [Traced.yields_lift] at hbands
    obtain ⟨hnodeReach, hreach⟩ := List.forall_mem_cons.mp hreach
    obtain ⟨hfresh, hnd⟩ := List.nodup_cons.mp hnd
    obtain ⟨hown, hpair⟩ := nodeBands_spec (hrun.tidy hf).toNested hnodeReach hbands
    have hfirst : f.Progress (f.BySharing node (ownTarget config budget)) h report h' report₁ :=
      unrollBands_progress hf hrun hown hpair
        (fun a ha band hband => hrun.disjoint hf (hown band hband).toOwnBand
          (fun b hb heq => hnew b hb (heq ▸ List.mem_cons_self)) a ha) hnode
    refine (hfirst.mono ?_).trans ((unrollNodes_progress hf hfirst.replays hnd
      (fun e he => hfirst.reaches e.1 (hreach e he)) (fun a ha hmem => ?_) hrest).mono ?_)
    · exact fun a ha => ⟨(node, budget), List.mem_cons_self, ha⟩
    · rcases hfirst.applied a ha with ha | ha
      · exact hnew a ha (List.mem_cons_of_mem node hmem)
      · exact hfresh (ha.1 ▸ hmem)
    · exact fun a ⟨e, he, ha⟩ => ⟨e, List.mem_cons_of_mem _ he, ha⟩

/-- Several nodes by agreed factors. -/
theorem applyAllAgreed_progress (hf : f.Tidy) {rules : Safeguards} :
    ∀ {entries : List (OpId × List Nat)} {h g : Func} {report report' : Report},
      f.Replays report.applied h → (entries.map Prod.fst).Nodup →
      (∀ e ∈ entries, h.Reaches e.1 ∧ h.IsNode e.1) →
      (∀ a ∈ report.applied, a.node ∉ entries.map Prod.fst) →
      (applyAllAgreed rules h entries report).Yields audience (g, report') →
      f.Progress (fun a => (a.node, a.factors) ∈ entries) h report g report'
  | [], h, g, report, report', hrun, _, _, _, hy => by
    cases Traced.yields_pure.mp hy
    exact .refl hrun
  | (node, factors) :: entries, h, g, report, report', hrun, hnd, hnodes, hnew, hy => by
    obtain ⟨⟨h', report₁⟩, hnode, hrest⟩ := Traced.yields_bind.mp hy
    obtain ⟨band, hband, hstep⟩ := applyAgreed_yields hnode
    obtain ⟨⟨hreach, hisNode⟩, hnodes⟩ := List.forall_mem_cons.mp hnodes
    obtain ⟨hfresh, hnd⟩ := List.nodup_cons.mp hnd
    have hown : h.InnerBand node band :=
      primaryBand_spec (hrun.tidy hf).toNested hreach hisNode hband
    obtain ⟨hrun', hcarries, happlied⟩ := hrun.bandStep hf hown
      (hrun.disjoint hf hown.toOwnBand fun b hb heq => hnew b hb (heq ▸ List.mem_cons_self)) hstep
    have hfirst : f.Progress (fun a => a.node = node ∧ a.factors = factors) h report h' report₁ :=
      { replays := hrun'
        factors := hstep.1
        budgets := hstep.2.1
        reaches := hcarries.reaches
        applied := fun a ha => (happlied a ha).imp_right fun ⟨hnode, _, hfactors⟩ =>
          ⟨hnode, hfactors⟩ }
    refine (hfirst.mono ?_).trans ((applyAllAgreed_progress hf hrun' hnd
      (fun e he => ⟨hcarries.reaches e.1 (hnodes e he).1, hcarries.isNode e.1 (hnodes e he).2⟩)
      (fun a ha hmem => ?_) hrest).mono ?_)
    · rintro a ⟨rfl, rfl⟩
      exact List.mem_cons_self
    · rcases hfirst.applied a ha with ha | ha
      · exact hnew a ha (List.mem_cons_of_mem node hmem)
      · exact hfresh (ha.1 ▸ hmem)
    · exact fun a ha => List.mem_cons_of_mem _ ha

/-! ## 4. The pass -/

/-- The factors of the report are those that the correlated nodes agreed on. -/
def Agreed (audience : Audience) (f : Func) (config : Config) (report : Report) : Prop :=
  ∃ links agreement, f.correlations.Yields audience links ∧
    (f.agree report.budgets links config).Yields audience agreement ∧
    report.factors = agreement.factors

/-- By agreed factors, if correlations count: what was unrolled has the factors agreed for its
node. -/
theorem agreeAndApply_progress (hf : f.Tidy) {config : Config} {report report' : Report}
    (hempty : report.applied = []) (hnone : report.factors = [])
    (hy : (f.agreeAndApply config {} report).Yields audience (g, report')) :
    f.Progress (fun a => (a.node, a.factors) ∈ report'.factors) f
        { report with factors := report'.factors } g report' ∧
      (report'.factors = [] ∨ f.Agreed audience config report') := by
  have hstart : f.Replays report.applied f := hempty ▸ .start
  unfold agreeAndApply at hy
  split at hy
  · obtain ⟨links, hlinks, hy⟩ := Traced.yields_bind.mp hy
    obtain ⟨agreement, hagree, hy⟩ := Traced.yields_bind.mp hy
    have hkeyed : OpMap.Keyed f.Participant agreement.factors :=
      agree_keyed (correlations_linked hf.toNested hlinks) hagree
    have hprogress := applyAllAgreed_progress hf (by exact hstart) hkeyed.1
      (fun e he => hkeyed.2 e.1 (List.mem_map_of_mem he))
      (fun a ha => by simp only [hempty, List.not_mem_nil] at ha) hy
    have hfactors : report'.factors = agreement.factors := hprogress.factors
    have hbudgets : report'.budgets = report.budgets := hprogress.budgets
    refine ⟨?_, .inr ⟨links, agreement, hlinks, hbudgets ▸ hagree, hfactors⟩⟩
    exact
      { replays := hprogress.replays
        factors := rfl
        budgets := hbudgets
        reaches := hprogress.reaches
        applied := fun a ha => hfactors ▸ hprogress.applied a ha }
  · cases Traced.yields_pure.mp hy
    exact ⟨.refl hstart, .inl hnone⟩

/-- Where the factors of a listed band come from: agreed for its node, or a share of its node's own
budget. -/
def FactorsFrom (f : Func) (config : Config) (report : Report) (a : Applied) : Prop :=
  (a.node, a.factors) ∈ report.factors ∨
    (a.node ∉ report.factors.map Prod.fst ∧ ∃ budget, (a.node, budget) ∈ report.budgets ∧
      a.factors = f.ownShare (ownTarget config budget) a.band)

/-- What the report of a parallelization accounts for: the run, and where its numbers come from. -/
structure Accounts (audience : Audience) (f : Func) (config : Config) (report : Report)
    (g : Func) : Prop where
  replays : f.Replays report.applied g
  factorsFrom : ∀ a ∈ report.applied, f.FactorsFrom config report a
  agreed : report.factors = [] ∨ f.Agreed audience config report
  budgets : (f.budgets .byTripCount config.maxUnroll).Yields audience (.ok report.budgets)

/-- **All that a parallelization does to the function is to unroll the bands it reports**, by
factors that it accounts for. -/
theorem parallelizeWith_accounts (hf : f.Tidy) {config : Config} {report : Report}
    (hy : (f.parallelizeWith config {}).Yields audience (g, .ok report)) :
    f.Accounts audience config report g := by
  obtain ⟨outcome, hbudgets, hy⟩ := Traced.yields_bind.mp hy
  cases outcome with
  | error reason => cases Traced.yields_pure.mp hy
  | ok budgets =>
    obtain ⟨⟨h, report₁⟩, hagreed, hy⟩ := Traced.yields_bind.mp hy
    obtain ⟨⟨g', report₂⟩, hown, hy⟩ := Traced.yields_bind.mp hy
    obtain ⟨_, -, hy⟩ := Traced.yields_bind.mp hy
    cases Traced.yields_pure.mp hy
    obtain ⟨hfirst, hfrom⟩ := agreeAndApply_progress hf rfl rfl hagreed
    have happlied : ∀ a ∈ report₁.applied, (a.node, a.factors) ∈ report₁.factors := fun a ha =>
      (hfirst.applied a ha).resolve_left List.not_mem_nil
    have hkeyed : OpMap.Keyed f.Participant budgets := budgets_keyed hf.toNested hbudgets
    have hown' := hkeyed.filter fun e => !report₁.factors.has e.1
    -- A node with its own budget has no agreed factors, so none of its bands was unrolled.
    have hnot : ∀ e ∈ budgets.filter (fun e => !report₁.factors.has e.1),
        e.1 ∉ report₁.factors.map Prod.fst := fun e he => by
      have htest := (List.mem_filter.mp he).2
      rwa [Bool.not_eq_true', ← Bool.not_eq_true, OpMap.has_iff] at htest
    have hsecond := unrollNodes_progress hf hfirst.replays hown'.1
      (fun e he => hfirst.reaches e.1 (hown'.2 e.1 (List.mem_map_of_mem he)).1)
      (fun a ha hmem => by
        obtain ⟨e, he, heq⟩ := List.mem_map.mp hmem
        exact hnot e he (heq ▸ List.mem_map_of_mem (happlied a ha))) hown
    have hbudgets' : report.budgets = budgets := hsecond.budgets.trans hfirst.budgets
    refine
      { replays := hsecond.replays
        factorsFrom := fun a ha => ?_
        agreed := ?_
        budgets := hbudgets' ▸ hbudgets }
    · rw [FactorsFrom, hsecond.factors, hbudgets']
      rcases hsecond.applied a ha with ha | ⟨e, he, hnode, hfactors⟩
      · exact .inl (happlied a ha)
      · exact .inr ⟨hnode ▸ hnot e he, e.2, hnode ▸ (List.mem_filter.mp he).1, hfactors⟩
    · rw [Agreed, hsecond.factors, hsecond.budgets]
      exact hfrom

theorem parallelizeWith_replays (hf : f.Tidy) {config : Config} {report : Report}
    (hy : (f.parallelizeWith config {}).Yields audience (g, .ok report)) :
    f.Replays report.applied g := (parallelizeWith_accounts hf hy).replays

/-- Run on a function, the pass wants a factor that is not zero. -/
theorem parallelize_yields {config : Config} {report : Report}
    (hy : (f.parallelize config).Yields audience (g, .ok report)) :
    config.maxUnroll ≠ 0 ∧ (f.parallelizeWith config {}).Yields audience (g, .ok report) := by
  unfold parallelize at hy
  split at hy
  · cases Traced.yields_pure.mp hy
  · rename_i hmax
    obtain ⟨⟨g', outcome⟩, hrun, hy⟩ := Traced.yields_bind.mp hy
    cases outcome with
    | error reason => cases Traced.yields_pure.mp hy
    | ok report' =>
      cases Traced.yields_pure.mp hy
      exact ⟨hmax, hrun⟩

theorem parallelize_replays (hf : f.Tidy) {config : Config} {report : Report}
    (hy : (f.parallelize config).Yields audience (g, .ok report)) :
    f.Replays report.applied g := parallelizeWith_replays hf (parallelize_yields hy).2

end Func
end Dataflow
