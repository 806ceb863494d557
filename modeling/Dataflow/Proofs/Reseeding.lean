/-
# Sharing out again changes nothing

A share that was made from ones is kept when it is the base of another share of the same goal over
the same loops (`shareFactor_reseed`).  An even share makes up the goal already.  A greedy one was
made because no valid factors make up the goal, so the search from it fails as well, and the second
share is greedy too.

So two nodes stay in step that are correlated with each other only, by a map that matches each loop
with the one in the same place (`Twins`): either neither has factors yet, or both have the same
(`Func.InStep`).  Whichever of them has its turn, and however often, both end with the share that
one of them alone would have taken (`reseeding_settles`).
-/
import Dataflow.Proofs.Acceptance
import Dataflow.Proofs.AgreementRuns
import Dataflow.Proofs.Matching

namespace Dataflow

/-! ## 1. Sharing out again -/

/-- **A share is kept as a base.** -/
theorem shareFactor_reseed {goal : Nat} (hword : goal ≤ wordMax) (shape : List (Option Nat)) :
    shareFactor goal (shareFactor goal (List.replicate shape.length 1) shape) shape =
      shareFactor goal (List.replicate shape.length 1) shape := by
  have hlen := length_shareFactor goal (List.replicate shape.length 1) shape
  rcases shareFactor_again hword rfl hlen (List.Perm.refl _) with ⟨-, hkept⟩ | ⟨-, hfirst, hsecond⟩
  · exact hkept
  · exact hsecond.trans hfirst.symm

/-! ## 2. Identity maps -/

/-- The correlation of two nodes that matches each of their `n` loops with the one in its place. -/
def Correlation.identity (a b : OpId) (n : Nat) : Correlation :=
  .ofForward a b ((List.range n).map some) n

theorem along_range {α : Type} (n : Nat) (xs : List α) : Along (List.range n) xs xs := by
  intro i j hij
  obtain ⟨-, rfl⟩ : i < n ∧ i = j := by simpa [List.getElem?_eq_some_iff] using hij
  rfl

/-- An identity map carries factors over as they are, from either side. -/
theorem Correlation.carry_identity {a b node : OpId} (hab : a ≠ b) (hnode : node = a ∨ node = b)
    (xs : List Nat) : (identity a b xs.length).carry node xs = xs := by
  have hrange : (List.range xs.length).Perm (List.range xs.length) := .refl _
  rcases hnode with rfl | rfl
  · exact ((along_iff_carry_first hrange rfl rfl).mp (along_range _ xs)).symm
  · exact ((along_iff_carry_second hab hrange rfl rfl).mp (along_range _ xs)).symm

/-- `Twins links a b n`: two nodes are correlated with each other, and only so, by identity maps
between bands of `n` loops.  Other nodes may be correlated among themselves. -/
structure Twins (links : Correlations) (a b : OpId) (n : Nat) : Prop where
  distinct : a ≠ b
  /-- One of them has a correlation. -/
  joined : ∃ e ∈ links, (e.1 = a ∨ e.1 = b) ∧ e.2 ≠ []
  /-- The correlations of both are identity maps between them. -/
  identity : ∀ e ∈ links, e.1 = a ∨ e.1 = b →
    ∀ c ∈ e.2, c = .identity a b n ∨ c = .identity b a n
  /-- No correlation of another node leads to them. -/
  apart : ∀ e ∈ links, e.1 ≠ a → e.1 ≠ b → ∀ c ∈ e.2, c.other e.1 ≠ a ∧ c.other e.1 ≠ b

theorem Twins.symm {links : Correlations} {a b : OpId} {n : Nat} (h : Twins links a b n) :
    Twins links b a n where
  distinct := h.distinct.symm
  joined := by
    obtain ⟨e, he, hkey, hne⟩ := h.joined
    exact ⟨e, he, hkey.symm, hne⟩
  identity := fun e he hkey c hc => (h.identity e he hkey.symm c hc).symm
  apart := fun e he hb ha c hc => (h.apart e he ha hb c hc).symm

/-- What the first of two twins carries over goes to the second, as it is. -/
theorem Twins.carry {links : Correlations} {a b : OpId} {n : Nat} (h : Twins links a b n)
    {cs : List Correlation} (hmem : (a, cs) ∈ links) {c : Correlation} (hc : c ∈ cs) :
    c.other a = b ∧ ∀ xs : List Nat, xs.length = n → c.carry a xs = xs := by
  have hother : ∀ x : OpId, Correlation.other (.identity b a n) x = if x = b then a else b :=
    fun _ => rfl
  rcases h.identity _ hmem (.inl rfl) c hc with rfl | rfl
  · refine ⟨if_pos rfl, ?_⟩
    rintro xs rfl
    exact Correlation.carry_identity h.distinct (.inl rfl) xs
  · refine ⟨by rw [hother, if_neg h.distinct], ?_⟩
    rintro xs rfl
    exact Correlation.carry_identity h.distinct.symm (.inr rfl) xs

namespace Func

variable {f : Func} {audience : Audience} {budgets : Budgets} {config : Config}
  {links : Correlations} {a b : OpId} {shape : List (Option Nat)} {v : List Nat}

/-! ## 3. Twins stay in step -/

/-- Both nodes have these factors. -/
def Alike (factors : OpMap (List Nat)) (a b : OpId) (v : List Nat) : Prop :=
  factors.get? a = some v ∧ factors.get? b = some v

/-- Both nodes have these factors, or neither has any. -/
def InStep (factors : OpMap (List Nat)) (a b : OpId) (v : List Nat) : Prop :=
  Alike factors a b v ∨ (factors.get? a = none ∧ factors.get? b = none)

theorem Alike.symm {factors : OpMap (List Nat)} (h : Alike factors a b v) :
    Alike factors b a v := And.symm h

theorem InStep.symm {factors : OpMap (List Nat)} (h : InStep factors a b v) :
    InStep factors b a v := h.imp Alike.symm And.symm

/-- Carrying over along one or more identity maps gives the other node the same factors. -/
theorem carryOver_alike {cs : List Correlation} (hne : cs ≠ [])
    (hcs : ∀ c ∈ cs, c.other a = b ∧ c.carry a v = v) (hab : a ≠ b)
    {factors factors' : OpMap (List Nat)} (ha : factors.get? a = some v)
    (hb : factors.get? b = some v ∨ factors.get? b = none)
    (hy : (f.carryOver a v cs factors).Yields audience factors') : Alike factors' a b v := by
  -- Once both have factors, nothing more is carried over.
  have hstays : ∀ {cs : List Correlation} {factors factors' : OpMap (List Nat)},
      (∀ c ∈ cs, c.other a = b ∧ c.carry a v = v) → Alike factors a b v →
      (f.carryOver a v cs factors).Yields audience factors' → Alike factors' a b v := by
    intro cs factors factors' hcs halike hy
    refine carryOver_preserves (I := fun factors => Alike factors a b v) ?_ halike hy
    intro c hc factors hnone halike
    rw [(hcs c hc).1, OpMap.has_eq_isSome, halike.2] at hnone
    cases hnone
  cases cs with
  | nil => exact absurd rfl hne
  | cons c cs =>
    obtain ⟨⟨hother, hcarry⟩, hcs⟩ := List.forall_mem_cons.mp hcs
    rw [carryOver] at hy
    simp only [hother, hcarry] at hy
    split at hy
    · rename_i hhas
      rw [OpMap.has_eq_isSome] at hhas
      refine hstays hcs ⟨ha, hb.resolve_right fun hnone => ?_⟩ hy
      rw [hnone] at hhas
      cases hhas
    · obtain ⟨_, -, hy⟩ := Traced.yields_bind.mp hy
      refine hstays hcs ⟨?_, ?_⟩ hy
      · rw [OpMap.get?_put, if_neg hab, ha]
      · rw [OpMap.get?_put, if_pos rfl]

/-- **The turn of a twin** leaves both alike, whether it starts from ones or from what it was
given. -/
theorem agreeOnNode_alike {n : Nat} (htwins : Twins links a b n) {cs : List Correlation}
    (hmem : (a, cs) ∈ links) (hne : cs ≠ []) {band : Band} (hband : f.primaryBand a = .ok band)
    (hn : band.length = n) (hword : config.target budgets a ≤ wordMax)
    (hv : v = shareFactor (config.target budgets a) (List.replicate n 1) (f.tripsOf band))
    {state state' : Agreement} (hstep : InStep state.factors a b v)
    (hy : (f.agreeOnNode budgets config a cs state).Yields audience state') :
    Alike state'.factors a b v := by
  have hlen : v.length = n := by rw [hv, length_shareFactor, length_tripsOf, hn]
  obtain ⟨band', hband', hturn⟩ := agreeOnNode_yields hy
  rw [hband] at hband'
  cases hband'
  have hchosen : f.share budgets config a
      ((state.factors.get? a).getD (List.replicate band.length 1)) band = v := by
    rcases hstep with ⟨ha, -⟩ | ⟨ha, -⟩
    · have hagain := shareFactor_reseed hword (f.tripsOf band)
      rw [length_tripsOf, hn, ← hv] at hagain
      rw [ha, Option.getD_some, share, hagain]
    · rw [ha, Option.getD_none, share, hn, ← hv]
  rcases hturn with ⟨carried, hget, hmisfit, -⟩ | ⟨base, rfl, -, hcarry⟩
  · -- What it was given fits its band.
    rcases hstep with ⟨ha, -⟩ | ⟨ha, -⟩
    · rw [ha] at hget
      cases hget
      exact absurd (hlen.trans hn.symm) hmisfit
    · rw [ha] at hget
      cases hget
  · rw [hchosen] at hcarry
    have hlinks : ∀ c ∈ cs, c.other a = b ∧ c.carry a v = v := fun c hc =>
      ⟨(htwins.carry hmem hc).1, (htwins.carry hmem hc).2 v hlen⟩
    refine carryOver_alike hne hlinks htwins.distinct ?_ ?_ hcarry
    · rw [OpMap.get?_put, if_pos rfl]
    · rw [OpMap.get?_put, if_neg htwins.distinct.symm]
      exact hstep.imp And.right And.right

/-- **All turns.**  The twins stay in step, and are alike once one of them had its turn. -/
theorem agreeOnNodes_alike {n : Nat} (htwins : Twins links a b n) {bandA bandB : Band}
    (hbandA : f.primaryBand a = .ok bandA) (hbandB : f.primaryBand b = .ok bandB)
    (hn : bandA.length = n) (hshapes : f.tripsOf bandA = f.tripsOf bandB)
    (htarget : config.target budgets a = config.target budgets b)
    (hword : config.target budgets a ≤ wordMax)
    (hv : v = shareFactor (config.target budgets a) (List.replicate n 1) (f.tripsOf bandA)) :
    ∀ {entries : List (OpId × List Correlation)} {state state' : Agreement},
      (∀ e ∈ entries, e ∈ links) → InStep state.factors a b v →
      (Alike state.factors a b v ∨ ∃ e ∈ entries, (e.1 = a ∨ e.1 = b) ∧ e.2 ≠ []) →
      (f.agreeOnNodes budgets config entries state).Yields audience state' →
      Alike state'.factors a b v
  | [], state, state', _, _, hdue, hy => by
    cases Traced.yields_pure.mp hy
    exact hdue.resolve_right fun ⟨_, he, _⟩ => by cases he
  | (node, cs) :: entries, state, state', hsub, hstep, hdue, hy => by
    obtain ⟨hmem, hsub⟩ := List.forall_mem_cons.mp hsub
    have hnB : bandB.length = n := by
      have hlens := congrArg List.length hshapes
      rw [length_tripsOf, length_tripsOf, hn] at hlens
      exact hlens.symm
    rw [agreeOnNodes] at hy
    split at hy
    · rename_i hnil
      refine agreeOnNodes_alike htwins hbandA hbandB hn hshapes htarget hword hv hsub hstep
        (hdue.imp_right ?_) hy
      rintro ⟨e, he, hkey, hne⟩
      rcases List.mem_cons.mp he with rfl | he
      · exact absurd (List.isEmpty_iff.mp hnil) hne
      · exact ⟨e, he, hkey, hne⟩
    · rename_i hsome
      have hne : cs ≠ [] := fun hnil => hsome (List.isEmpty_iff.mpr hnil)
      obtain ⟨state₁, hturn, hy⟩ := Traced.yields_bind.mp hy
      by_cases hkey : node = a ∨ node = b
      · have halike : Alike state₁.factors a b v := by
          rcases hkey with rfl | rfl
          · exact agreeOnNode_alike htwins hmem hne hbandA hn hword hv hstep hturn
          · have hvB : v = shareFactor (config.target budgets node) (List.replicate n 1)
                (f.tripsOf bandB) := by rw [hv, htarget, hshapes]
            exact (agreeOnNode_alike htwins.symm hmem hne hbandB hnB (htarget ▸ hword) hvB
              hstep.symm hturn).symm
        exact agreeOnNodes_alike htwins hbandA hbandB hn hshapes htarget hword hv hsub
          (.inl halike) (.inl halike) hy
      · -- A turn of another node leaves both as they are.
        rw [not_or] at hkey
        have hlead := htwins.apart _ hmem hkey.1 hkey.2
        have hsameA : state₁.factors.get? a = state.factors.get? a :=
          agreeOnNode_get? ⟨hkey.1, fun c hc => (hlead c hc).1⟩ hturn
        have hsameB : state₁.factors.get? b = state.factors.get? b :=
          agreeOnNode_get? ⟨hkey.2, fun c hc => (hlead c hc).2⟩ hturn
        refine agreeOnNodes_alike htwins hbandA hbandB hn hshapes htarget hword hv hsub ?_ ?_ hy
        · rwa [InStep, Alike, hsameA, hsameB]
        · rw [Alike, hsameA, hsameB]
          refine hdue.imp_right ?_
          rintro ⟨e, he, hkey', hne'⟩
          rcases List.mem_cons.mp he with rfl | he
          · rcases hkey' with heq | heq
            · exact absurd heq hkey.1
            · exact absurd heq hkey.2
          · exact ⟨e, he, hkey', hne'⟩

/-- **Sharing out again changes nothing.**  For every goal that is a word, and every shape, a share
made from ones is kept as a base.  Hence two nodes that are correlated with each other only, by
identity maps, and have equal trip counts and equal targets, end with the same factors, whether
these are an even share or a greedy one; and on a function in order, with correlations between its
nodes, agreement does come to an end. -/
theorem reseeding_settles :
    (∀ (goal : Nat) (shape : List (Option Nat)), goal ≤ wordMax →
      shareFactor goal (shareFactor goal (List.replicate shape.length 1) shape) shape =
        shareFactor goal (List.replicate shape.length 1) shape)
    ∧ ∀ (audience : Audience) (f : Func) (budgets : Budgets) (links : Correlations)
        (config : Config) (a b : OpId) (bandA bandB : Band),
      Twins links a b bandA.length →
      f.primaryBand a = .ok bandA → f.primaryBand b = .ok bandB →
      f.tripsOf bandA = f.tripsOf bandB →
      config.target budgets a = config.target budgets b → config.target budgets a ≤ wordMax →
        (∀ agreement, (f.agree budgets links config).Yields audience agreement →
          ∃ factors, agreement.factors.get? a = some factors
            ∧ agreement.factors.get? b = some factors
            ∧ factors = shareFactor (config.target budgets a)
                (List.replicate bandA.length 1) (f.tripsOf bandA))
        ∧ (f.verify = .ok () → Linked f.Participant links →
          ∃ agreement, (f.agree budgets links config).Yields audience agreement) := by
  refine ⟨fun goal shape hword => shareFactor_reseed hword shape, ?_⟩
  intro audience f budgets links config a b bandA bandB htwins hbandA hbandB hshapes htarget hword
  constructor
  · intro agreement hy
    have hranked := links.ranked_perm
    obtain ⟨e, he, hkey, hne⟩ := htwins.joined
    have halike := agreeOnNodes_alike htwins hbandA hbandB rfl hshapes htarget hword rfl
      (fun e he => hranked.mem_iff.mp he) (.inr ⟨rfl, rfl⟩)
      (.inr ⟨e, hranked.mem_iff.mpr he, hkey, hne⟩) hy
    exact ⟨_, halike.1, halike.2, rfl⟩
  · intro hf hlinked
    exact (verify_eq_ok_iff_tidy.mp hf).agree_isOk hlinked

/-- A node that fills a buffer of three rows and two columns, and one that reads it in the same
order. -/
def rowByRow : Func where
  name := "f"
  arguments := []
  body := [0]
  ops := #[
    { id := 0, kind := .schedule { name := "top", increase := none, decrease := none },
      parent := none, body := [1, 2, 6], erased := false },
    { id := 1, kind := .node "a", parent := some 0, body := [3], erased := false },
    { id := 2, kind := .buffer 0 none, parent := some 0, body := [], erased := false },
    { id := 3, kind := .loop (.plain "i" 0 (some 3) 1), parent := some 1, body := [4],
      erased := false },
    { id := 4, kind := .loop (.plain "j" 0 (some 2) 1), parent := some 3, body := [5],
      erased := false },
    { id := 5, kind := .compute { name := "p", reads := [], lanes := [],
                                  writes := [{ memref := 0, indices := [.iv 3, .iv 4] }] },
      parent := some 4, body := [], erased := false },
    { id := 6, kind := .node "b", parent := some 0, body := [7], erased := false },
    { id := 7, kind := .loop (.plain "x" 0 (some 3) 1), parent := some 6, body := [8],
      erased := false },
    { id := 8, kind := .loop (.plain "y" 0 (some 2) 1), parent := some 7, body := [9],
      erased := false },
    { id := 9, kind := .compute { name := "c", writes := [], lanes := [],
                                  reads := [{ memref := 0, indices := [.iv 7, .iv 8] }] },
      parent := some 8, body := [], erased := false }]
  values := #[{ id := 0, name := "T", shape := [3, 2], space := 0, definition := .op 2 }]

/-- The correlations of its two nodes. -/
def rowLinks : Correlations := [(1, [.identity 1 6 2]), (6, [.identity 1 6 2])]

/-- No factors of three and two make five, so both nodes settle for a greedy share, and for the
same. -/
theorem reseeding_settles_rowByRow : rowByRow.verify = .ok ()
    ∧ rowByRow.correlations.Yields none rowLinks
    ∧ Twins rowLinks 1 6 2
    ∧ ∃ agreement factors, (rowByRow.agree [(1, 5), (6, 5)] rowLinks {}).Yields none agreement
        ∧ agreement.factors.get? 1 = some factors ∧ agreement.factors.get? 6 = some factors
        ∧ shareFactor 5 factors [some 3, some 2] = factors := by
  have hverify : rowByRow.verify = .ok () := by decide
  have hlinks : rowByRow.correlations.Yields none rowLinks := ⟨_, rfl⟩
  have htwins : Twins rowLinks 1 6 2 := {
    distinct := by decide
    joined := ⟨(1, [.identity 1 6 2]), by decide, .inl rfl, by decide⟩
    identity := by decide
    apart := by decide }
  obtain ⟨hreseed, htwice⟩ := reseeding_settles
  obtain ⟨halike, hends⟩ := htwice none rowByRow [(1, 5), (6, 5)] rowLinks {} 1 6 [3, 4] [7, 8]
    htwins (by decide) (by decide) (by decide) rfl (by decide)
  obtain ⟨agreement, hy⟩ :=
    hends hverify (correlations_linked (verify_eq_ok_iff_tidy.mp hverify).toNested hlinks)
  obtain ⟨factors, ha, hb, rfl⟩ := halike agreement hy
  exact ⟨hverify, hlinks, htwins, agreement, _, hy, ha, hb, hreseed 5 [some 3, some 2] (by decide)⟩

end Func
end Dataflow
