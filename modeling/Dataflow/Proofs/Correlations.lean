/-
# The correlations of a function

Every pair of nodes is compared once.  So the correlations of a function are those of the pairs of
bands (`BandAccesses.linksAmong`), never two for one pair (`BandAccesses.linksAmong_pairwise`), and
each of them is listed at its two nodes (`Func.Surveyed.correlations_yields`).  What holds of the
map is read off this: the keys are the nodes of the function, and correlations are between them
(`Func.correlations_linked`).
-/
import Dataflow.Proofs.AgreementRuns

namespace Dataflow

/-! ## 1. Pairs of bands -/

/-- True if the node is one of the two. -/
def Correlation.touches (c : Correlation) (node : OpId) : Bool :=
  node == c.first || node == c.second

namespace BandAccesses

variable {a b : BandAccesses}

/-- The correlation of two bands, if there is one. -/
def link? (a b : BandAccesses) : Option Correlation :=
  if a.band.isEmpty || b.band.isEmpty then none
  else (a.matchBands b).map fun forward => .ofForward a.node b.node forward b.band.length

theorem link?_eq_some {c : Correlation} (h : a.link? b = some c) :
    (a.band ≠ [] ∧ b.band ≠ []) ∧ ∃ forward, a.matchBands b = some forward
      ∧ c = .ofForward a.node b.node forward b.band.length := by
  rw [link?, Option.ite_none_left_eq_some, Option.map_eq_some_iff] at h
  obtain ⟨hne, forward, hforward, rfl⟩ := h
  exact ⟨by simpa using hne, forward, hforward, rfl⟩

theorem nodes_of_link? {c : Correlation} (h : a.link? b = some c) :
    c.first = a.node ∧ c.second = b.node := by
  obtain ⟨-, forward, -, rfl⟩ := link?_eq_some h
  exact ⟨rfl, rfl⟩

/-- The correlations of every pair of bands. -/
def linksAmong : List BandAccesses → List Correlation
  | [] => []
  | a :: bs => bs.filterMap a.link? ++ linksAmong bs

/-- Each is of two of the bands, the first before the second. -/
theorem mem_linksAmong : ∀ {bs : List BandAccesses} {c : Correlation}, c ∈ linksAmong bs →
    ∃ a b, [a, b].Sublist bs ∧ a.link? b = some c
  | [], _, hc => by cases hc
  | a :: bs, c, hc => by
    rcases List.mem_append.mp hc with hc | hc
    · obtain ⟨b, hb, hlink⟩ := List.mem_filterMap.mp hc
      exact ⟨a, b, .cons_cons a (List.singleton_sublist.mpr hb), hlink⟩
    · obtain ⟨x, y, hsub, hlink⟩ := mem_linksAmong hc
      exact ⟨x, y, .cons a hsub, hlink⟩

/-- Where the bands are of different nodes, a node has at most one correlation with another. -/
theorem linksAmong_pairwise (node : OpId) : ∀ {bs : List BandAccesses},
    (bs.map BandAccesses.node).Nodup →
      (linksAmong bs).Pairwise fun c d => c.touches node → d.touches node →
        c.other node ≠ d.other node
  | [], _ => .nil
  | a :: bs, hnd => by
    obtain ⟨hfresh, hnd⟩ := List.nodup_cons.mp hnd
    refine List.pairwise_append.mpr
      ⟨List.pairwise_filterMap.mpr ?_, linksAmong_pairwise node hnd, ?_⟩
    · -- Of correlations of one band, the nodes on the other side are different.
      refine (List.pairwise_map.mp hnd).imp fun {b b'} hne c hc d hd hcn hdn => ?_
      obtain ⟨hfirst, hsecond⟩ := nodes_of_link? hc
      obtain ⟨hfirst', hsecond'⟩ := nodes_of_link? hd
      simp only [Correlation.touches, hfirst, hsecond, hfirst', hsecond', Bool.or_eq_true,
        beq_iff_eq] at hcn hdn
      by_cases heq : node = a.node
      · simpa [Correlation.other, heq, hfirst, hsecond, hfirst', hsecond'] using hne
      · exact absurd ((hcn.resolve_left heq).symm.trans (hdn.resolve_left heq)) hne
    · -- The node of the first band is in no later correlation.
      intro c hc d hd hcn hdn
      obtain ⟨b, hb, hc⟩ := List.mem_filterMap.mp hc
      obtain ⟨x, y, hsub, hd⟩ := mem_linksAmong hd
      obtain ⟨hfirst, hsecond⟩ := nodes_of_link? hc
      obtain ⟨hfirst', hsecond'⟩ := nodes_of_link? hd
      have hx : a.node ≠ x.node := fun heq =>
        hfresh (heq ▸ List.mem_map_of_mem (hsub.subset (by simp)))
      have hy : a.node ≠ y.node := fun heq =>
        hfresh (heq ▸ List.mem_map_of_mem (hsub.subset (by simp)))
      simp only [Correlation.touches, hfirst', hsecond', Bool.or_eq_true, beq_iff_eq] at hdn
      by_cases heq : node = a.node
      · rw [heq] at hdn
        exact absurd hdn (not_or.mpr ⟨hx, hy⟩)
      · simp only [Correlation.other, hfirst, heq, if_false, hfirst', hsecond']
        split
        · exact hy
        · exact hx

end BandAccesses

/-! ## 2. Maps of correlations -/

namespace Correlations

/-- The map with correlations added to the lists of their nodes. -/
def addLinks (m : Correlations) (cs : List Correlation) : Correlations :=
  m.map fun e => (e.1, e.2 ++ cs.filter (·.touches e.1))

/-- The map that lists each correlation at its two nodes. -/
def listed (nodes : List OpId) (cs : List Correlation) : Correlations :=
  nodes.map fun node => (node, cs.filter (·.touches node))

theorem addLinks_start (bands : List BandAccesses) (cs : List Correlation) :
    addLinks (bands.map fun b => (b.node, [])) cs = listed (bands.map BandAccesses.node) cs := by
  simp [addLinks, listed, Function.comp_def]

/-- The correlations that the map lists for a node. -/
def linksOf (m : Correlations) (node : OpId) : List Correlation := (m.get? node).getD []

@[simp] theorem map_fst_listed (nodes : List OpId) (cs : List Correlation) :
    (listed nodes cs).map Prod.fst = nodes := by simp [listed, Function.comp_def]

theorem linksOf_listed {nodes : List OpId} (hnd : nodes.Nodup) {node : OpId} (hnode : node ∈ nodes)
    (cs : List Correlation) : (listed nodes cs).linksOf node = cs.filter (·.touches node) := by
  have hget : (listed nodes cs).get? node = some (cs.filter (·.touches node)) :=
    OpMap.get?_of_mem (by simpa using hnd) (List.mem_map_of_mem hnode)
  rw [linksOf, hget, Option.getD_some]

theorem linksOf_of_notMem {m : Correlations} {node : OpId} (h : node ∉ m.map Prod.fst) :
    m.linksOf node = [] := by
  have hnone : m.get? node = none := by
    refine Option.map_eq_none_iff.mpr (List.find?_eq_none.mpr fun e he heq => h ?_)
    exact List.mem_map.mpr ⟨e, he, by simpa using heq⟩
  rw [linksOf, hnone, Option.getD_none]

@[simp] theorem addLinks_nil (m : Correlations) : m.addLinks [] = m := by simp [addLinks]

theorem addLinks_addLinks (m : Correlations) (cs ds : List Correlation) :
    (m.addLinks cs).addLinks ds = m.addLinks (cs ++ ds) := by
  simp [addLinks, List.append_assoc]

theorem update_update_eq_addLinks (m : Correlations) {c : Correlation} (hne : c.first ≠ c.second) :
    (m.update c.first (· ++ [c])).update c.second (· ++ [c]) = m.addLinks [c] := by
  rw [OpMap.update, OpMap.update, List.map_map, addLinks]
  refine List.map_congr_left fun e _ => ?_
  by_cases hfirst : e.1 = c.first
  · simp [Correlation.touches, hfirst, hne]
  · by_cases hsecond : e.1 = c.second <;>
      simp [Correlation.touches, hfirst, hsecond, hne.symm]

end Correlations

namespace OpMap

variable {α : Type}

/-- A new key is put in at the end. -/
theorem put_of_notMem {id : OpId} (a : α) : ∀ {m : OpMap α}, id ∉ m.map Prod.fst →
    m.put id a = m ++ [(id, a)]
  | [], _ => rfl
  | e :: m, hid => by
    simp only [List.map_cons, List.mem_cons, not_or] at hid
    rw [put, if_neg (Ne.symm hid.1), put_of_notMem a hid.2, List.cons_append]

theorem foldl_put_of_nodup : ∀ {es : List (OpId × α)} {m : OpMap α},
    ((m ++ es).map Prod.fst).Nodup → es.foldl (fun m e => put m e.1 e.2) m = m ++ es
  | [], m, _ => (List.append_nil m).symm
  | e :: es, m, hnd => by
    have hfresh : e.1 ∉ m.map Prod.fst := by
      rw [List.map_append, List.nodup_append] at hnd
      exact fun hmem => hnd.2.2 e.1 hmem e.1 (by simp) rfl
    have hsplit : m ++ e :: es = (m ++ [e]) ++ es := by simp
    rw [List.foldl_cons, put_of_notMem e.2 hfresh, hsplit]
    exact foldl_put_of_nodup (hsplit ▸ hnd)

/-- Entries with different keys are the map that they build. -/
theorem ofEntries_of_nodup {es : List (OpId × α)} (h : (es.map Prod.fst).Nodup) :
    ofEntries es = es := foldl_put_of_nodup (m := []) h

end OpMap

namespace Func

variable {f : Func} {audience : Audience}

/-! ## 3. Comparing all pairs -/

theorem correlatePair_yields {a b : BandAccesses} (ha : f.Participant a.node)
    (hb : f.Participant b.node) (hne : a.node ≠ b.node) (m : Correlations) :
    (f.correlatePair a b m).Yields audience (m.addLinks (a.link? b).toList) := by
  unfold correlatePair BandAccesses.link?
  split
  · simp
  · cases a.matchBands b with
    | none => simp
    | some forward =>
      obtain ⟨texta, htexta⟩ := ha.label_isOk
      obtain ⟨textb, htextb⟩ := hb.label_isOk
      refine Traced.yields_bind.mpr ⟨(), Traced.yields_note.mpr fun _ => ?_,
        Traced.yields_pure.mpr ?_⟩
      · rw [htexta, htextb]
        exact ⟨_, rfl⟩
      · exact Correlations.update_update_eq_addLinks m (c := .ofForward a.node b.node forward _) hne

/-- One band is compared with each of the others... -/
theorem correlateWith_yields {a : BandAccesses} (ha : f.Participant a.node) :
    ∀ {bs : List BandAccesses} {m : Correlations},
      (∀ b ∈ bs, f.Participant b.node ∧ a.node ≠ b.node) →
      (f.correlateWith a bs m).Yields audience (m.addLinks (bs.filterMap a.link?))
  | [], m, _ => by simp [correlateWith]
  | b :: bs, m, h => by
    obtain ⟨⟨hb, hne⟩, h⟩ := List.forall_mem_cons.mp h
    refine Traced.yields_bind.mpr ⟨_, correlatePair_yields ha hb hne m, ?_⟩
    have hsplit : (b :: bs).filterMap a.link? = (a.link? b).toList ++ bs.filterMap a.link? := by
      cases hlink : a.link? b <;> simp [hlink]
    rw [hsplit, ← Correlations.addLinks_addLinks]
    exact correlateWith_yields ha h

/-- ...and **the correlations of all pairs are added** in the end. -/
theorem correlateAll_yields : ∀ {bs : List BandAccesses} {m : Correlations},
    (∀ b ∈ bs, f.Participant b.node) → (bs.map BandAccesses.node).Nodup →
      (f.correlateAll bs m).Yields audience (m.addLinks (BandAccesses.linksAmong bs))
  | [], m, _, _ => by simp [correlateAll, BandAccesses.linksAmong]
  | a :: bs, m, h, hnd => by
    obtain ⟨ha, h⟩ := List.forall_mem_cons.mp h
    obtain ⟨hfresh, hnd⟩ := List.nodup_cons.mp hnd
    have hothers : ∀ b ∈ bs, f.Participant b.node ∧ a.node ≠ b.node := fun b hb =>
      ⟨h b hb, fun heq => hfresh (heq ▸ List.mem_map_of_mem hb)⟩
    refine Traced.yields_bind.mpr ⟨_, correlateWith_yields ha hothers, ?_⟩
    rw [BandAccesses.linksAmong, ← Correlations.addLinks_addLinks]
    exact correlateAll_yields h hnd

theorem bandAccesses_eq_ok {node : OpId} {b : BandAccesses} (h : f.bandAccesses node = .ok b) :
    b.node = node ∧ f.primaryBand node = .ok b.band := by
  obtain ⟨band, hband, h⟩ := Checked.bind_eq_ok.mp h
  cases band with
  | nil =>
    cases h
    exact ⟨rfl, hband⟩
  | cons outermost _ =>
    obtain ⟨_, -, h⟩ := Checked.bind_eq_ok.mp h
    obtain ⟨_, -, h⟩ := Checked.bind_eq_ok.mp h
    obtain ⟨_, -, h⟩ := Checked.bind_eq_ok.mp h
    cases h
    exact ⟨rfl, hband⟩

/-- The nodes of the function, and the bands found for them. -/
structure Surveyed (f : Func) (nodes : List OpId) (bands : List BandAccesses) : Prop where
  nodes_eq : f.nodes = .ok nodes
  distinct : nodes.Nodup
  keys : bands.map BandAccesses.node = nodes
  found : ∀ b ∈ bands, f.Participant b.node ∧ f.bandAccesses b.node = .ok b

theorem surveyed_of_allBandAccesses (hn : f.Nested) {bands : List BandAccesses}
    (hbands : f.allBandAccesses = .ok bands) : ∃ nodes, f.Surveyed nodes bands := by
  obtain ⟨nodes, hnodes, hdistinct⟩ := hn.findAll_isOk (·.kind.isNode)
  have hmap : nodes.mapM f.bandAccesses = .ok bands := by
    rwa [allBandAccesses, show f.nodes = .ok nodes from hnodes, Checked.ok_bind] at hbands
  have hall := Checked.mapM_eq_ok.mp hmap
  refine ⟨nodes, hnodes, hdistinct, ?_, fun b hb => ?_⟩
  · clear hbands hmap hnodes hdistinct
    induction hall with
    | nil => rfl
    | cons hb _ ih => rw [List.map_cons, ih, (bandAccesses_eq_ok hb).1]
  · obtain ⟨node, hnode, hb⟩ := Checked.forall₂_left hall hb
    obtain ⟨rfl, -⟩ := bandAccesses_eq_ok hb
    exact ⟨(hn.mem_findAll hnodes).mp hnode, hb⟩

section Surveyed

variable {nodes : List OpId} {bands : List BandAccesses}

/-- A correlation of two of the bands is between two different nodes. -/
theorem Surveyed.of_mem_linksAmong (h : f.Surveyed nodes bands) {c : Correlation}
    (hc : c ∈ BandAccesses.linksAmong bands) :
    ∃ a ∈ bands, ∃ b ∈ bands, a.link? b = some c ∧ a.node ≠ b.node
      ∧ c.first ∈ nodes ∧ c.second ∈ nodes := by
  obtain ⟨a, b, hsub, hlink⟩ := BandAccesses.mem_linksAmong hc
  obtain ⟨hfirst, hsecond⟩ := BandAccesses.nodes_of_link? hlink
  have ha : a ∈ bands := hsub.subset (by simp)
  have hb : b ∈ bands := hsub.subset (by simp)
  refine ⟨a, ha, b, hb, hlink, ?_, ?_, ?_⟩
  · have hpair := (h.keys ▸ h.distinct).sublist (hsub.map BandAccesses.node)
    simpa using hpair
  · exact h.keys ▸ hfirst ▸ List.mem_map_of_mem ha
  · exact h.keys ▸ hsecond ▸ List.mem_map_of_mem hb

/-- Both nodes of a correlation list it, and no other node does. -/
theorem Surveyed.mem_linksOf (h : f.Surveyed nodes bands) {node : OpId} {c : Correlation} :
    c ∈ (Correlations.listed nodes (BandAccesses.linksAmong bands)).linksOf node ↔
      c ∈ BandAccesses.linksAmong bands ∧ c.touches node := by
  by_cases hnode : node ∈ nodes
  · rw [Correlations.linksOf_listed h.distinct hnode, List.mem_filter]
  · rw [Correlations.linksOf_of_notMem (by simpa using hnode)]
    refine ⟨fun hc => absurd hc List.not_mem_nil, fun ⟨hc, htouch⟩ => absurd ?_ hnode⟩
    obtain ⟨-, -, -, -, -, -, hfirst, hsecond⟩ := h.of_mem_linksAmong hc
    simp only [Correlation.touches, Bool.or_eq_true, beq_iff_eq] at htouch
    rcases htouch with rfl | rfl
    · exact hfirst
    · exact hsecond

/-- A node lists at most one correlation with another. -/
theorem Surveyed.nodup_others (h : f.Surveyed nodes bands) (node : OpId) :
    (((Correlations.listed nodes (BandAccesses.linksAmong bands)).linksOf node).map
      (·.other node)).Nodup := by
  by_cases hnode : node ∈ nodes
  · rw [Correlations.linksOf_listed h.distinct hnode, List.Nodup, List.pairwise_map,
      List.pairwise_filter]
    exact BandAccesses.linksAmong_pairwise node (h.keys ▸ h.distinct)
  · rw [Correlations.linksOf_of_notMem (by simpa using hnode)]
    exact List.nodup_nil

/-- **The correlations of a function** are those of its pairs of nodes, listed at both. -/
theorem Surveyed.correlations_yields (audience : Audience) (h : f.Surveyed nodes bands)
    (hbands : f.allBandAccesses = .ok bands) :
    f.correlations.Yields audience
      (Correlations.listed nodes (BandAccesses.linksAmong bands)) := by
  rw [correlations, Traced.yields_lift_bind hbands, OpMap.ofEntries_of_nodup]
  · rw [← h.keys, ← Correlations.addLinks_start]
    exact correlateAll_yields (fun b hb => (h.found b hb).1) (h.keys ▸ h.distinct)
  · simpa [Function.comp_def, h.keys] using h.distinct

end Surveyed

theorem of_correlations (hn : f.Nested) {m : Correlations}
    (hm : f.correlations.Yields audience m) :
    ∃ nodes bands, f.Surveyed nodes bands
      ∧ m = Correlations.listed nodes (BandAccesses.linksAmong bands) := by
  obtain ⟨bands, hbands, -⟩ := Traced.yields_bind.mp hm
  rw [Traced.yields_lift] at hbands
  obtain ⟨nodes, hsurvey⟩ := surveyed_of_allBandAccesses hn hbands
  exact ⟨nodes, bands, hsurvey, hm.unique (hsurvey.correlations_yields audience hbands)⟩

/-- **Correlations are between nodes of the function.** -/
theorem correlations_linked (hn : f.Nested) {m : Correlations}
    (h : f.correlations.Yields audience m) : Linked f.Participant m := by
  obtain ⟨nodes, bands, hsurvey, rfl⟩ := of_correlations hn h
  have hnode : ∀ node ∈ nodes, f.Participant node := by
    intro node hnode
    obtain ⟨b, hb, rfl⟩ := List.mem_map.mp (hsurvey.keys ▸ hnode)
    exact (hsurvey.found b hb).1
  intro e he
  obtain ⟨node, hmem, rfl⟩ := List.mem_map.mp he
  refine ⟨hnode node hmem, fun c hc => ?_⟩
  obtain ⟨-, -, -, -, -, -, hfirst, hsecond⟩ :=
    hsurvey.of_mem_linksAmong (List.mem_filter.mp hc).1
  exact ⟨hnode _ hfirst, hnode _ hsecond⟩

end Func
end Dataflow
