/-
# Taking computations apart

A checked computation over a list gives a result when every step of it does, and then the result
is made of those of the steps.  A traced computation gives a result for an audience in the same
way, whatever it says on the way: `Traced.Yields` leaves the journal out.
-/
import Mathlib.Data.List.Forall2
import Dataflow.Journal

namespace Dataflow

/-! ## 1. Checked computations over lists -/

namespace Checked

variable {α β : Type}

/-- A map gives the results of its steps. -/
theorem mapM_eq_ok {k : α → Checked β} : ∀ {l : List α} {bs : List β},
    l.mapM k = .ok bs ↔ List.Forall₂ (fun a b => k a = .ok b) l bs
  | [], bs => by simp [eq_comm]
  | a :: l, bs => by
    rw [List.mapM_cons, bind_eq_ok, List.forall₂_cons_left_iff]
    constructor
    · rintro ⟨b, hb, h⟩
      obtain ⟨bs', hbs', h⟩ := bind_eq_ok.mp h
      cases h
      exact ⟨b, bs', hb, mapM_eq_ok.mp hbs', rfl⟩
    · rintro ⟨b, bs', hb, hbs', rfl⟩
      exact ⟨b, hb, bind_eq_ok.mpr ⟨bs', mapM_eq_ok.mpr hbs', rfl⟩⟩

/-- A map whose steps all give a result gives one. -/
theorem mapM_isOk {k : α → Checked β} {l : List α} (h : ∀ a ∈ l, ∃ b, k a = .ok b) :
    ∃ bs, l.mapM k = .ok bs := by
  induction l with
  | nil => exact ⟨[], rfl⟩
  | cons a l ih =>
    obtain ⟨b, hb⟩ := h a List.mem_cons_self
    obtain ⟨bs, hbs⟩ := ih fun x hx => h x (List.mem_cons_of_mem a hx)
    exact ⟨b :: bs, mapM_eq_ok.mpr (.cons hb (mapM_eq_ok.mp hbs))⟩

/-- Of two lists related place by place, what is in the second has a partner in the first... -/
theorem forall₂_left {R : α → β → Prop} {l : List α} {bs : List β} (h : List.Forall₂ R l bs)
    {b : β} (hb : b ∈ bs) : ∃ a ∈ l, R a b := by
  induction h with
  | nil => cases hb
  | @cons a b' l bs hab _ ih =>
    rcases List.mem_cons.mp hb with rfl | hb
    · exact ⟨a, List.mem_cons_self, hab⟩
    · obtain ⟨x, hx, hR⟩ := ih hb
      exact ⟨x, List.mem_cons_of_mem a hx, hR⟩

/-- ...and the other way round. -/
theorem forall₂_right {R : α → β → Prop} {l : List α} {bs : List β} (h : List.Forall₂ R l bs)
    {a : α} (ha : a ∈ l) : ∃ b ∈ bs, R a b := by
  obtain ⟨b, hb, hR⟩ := forall₂_left h.flip ha
  exact ⟨b, hb, hR⟩

/-- A relation between the results of elements that are pairwise related holds pairwise of all
results. -/
theorem pairwise_of_forall₂ {R : α → β → Prop} {Q : α → α → Prop} {S : β → β → Prop} {l : List α}
    {bs : List β} (h : List.Forall₂ R l bs) (hl : l.Pairwise Q)
    (hstep : ∀ a a' b b', a ∈ l → a' ∈ l → Q a a' → R a b → R a' b' → S b b') :
    bs.Pairwise S := by
  induction h with
  | nil => exact .nil
  | @cons a b l bs hab hrest ih =>
    obtain ⟨ha, hl⟩ := List.pairwise_cons.mp hl
    refine .cons (fun b' hb' => ?_) (ih hl fun x x' y y' hx hx' =>
      hstep x x' y y' (List.mem_cons_of_mem a hx) (List.mem_cons_of_mem a hx'))
    obtain ⟨a', ha', hab'⟩ := forall₂_left hrest hb'
    exact hstep a a' b b' List.mem_cons_self (List.mem_cons_of_mem a ha') (ha a' ha') hab hab'

theorem filterAuxM_eq_ok {p : α → Checked Bool} : ∀ {l acc kept : List α},
    l.filterAuxM p acc = .ok kept →
      kept = (l.filter fun a => (p a).toOption.getD false).reverse ++ acc
        ∧ ∀ a ∈ l, ∃ b, p a = .ok b
  | [], acc, kept, h => by
    cases h
    simp
  | a :: l, acc, kept, h => by
    rw [List.filterAuxM] at h
    obtain ⟨b, hb, h⟩ := bind_eq_ok.mp h
    obtain ⟨hkept, hall⟩ := filterAuxM_eq_ok h
    refine ⟨?_, List.forall_mem_cons.mpr ⟨⟨b, hb⟩, hall⟩⟩
    cases b <;> simp [hkept, hb, Except.toOption]

/-- **A filter keeps what its test holds of, in order.** -/
theorem filterM_eq_ok {p : α → Checked Bool} {l kept : List α} (h : l.filterM p = .ok kept) :
    kept = (l.filter fun a => (p a).toOption.getD false) ∧ ∀ a ∈ l, ∃ b, p a = .ok b := by
  rw [List.filterM] at h
  obtain ⟨acc, hacc, h⟩ := bind_eq_ok.mp h
  cases h
  obtain ⟨rfl, hall⟩ := filterAuxM_eq_ok hacc
  exact ⟨by simp, hall⟩

theorem filterAuxM_of_ok {p : α → Checked Bool} {q : α → Bool} : ∀ {l acc : List α},
    (∀ a ∈ l, p a = .ok (q a)) → l.filterAuxM p acc = .ok ((l.filter q).reverse ++ acc)
  | [], acc, _ => rfl
  | a :: l, acc, h => by
    obtain ⟨ha, hl⟩ := List.forall_mem_cons.mp h
    rw [List.filterAuxM, ha, ok_bind, filterAuxM_of_ok hl]
    cases hq : q a <;> simp [hq]

/-- A filter gives a result when its tests do. -/
theorem filterM_of_ok {p : α → Checked Bool} {q : α → Bool} {l : List α}
    (h : ∀ a ∈ l, p a = .ok (q a)) : l.filterM p = .ok (l.filter q) := by
  rw [List.filterM, filterAuxM_of_ok h, ok_bind]
  simp

theorem mem_filterM {p : α → Checked Bool} {l kept : List α} (h : l.filterM p = .ok kept) {a : α} :
    a ∈ kept ↔ a ∈ l ∧ p a = .ok true := by
  obtain ⟨rfl, hall⟩ := filterM_eq_ok h
  rw [List.mem_filter]
  refine and_congr_right fun ha => ?_
  obtain ⟨b, hb⟩ := hall a ha
  simp [hb, Except.toOption]

theorem filterM_sublist {p : α → Checked Bool} {l kept : List α} (h : l.filterM p = .ok kept) :
    kept.Sublist l := by
  rw [(filterM_eq_ok h).1]
  exact List.filter_sublist

theorem allM_eq_true {p : α → Checked Bool} : ∀ {l : List α},
    l.allM p = .ok true ↔ ∀ a ∈ l, p a = .ok true
  | [] => by simp [List.allM]
  | a :: l => by
    rw [List.allM, bind_eq_ok, List.forall_mem_cons]
    constructor
    · rintro ⟨b, hb, h⟩
      cases b with
      | false => cases h
      | true => exact ⟨hb, allM_eq_true.mp h⟩
    · rintro ⟨ha, hl⟩
      exact ⟨true, ha, allM_eq_true.mpr hl⟩

/-- A test of every element of a list gives an answer if each of its tests does. -/
theorem allM_isOk {p : α → Checked Bool} : ∀ {l : List α}, (∀ a ∈ l, ∃ b, p a = .ok b) →
    ∃ b, l.allM p = .ok b
  | [], _ => ⟨true, rfl⟩
  | a :: l, h => by
    obtain ⟨b, hb⟩ := h a List.mem_cons_self
    rw [List.allM, hb, ok_bind]
    cases b with
    | false => exact ⟨false, rfl⟩
    | true => exact allM_isOk fun x hx => h x (List.mem_cons_of_mem a hx)

/-- What a search finds is in the list, and the test holds of it. -/
theorem of_findM?_eq_some {p : α → Checked Bool} : ∀ {l : List α} {a : α},
    l.findM? p = .ok (some a) → a ∈ l ∧ p a = .ok true
  | [], _, h => by cases h
  | x :: l, a, h => by
    rw [List.findM?] at h
    obtain ⟨b, hb, h⟩ := bind_eq_ok.mp h
    cases b with
    | true =>
      cases h
      exact ⟨List.mem_cons_self, hb⟩
    | false =>
      obtain ⟨ha, hp⟩ := of_findM?_eq_some h
      exact ⟨List.mem_cons_of_mem x ha, hp⟩

/-- A search that finds nothing has tested everything. -/
theorem of_findM?_eq_none {p : α → Checked Bool} : ∀ {l : List α}, l.findM? p = .ok none →
    ∀ a ∈ l, p a = .ok false
  | [], _, _, ha => by cases ha
  | x :: l, h, a, ha => by
    rw [List.findM?] at h
    obtain ⟨b, hb, h⟩ := bind_eq_ok.mp h
    cases b with
    | true => cases h
    | false =>
      rcases List.mem_cons.mp ha with rfl | ha
      · exact hb
      · exact of_findM?_eq_none h a ha

theorem of_anyM_eq_false {p : α → Checked Bool} : ∀ {l : List α}, l.anyM p = .ok false →
    ∀ a ∈ l, p a = .ok false
  | [], _, _, ha => by cases ha
  | x :: l, h, a, ha => by
    rw [List.anyM] at h
    obtain ⟨b, hb, h⟩ := bind_eq_ok.mp h
    cases b with
    | true => cases h
    | false =>
      rcases List.mem_cons.mp ha with rfl | ha
      · exact hb
      · exact of_anyM_eq_false h a ha

/-- Results of other steps, one for each that was had. -/
theorem exists_forall₂ {γ : Type} {A : α → β → Prop} {B : α → γ → Prop} {S : γ → β → Prop}
    {l : List α} {bs : List β} (h : List.Forall₂ A l bs)
    (hstep : ∀ a ∈ l, ∀ b, A a b → ∃ c, B a c ∧ S c b) :
    ∃ cs, List.Forall₂ B l cs ∧ List.Forall₂ S cs bs := by
  induction h with
  | nil => exact ⟨[], .nil, .nil⟩
  | @cons a b l bs hab _ ih =>
    obtain ⟨hfirst, hrest⟩ := List.forall_mem_cons.mp hstep
    obtain ⟨c, hac, hcb⟩ := hfirst b hab
    obtain ⟨cs, hB, hS⟩ := ih hrest
    exact ⟨c :: cs, .cons hac hB, .cons hcb hS⟩

/-- Tests that agree place by place agree on the lists. -/
theorem allM_congr {p : α → Checked Bool} {q : β → Checked Bool} {l : List α} {l' : List β}
    (h : List.Forall₂ (fun a b => p a = q b) l l') : l.allM p = l'.allM q := by
  induction h with
  | nil => rfl
  | cons hab _ ih => rw [List.allM, List.allM, hab, ih]

theorem findM?_isOk {p : α → Checked Bool} : ∀ {l : List α}, (∀ a ∈ l, ∃ b, p a = .ok b) →
    ∃ found, l.findM? p = .ok found
  | [], _ => ⟨none, rfl⟩
  | a :: l, h => by
    obtain ⟨b, hb⟩ := h a List.mem_cons_self
    rw [List.findM?, hb, ok_bind]
    cases b with
    | true => exact ⟨some a, rfl⟩
    | false => exact findM?_isOk fun x hx => h x (List.mem_cons_of_mem a hx)

/-- A map that leaves some out gives the results of those it does not. -/
theorem filterMapM_eq_ok {k : α → Checked (Option β)} : ∀ {l : List α} {bs : List β},
    l.filterMapM k = .ok bs ↔
      ∃ os, List.Forall₂ (fun a o => k a = .ok o) l os ∧ bs = os.filterMap id
  | [], bs => by simp [eq_comm]
  | a :: l, bs => by
    simp only [List.filterMapM_cons, bind_eq_ok, List.forall₂_cons_left_iff]
    constructor
    · rintro ⟨o, ho, h⟩
      cases o with
      | none =>
        obtain ⟨os, hos, rfl⟩ := filterMapM_eq_ok.mp h
        exact ⟨none :: os, ⟨none, os, ho, hos, rfl⟩, rfl⟩
      | some b =>
        obtain ⟨bs', hbs', h⟩ := bind_eq_ok.mp h
        cases h
        obtain ⟨os, hos, rfl⟩ := filterMapM_eq_ok.mp hbs'
        exact ⟨some b :: os, ⟨some b, os, ho, hos, rfl⟩, rfl⟩
    · rintro ⟨_, ⟨o, os, ho, hos, rfl⟩, rfl⟩
      refine ⟨o, ho, ?_⟩
      cases o with
      | none => exact filterMapM_eq_ok.mpr ⟨os, hos, rfl⟩
      | some b => exact bind_eq_ok.mpr ⟨_, filterMapM_eq_ok.mpr ⟨os, hos, rfl⟩, rfl⟩

theorem filterMapM_isOk {k : α → Checked (Option β)} {l : List α}
    (h : ∀ a ∈ l, ∃ o, k a = .ok o) : ∃ bs, l.filterMapM k = .ok bs := by
  obtain ⟨os, hos⟩ := mapM_isOk h
  exact ⟨os.filterMap id, filterMapM_eq_ok.mpr ⟨os, mapM_eq_ok.mp hos, rfl⟩⟩

/-- A map that leaves some out, when its steps are known. -/
theorem filterMapM_eq_filterMap {k : α → Checked (Option β)} {p : α → Option β}
    (hk : ∀ a o, k a = .ok o → o = p a) {l : List α} {bs : List β} (h : l.filterMapM k = .ok bs) :
    bs = l.filterMap p := by
  obtain ⟨os, hos, rfl⟩ := filterMapM_eq_ok.mp h
  clear h
  induction hos with
  | nil => rfl
  | @cons a o _ _ ho _ ih => rw [List.filterMap_cons, List.filterMap_cons, ← hk a o ho, id, ih]

end Checked

/-! ## 2. Traced computations -/

namespace Traced

variable {α β : Type}

/-- `x.Yields audience a`: told to the audience, `x` gives `a`. -/
def Yields (audience : Audience) (x : Traced α) (a : α) : Prop :=
  ∃ journal, x.run audience = .ok (a, journal)

variable {audience : Audience}

/-- Told to one audience, a computation gives one result. -/
theorem Yields.unique {x : Traced α} {a b : α} (ha : x.Yields audience a)
    (hb : x.Yields audience b) : a = b := by
  obtain ⟨_, ha⟩ := ha
  obtain ⟨_, hb⟩ := hb
  rw [ha] at hb
  cases hb
  rfl

@[simp] theorem yields_pure {a b : α} : (pure a : Traced α).Yields audience b ↔ a = b := by
  constructor
  · rintro ⟨journal, h⟩
    cases h
    rfl
  · rintro rfl
    exact ⟨[], rfl⟩

@[simp] theorem yields_lift {x : Checked α} {a : α} :
    (liftM x : Traced α).Yields audience a ↔ x = .ok a := by
  constructor
  · rintro ⟨journal, h⟩
    cases x with
    | error e => cases h
    | ok b =>
      cases h
      rfl
  · rintro rfl
    exact ⟨[], rfl⟩

/-- A sequence gives a result when its first part does and the rest does from there. -/
@[simp] theorem yields_bind {x : Traced α} {k : α → Traced β} {b : β} :
    (x >>= k).Yields audience b ↔ ∃ a, x.Yields audience a ∧ (k a).Yields audience b := by
  constructor
  · rintro ⟨journal, h⟩
    obtain ⟨⟨a, before⟩, ha, h⟩ := Checked.bind_eq_ok.mp h
    obtain ⟨⟨b', after⟩, hb, h⟩ := Checked.bind_eq_ok.mp h
    cases h
    exact ⟨a, ⟨before, ha⟩, ⟨after, hb⟩⟩
  · rintro ⟨a, ⟨before, ha⟩, ⟨after, hb⟩⟩
    exact ⟨before ++ after, Checked.bind_eq_ok.mpr
      ⟨(a, before), ha, Checked.bind_eq_ok.mpr ⟨(b, after), hb, rfl⟩⟩⟩

/-- A checked computation at the start of a sequence. -/
theorem yields_lift_bind {x : Checked α} {k : α → Traced β} {a : α} {b : β} (hx : x = .ok a) :
    (liftM x >>= k : Traced β).Yields audience b ↔ (k a).Yields audience b := by
  simp [hx]

/-- A journal entry stops nothing, unless it is heard and cannot be put together. -/
theorem yields_note {level : Level} {topic : String} {message : Checked String} {u : Unit} :
    (note level topic message).Yields audience u ↔
      (Audience.hears audience level = true → ∃ text, message = .ok text) := by
  unfold Yields note
  by_cases hh : Audience.hears audience level = true
  · simp only [hh, if_true, forall_const]
    cases message with
    | error e =>
      constructor
      · rintro ⟨_, h⟩
        cases h
      · rintro ⟨_, h⟩
        cases h
    | ok text => exact ⟨fun _ => ⟨text, rfl⟩, fun _ => ⟨_, rfl⟩⟩
  · simp [hh]

@[simp] theorem yields_say {level : Level} {topic message : String} {u : Unit} :
    (say level topic message).Yields audience u := yields_note.mpr fun _ => ⟨message, rfl⟩

/-- `x.Faults audience fault`: told to the audience, `x` is stopped by the fault. -/
def Faults (audience : Audience) (x : Traced α) (fault : Fault) : Prop :=
  x.run audience = .error fault

theorem yields_or_faults (audience : Audience) (x : Traced α) :
    (∃ a, x.Yields audience a) ∨ ∃ fault, x.Faults audience fault := by
  cases hrun : x.run audience with
  | ok r => exact .inl ⟨r.1, r.2, hrun⟩
  | error fault => exact .inr ⟨fault, hrun⟩

theorem Yields.not_faults {x : Traced α} {a : α} {fault : Fault} (h : x.Yields audience a) :
    ¬ x.Faults audience fault := by
  rintro hfault
  obtain ⟨journal, h⟩ := h
  rw [Faults, h] at hfault
  cases hfault

theorem Faults.unique {x : Traced α} {e e' : Fault} (h : x.Faults audience e)
    (h' : x.Faults audience e') : e = e' := by
  rw [Faults, h] at h'
  cases h'
  rfl

theorem faults_lift_bind {x : Checked α} {k : α → Traced β} {fault : Fault}
    (hx : x = .error fault) : (liftM x >>= k : Traced β).Faults audience fault := by
  rw [hx]
  rfl

/-- A fault in the first part stops a sequence. -/
theorem Faults.bind {x : Traced α} {fault : Fault} (h : x.Faults audience fault)
    (k : α → Traced β) : (x >>= k).Faults audience fault := by
  show (Traced.bind x k).Faults audience fault
  rw [Faults] at h
  simp only [Faults, Traced.bind, h]
  rfl

/-- `x.Agrees audience y`: told to the audience, `x` and `y` end alike. -/
def Agrees (audience : Audience) (x y : Traced α) : Prop :=
  (∀ a, x.Yields audience a ↔ y.Yields audience a)
    ∧ ∀ fault, x.Faults audience fault ↔ y.Faults audience fault

theorem Agrees.refl (x : Traced α) : x.Agrees audience x := ⟨fun _ => Iff.rfl, fun _ => Iff.rfl⟩

theorem Agrees.trans {x y z : Traced α} (hxy : x.Agrees audience y) (hyz : y.Agrees audience z) :
    x.Agrees audience z :=
  ⟨fun a => (hxy.1 a).trans (hyz.1 a), fun fault => (hxy.2 fault).trans (hyz.2 fault)⟩

/-- A sequence ends like what follows its first part, if that gives a result. -/
theorem Yields.agrees_bind {x : Traced α} {a : α} (hx : x.Yields audience a) (k : α → Traced β) :
    (x >>= k).Agrees audience (k a) := by
  constructor
  · intro b
    rw [yields_bind]
    constructor
    · rintro ⟨a', ha', hb⟩
      cases hx.unique ha'
      exact hb
    · exact fun hb => ⟨a, hx, hb⟩
  · intro fault
    obtain ⟨journal, hx⟩ := hx
    show (Traced.bind x k).Faults audience fault ↔ _
    simp only [Faults, Traced.bind, hx, Checked.ok_bind]
    cases (k a).run audience with
    | ok r =>
      constructor
      · intro h
        cases h
      · intro h
        cases h
    | error e => exact Iff.rfl

/-- What a run can be seen to give of a pair, it gives with something. -/
theorem exists_yields {x : Traced (α × β)} {b : β}
    (h : (x.run audience).toOption.map (fun r => r.1.2) = some b) :
    ∃ a, x.Yields audience (a, b) := by
  cases hrun : x.run audience with
  | error e =>
    rw [hrun] at h
    cases h
  | ok r =>
    rw [hrun] at h
    cases h
    exact ⟨r.1.1, r.2, hrun⟩

/-- What holds of the result of a run that can be seen through holds of what it yields. -/
theorem exists_yields_and {x : Traced α} {p : α → Bool}
    (h : ((x.run audience).toOption.any fun r => p r.1) = true) :
    ∃ a, x.Yields audience a ∧ p a = true := by
  cases hrun : x.run audience with
  | error e =>
    rw [hrun] at h
    cases h
  | ok r =>
    rw [hrun] at h
    exact ⟨r.1, ⟨r.2, hrun⟩, h⟩

end Traced

end Dataflow
