/-
# What a function executes

A function is executed from its top-level block: a loop runs its body once for every value of its
induction variable, every other operation runs it once, and a compute is an *instance* each time
it is reached: its name, the memrefs it touches and the subscripts as they evaluate there.

`Func.instances` lists the instances of a whole run.  Proofs work with `Func.visits`, the executions
of an operation and of all that is nested in it: a run is `Func.timeline`, and its instances are
those of its computes (`Func.Nested.instances_eq_timeline`).  Where the order does not matter they
work with `Func.work`, the multiset of the instances below one operation; the equations
`Nested.visits_eq` and `Nested.work_eq` follow the nesting.  An operation below which nothing is
executed is one from which no compute can be reached through loops that iterate
(`StaticBounds.work_eq_zero_iff`).
-/
import Mathlib.Algebra.Order.Ring.Int
import Mathlib.Data.Multiset.Bind
import Mathlib.Data.Multiset.OrderedMonoid
import Mathlib.Logic.Function.Basic
import Dataflow.Proofs.Nesting

namespace Dataflow

/-! ## 1. Instances -/

/-- The values of the induction variables. -/
abbrev Env := OpId → Int

/-- The values that the induction variable takes: `lower`, `lower + step`, and so on below
`upper`.  None when the upper bound is not known. -/
def Loop.values? (l : Loop) : Option (List Int) :=
  l.upper.map fun upper =>
    ((List.range (upper - l.lower).toNat).map fun (k : Nat) => l.lower + k * l.step).filter
      fun iv => iv < upper

/-- How far a loop runs ahead, by the given offsets. -/
def offsetIn (offsets : List (OpId × Int)) (l : OpId) : Int :=
  ((offsets.filter fun o => o.1 == l).map Prod.snd).sum

/-- The environment in which the loops run ahead by the given offsets. -/
def shift (offsets : List (OpId × Int)) (env : Env) : Env := fun l => env l + offsetIn offsets l

/-- The value of a subscript; none if it is not known. -/
def Index.eval (env : Env) : Index → Option Int
  | .iv l => some (env l)
  | .tiled tile point => some (env tile + env point)
  | .const value => some value
  | .unknown => none

/-- A memref with the values of its subscripts. -/
def Access.eval (env : Env) (a : Access) : ValueId × List (Option Int) :=
  (a.memref, a.indices.map (Index.eval env))

/-- One execution of a compute. -/
structure Instance where
  name : String
  reads : List (ValueId × List (Option Int))
  writes : List (ValueId × List (Option Int))
  deriving DecidableEq

/-- A compute sees its loops run ahead by its lanes. -/
def Compute.instanceAt (c : Compute) (env : Env) : Instance where
  name := c.name
  reads := c.reads.map (Access.eval (shift c.lanes env))
  writes := c.writes.map (Access.eval (shift c.lanes env))

/-- The instance that an operation is by itself. -/
def Kind.own (env : Env) : Kind → List Instance
  | .compute c => [c.instanceAt env]
  | _ => []

/-- The environments in which the body of an operation is executed, one after another. -/
def Kind.turns? (id : OpId) (env : Env) : Kind → Option (List Env)
  | .loop l => l.values?.map fun values => values.map (Function.update env id)
  | _ => some [env]

namespace Func

/-- The instances of an operation and of all that is nested in it, within the given number of
levels.  None if a loop has no known bound, or the nesting goes wrong. -/
def execute (f : Func) : Nat → Env → OpId → Option (List Instance)
  | 0, _, _ => none
  | levels + 1, env, id => do
    let op ← f.ops[id]?
    let turns ← op.kind.turns? id env
    let below ← turns.flatMapM fun env => op.body.flatMapM (f.execute levels env)
    return op.kind.own env ++ below

/-- **The instances that a run of the function executes**, in order. -/
def instances (f : Func) : Option (List Instance) :=
  f.body.flatMapM (f.execute f.depthBound fun _ => 0)

/-- Every loop that is reached has a known bound. -/
def StaticBounds (f : Func) : Prop :=
  ∀ id l, f.Reaches id → f.kindOf id = some (.loop l) → l.upper.isSome

end Func

/-! ## 2. Offsets -/

theorem offsetIn_append (xs ys : List (OpId × Int)) (l : OpId) :
    offsetIn (xs ++ ys) l = offsetIn xs l + offsetIn ys l := by
  simp [offsetIn]

theorem offsetIn_eq_zero {offsets : List (OpId × Int)} {l : OpId} (h : ∀ o ∈ offsets, o.1 ≠ l) :
    offsetIn offsets l = 0 := by
  have hnone : offsets.filter (fun o => o.1 == l) = [] := by
    simpa [List.filter_eq_nil_iff] using fun a b ho => h (a, b) ho
  simp [offsetIn, hnone]

theorem shift_nil (env : Env) : shift [] env = env := by
  funext l
  simp [shift, offsetIn]

theorem shift_append (xs ys : List (OpId × Int)) (env : Env) :
    shift (xs ++ ys) env = shift ys (shift xs env) := by
  funext l
  simp only [shift, offsetIn_append]
  omega

/-- More lanes are an environment further ahead. -/
theorem Compute.instanceAt_append_lanes (c : Compute) (more : List (OpId × Int)) (env : Env) :
    instanceAt { c with lanes := c.lanes ++ more } env = c.instanceAt (shift more env) := by
  have hshift : shift (c.lanes ++ more) env = shift c.lanes (shift more env) := by
    funext l
    simp only [shift, offsetIn_append]
    omega
  simp only [instanceAt, hshift]

/-- A loop that does not run ahead can be set before or after the others do. -/
theorem update_shift {offsets : List (OpId × Int)} {id : OpId} (hid : ∀ o ∈ offsets, o.1 ≠ id)
    (env : Env) (iv : Int) :
    Function.update (shift offsets env) id iv = shift offsets (Function.update env id iv) := by
  funext l
  by_cases hl : l = id
  · subst hl
    simp [shift, offsetIn_eq_zero hid]
  · simp [shift, Function.update_of_ne hl]

/-! ## 3. Executions -/

/-- One execution of an operation: its slot, and the values of the induction variables. -/
abbrev Visit := OpId × Env

namespace Func

variable {f g : Func}

/-- The environments in which the body of the operation in a slot is executed, in order. -/
def turnList (f : Func) (id : OpId) (env : Env) : List Env :=
  ((f.kindOf id).bind (Kind.turns? id env)).getD []

/-- The executions of an operation and of all that is nested in it, within the given number of
levels. -/
def visitsWithin (f : Func) : Nat → Env → OpId → List Visit
  | 0, _, _ => []
  | levels + 1, env, id => (id, env) :: (f.turnList id env).flatMap fun e =>
      (f.bodyOf id).flatMap (f.visitsWithin levels e)

/-- The executions of an operation and of all that is nested in it. -/
def visits (f : Func) (env : Env) (id : OpId) : List Visit := f.visitsWithin f.depthBound env id

/-- **What a run of the function executes**, in order. -/
def timeline (f : Func) : List Visit := f.body.flatMap (f.visits fun _ => 0)

/-- The instance that an execution is, of a compute. -/
def instancesOf (f : Func) (p : Visit) : List Instance :=
  ((f.kindOf p.1).map (Kind.own p.2)).getD []

/-- Where all bounds are known, an operation has its turns. -/
theorem StaticBounds.turns? (hs : f.StaticBounds) {id : OpId} (hid : f.Reaches id) {k : Kind}
    (hk : f.kindOf id = some k) (env : Env) : ∃ envs, k.turns? id env = some envs := by
  cases k with
  | loop l =>
    obtain ⟨upper, hupper⟩ := Option.isSome_iff_exists.mp (hs id l hid hk)
    exact ⟨_, by rw [Kind.turns?, Loop.values?, hupper, Option.map_some, Option.map_some]⟩
  | _ => exact ⟨_, rfl⟩

/-- It is enough to look at all entries of the table. -/
theorem staticBounds_of_all
    (h : f.ops.toList.all fun op => op.kind.loop?.all fun l => l.upper.isSome) :
    f.StaticBounds := by
  intro id l _ hl
  obtain ⟨op, hop, hkind⟩ := Option.map_eq_some_iff.mp hl
  have hop' := List.all_eq_true.mp h op (Array.mem_toList_iff.mpr (Array.mem_of_getElem? hop))
  rw [hkind] at hop'
  exact hop'

theorem flatMapM_eq_some {α β : Type} {k : α → Option (List β)} {part : α → List β} {l : List α}
    (hk : ∀ a ∈ l, k a = some (part a)) : l.flatMapM k = some (l.flatMap part) := by
  induction l with
  | nil => rfl
  | cons a l ih =>
    obtain ⟨ha, hl⟩ := List.forall_mem_cons.mp hk
    simp [List.flatMapM_cons, ha, ih hl]

namespace Nested

/-- Levels enough for the nesting below an operation all give the same. -/
theorem visitsWithin_eq (h : f.Nested) : ∀ {levels levels' : Nat} {env : Env} {id : OpId}
    {path : List OpId}, f.Reaches id → f.Trail id path → f.ops.size ≤ levels + path.length →
    f.ops.size ≤ levels' + path.length →
      f.visitsWithin levels env id = f.visitsWithin levels' env id
  | 0, _, _, id, path, hid, ht, hlen, _ => by
    have := h.trail_length_lt hid ht
    omega
  | _, 0, _, id, path, hid, ht, _, hlen => by
    have := h.trail_length_lt hid ht
    omega
  | levels + 1, levels' + 1, env, id, path, hid, ht, hlen, hlen' => by
    simp only [visitsWithin]
    refine congrArg _ (List.flatMap_congr fun e _ => List.flatMap_congr fun child hchild => ?_)
    have htrail := h.trail_child hid hchild ht
    exact visitsWithin_eq h (.nested hid hchild) htrail (by rw [List.length_cons]; omega)
      (by rw [List.length_cons]; omega)

/-- An operation is executed, and then its body once for each turn. -/
theorem visits_eq (h : f.Nested) {id : OpId} (hid : f.Reaches id) (env : Env) :
    f.visits env id = (id, env) :: (f.turnList id env).flatMap fun e =>
      (f.bodyOf id).flatMap (f.visits e) := by
  obtain ⟨path, ht⟩ := h.exists_trail hid
  have hmore : f.visits env id = f.visitsWithin (f.depthBound + 1) env id :=
    h.visitsWithin_eq hid ht (by rw [depthBound]; omega) (by rw [depthBound]; omega)
  rw [hmore, visitsWithin]
  rfl

theorem execute_eq_visits (h : f.Nested) (hs : f.StaticBounds) : ∀ {levels : Nat} (env : Env)
    {id : OpId} {path : List OpId}, f.Reaches id → f.Trail id path →
    f.ops.size ≤ levels + path.length →
      f.execute levels env id = some ((f.visitsWithin levels env id).flatMap f.instancesOf)
  | 0, _, id, path, hid, ht, hlen => by
    have := h.trail_length_lt hid ht
    omega
  | levels + 1, env, id, path, hid, ht, hlen => by
    obtain ⟨op, hop, -⟩ := h.live id hid
    have hk : f.kindOf id = some op.kind := kindOf_eq hop
    obtain ⟨envs, henvs⟩ := hs.turns? hid hk env
    have hturns : f.turnList id env = envs := by simp [turnList, hk, henvs]
    have hown : f.instancesOf (id, env) = op.kind.own env := by simp [instancesOf, hk]
    have hturn : ∀ e ∈ envs, op.body.flatMapM (f.execute levels e) = some
        (op.body.flatMap fun child => (f.visitsWithin levels e child).flatMap f.instancesOf) :=
      fun e _ => flatMapM_eq_some fun child hchild => by
        rw [← bodyOf_eq hop] at hchild
        refine execute_eq_visits h hs e (.nested hid hchild) (h.trail_child hid hchild ht) ?_
        rw [List.length_cons]
        omega
    simp [execute, hop, henvs, flatMapM_eq_some hturn, visitsWithin, hturns, hown, bodyOf_eq hop,
      List.flatMap_assoc]

/-- **A function in order with known bounds executes**, and the instances of a run are those of its
executions. -/
theorem instances_eq_timeline (h : f.Nested) (hs : f.StaticBounds) :
    f.instances = some (f.timeline.flatMap f.instancesOf) := by
  rw [timeline, List.flatMap_assoc]
  refine flatMapM_eq_some fun id hid => ?_
  exact h.execute_eq_visits hs _ (.top hid) (.top (h.parentOf_top id hid)) (Nat.le_add_right _ 1)

end Nested

/-! ## 4. Work -/

/-- The environments in which the body of the operation in a slot is executed. -/
def turns (f : Func) (id : OpId) (env : Env) : Multiset Env := f.turnList id env

/-- The instance that the operation in a slot is by itself. -/
def own (f : Func) (id : OpId) (env : Env) : Multiset Instance := f.instancesOf (id, env)

/-- **The instances of an operation and of all that is nested in it.** -/
def work (f : Func) (env : Env) (id : OpId) : Multiset Instance :=
  (f.visits env id).flatMap f.instancesOf

/-- The instances of what is nested in an operation. -/
def inner (f : Func) (id : OpId) (env : Env) : Multiset Instance :=
  (f.turns id env).bind fun e => (f.bodyOf id : Multiset OpId).bind (f.work e)

/-- The instances of the whole function. -/
def total (f : Func) : Multiset Instance := f.timeline.flatMap f.instancesOf

theorem total_eq (f : Func) : f.total = (f.body : Multiset OpId).bind (f.work fun _ => 0) := by
  rw [total, timeline, List.flatMap_assoc]
  exact (Multiset.coe_bind ..).symm

/-- The work of an operation is its own and that of its body. -/
theorem Nested.work_eq (h : f.Nested) {id : OpId} (hid : f.Reaches id) (env : Env) :
    f.work env id = f.own id env + f.inner id env := by
  have hturn : ∀ e, (f.bodyOf id : Multiset OpId).bind (f.work e) =
      ((f.bodyOf id).flatMap fun child => (f.visits e child).flatMap f.instancesOf : List _) :=
    fun e => Multiset.coe_bind ..
  rw [work, h.visits_eq hid, List.flatMap_cons, List.flatMap_assoc, ← Multiset.coe_add, inner,
    turns]
  simp only [hturn, Multiset.coe_bind, List.flatMap_assoc]
  rfl

/-- A function in order with known bounds executes its work. -/
theorem Nested.instances_eq (h : f.Nested) (hs : f.StaticBounds) :
    ∃ is, f.instances = some is ∧ (is : Multiset Instance) = f.total :=
  ⟨_, h.instances_eq_timeline hs, rfl⟩

theorem turns_congr {id : OpId} (h : g.kindOf id = f.kindOf id) (env : Env) :
    g.turns id env = f.turns id env := by
  rw [turns, turns, turnList, turnList, h]

theorem own_congr {id : OpId} (h : g.kindOf id = f.kindOf id) (env : Env) :
    g.own id env = f.own id env := by
  rw [own, own, instancesOf, instancesOf, h]

theorem turns_of_turns? {id : OpId} {k : Kind} {env : Env} {envs : List Env}
    (hk : f.kindOf id = some k) (h : k.turns? id env = some envs) : f.turns id env = envs := by
  simp [turns, turnList, hk, h]

theorem own_of_kindOf {id : OpId} {k : Kind} (hk : f.kindOf id = some k) (env : Env) :
    f.own id env = k.own env := by
  simp [own, instancesOf, hk]

/-! ## 5. What is executed at all -/

/-- The body of the operation is executed: if it is a loop with a known bound, it iterates. -/
def Iterates (f : Func) (id : OpId) : Prop :=
  ∀ l, f.kindOf id = some (.loop l) → ∀ upper, l.upper = some upper → l.lower < upper

/-- `f.Enters owner id`: to execute the owner is to execute the operation of its body. -/
def Enters (f : Func) (owner id : OpId) : Prop := id ∈ f.bodyOf owner ∧ f.Iterates owner

/-- `f.Executes a id`: to execute `a` is to execute `id`, at least once. -/
def Executes (f : Func) : OpId → OpId → Prop := Relation.ReflTransGen f.Enters

/-- The operation is executed. -/
def Runs (f : Func) (id : OpId) : Prop := ∃ top ∈ f.body, f.Executes top id

def IsCompute (f : Func) (id : OpId) : Prop := ∃ c, f.kindOf id = some (.compute c)

/-- To execute the operation is to execute a compute. -/
def Busy (f : Func) (id : OpId) : Prop := ∃ c, f.Executes id c ∧ f.IsCompute c

theorem busy_iff {id : OpId} :
    f.Busy id ↔ f.IsCompute id ∨ ∃ child, f.Enters id child ∧ f.Busy child := by
  constructor
  · rintro ⟨c, hexec, hc⟩
    rcases hexec.cases_head with rfl | ⟨child, henter, hexec⟩
    · exact .inl hc
    · exact .inr ⟨child, henter, c, hexec, hc⟩
  · rintro (hc | ⟨child, henter, c, hexec, hc⟩)
    · exact ⟨id, .refl, hc⟩
    · exact ⟨c, hexec.head henter, hc⟩

theorem bind_eq_zero_iff {α β : Type} {s : Multiset α} {part : α → Multiset β} :
    s.bind part = 0 ↔ ∀ a ∈ s, part a = 0 := by
  simp only [Multiset.eq_zero_iff_forall_notMem, Multiset.mem_bind, not_exists, not_and]
  exact forall_comm.trans (forall_congr' fun a => forall_comm)

theorem own_eq_zero_iff {id : OpId} {env : Env} : f.own id env = 0 ↔ ¬ f.IsCompute id := by
  unfold own instancesOf IsCompute
  cases f.kindOf id with
  | none => simp
  | some k => cases k <;> simp [Kind.own]

/-- A loop has a turn exactly if its lower bound is below the upper one. -/
theorem values?_eq_nil_iff {l : Loop} {upper : Int} (hupper : l.upper = some upper) :
    l.values? = some [] ↔ upper ≤ l.lower := by
  simp only [Loop.values?, hupper, Option.map_some, Option.some.injEq, List.filter_eq_nil_iff,
    List.mem_map, List.mem_range, forall_exists_index, and_imp, forall_apply_eq_imp_iff₂,
    decide_eq_true_eq, not_lt]
  constructor
  · intro h
    by_contra hlt
    have hfirst := h 0 (by omega)
    simp only [Int.natCast_zero, Int.zero_mul, Int.add_zero] at hfirst
    omega
  · intro h k hk
    omega

namespace StaticBounds

theorem turns_eq_zero_iff (hs : f.StaticBounds) {id : OpId} (hid : f.Reaches id)
    (hlive : f.IsLive id) (env : Env) : f.turns id env = 0 ↔ ¬ f.Iterates id := by
  obtain ⟨op, hop, -⟩ := hlive
  have hk : f.kindOf id = some op.kind := kindOf_eq hop
  cases hkind : op.kind with
  | loop l =>
    rw [hkind] at hk
    obtain ⟨upper, hupper⟩ := Option.isSome_iff_exists.mp (hs id l hid hk)
    have hiter : f.Iterates id ↔ l.lower < upper := by simp [Iterates, hk, hupper]
    rw [hiter, Int.not_lt, ← values?_eq_nil_iff hupper, turns, turnList, hk]
    cases hvalues : l.values? with
    | none => simp [Loop.values?, hupper] at hvalues
    | some values => simp [Kind.turns?, hvalues]
  | _ => simp [turns, turnList, Iterates, hk, hkind, Kind.turns?]

/-- Nothing below an operation is executed exactly if no compute is. -/
theorem inner_eq_zero_iff (hs : f.StaticBounds) (h : f.Nested) {id : OpId} (hid : f.Reaches id)
    {env : Env} (hbelow : ∀ child ∈ f.bodyOf id, ∀ env, f.work env child = 0 ↔ ¬ f.Busy child) :
    f.inner id env = 0 ↔ ∀ child, f.Enters id child → ¬ f.Busy child := by
  simp only [inner, bind_eq_zero_iff, Multiset.mem_coe]
  by_cases hiter : f.Iterates id
  · obtain ⟨e, he⟩ := Multiset.exists_mem_of_ne_zero
      (mt (hs.turns_eq_zero_iff hid (h.live id hid) env).mp (not_not.mpr hiter))
    constructor
    · intro hzero child henter
      exact (hbelow child henter.1 e).mp (hzero e he child henter.1)
    · intro hidle e' _ child hchild
      exact (hbelow child hchild e').mpr (hidle child ⟨hchild, hiter⟩)
  · rw [(hs.turns_eq_zero_iff hid (h.live id hid) env).mpr hiter]
    constructor
    · exact fun _ child henter => absurd henter.2 hiter
    · exact fun _ e he => absurd he (Multiset.notMem_zero e)

/-- **An operation does no work exactly if no compute is executed with it**, in whatever
environment. -/
theorem work_eq_zero_iff (hs : f.StaticBounds) (h : f.Nested) : ∀ id, f.Reaches id →
    ∀ env, f.work env id = 0 ↔ ¬ f.Busy id := by
  refine h.downward fun id hid ih env => ?_
  rw [h.work_eq hid, add_eq_zero, own_eq_zero_iff, hs.inner_eq_zero_iff h hid ih, busy_iff, not_or,
    not_exists]
  exact and_congr_right fun _ => forall_congr' fun child => not_and.symm

end StaticBounds

end Func
end Dataflow
