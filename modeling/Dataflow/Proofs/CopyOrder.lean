/-
# When a removed copy is executed

A copy is removed when every use of its source precedes it and it precedes every use of its
target.  The uses are all operations that touch the memory, under whatever name
(`Func.Nested.mem_aliasUsers_iff`), but precedence is about the text.  In time the uses are ordered
within each turn of the loops around them and the copy; across turns they are not if a loop around
both repeats, and a copy in a loop without turns is not executed before anything
(`Func.removeCopy_in_time_iff`).
-/
import Dataflow.Proofs.CopySites
import Dataflow.Proofs.Interleaving

namespace Dataflow
namespace Func

variable {f g : Func}

/-! ## 1. Users of a memory -/

/-- A reached view makes `w` a name for the memory of `v`, or a part of it. -/
def Renames (f : Func) (v w : ValueId) : Prop :=
  ∃ id, f.Reaches id ∧ f.kindOf id = some (.view v w)

/-- `f.Touches r u`: the operation in slot `u` is no view, and uses `r` or a view derived from
it. -/
def Touches (f : Func) (r : ValueId) (u : OpId) : Prop :=
  ∃ k v, f.Reaches u ∧ f.kindOf u = some k ∧ viewResult? k = none ∧ v ∈ k.operands
    ∧ Relation.ReflTransGen f.Renames r v

namespace Nested

/-- The views of a memref are its users that define a value. -/
theorem mem_derived_iff (h : f.Nested) {es : List (OpId × Op)} (hes : f.entries = .ok es)
    {v w : ValueId} : w ∈ ((es.filter fun e => e.2.kind.operands.contains v).filterMap
      fun e => viewResult? e.2.kind) ↔ f.Renames v w := by
  rw [List.mem_filterMap]
  constructor
  · rintro ⟨⟨id, op⟩, he, hw⟩
    obtain ⟨he, hmem⟩ := List.mem_filter.mp he
    obtain ⟨hid, hop⟩ := (h.mem_entries hes).mp he
    have hv : v ∈ op.kind.operands := by simpa using hmem
    refine ⟨id, hid, ?_⟩
    rw [kindOf_eq hop]
    cases hk : op.kind with
    | view source result =>
      rw [hk] at hw hv
      cases hw
      cases List.mem_singleton.mp hv
      rfl
    | _ =>
      rw [hk] at hw
      cases hw
  · rintro ⟨id, hid, hk⟩
    obtain ⟨op, hop, hkind⟩ := Option.map_eq_some_iff.mp hk
    refine ⟨(id, op), List.mem_filter.mpr ⟨(h.mem_entries hes).mpr ⟨hid, hop⟩, ?_⟩, ?_⟩
    · simp [hkind, Kind.operands]
    · simp [hkind, viewResult?]

theorem mem_usersThrough_iff (h : f.Nested) : ∀ {views : Nat} {v : ValueId} {users : List OpId},
    f.usersThrough views v = .ok users → ∀ u, u ∈ users ↔ f.Touches v u
  | 0, _, _, husers => by cases husers
  | views + 1, v, users, husers => by
    intro u
    obtain ⟨es, parts, hes, hparts, rfl⟩ := usersThrough_eq_ok.mp husers
    rw [List.mem_append]
    constructor
    · rintro (hu | hu)
      · obtain ⟨⟨id, op⟩, he, rfl⟩ := List.mem_map.mp hu
        obtain ⟨he, hview⟩ := List.mem_filter.mp he
        obtain ⟨he, hmem⟩ := List.mem_filter.mp he
        obtain ⟨hid, hop⟩ := (h.mem_entries hes).mp he
        exact ⟨op.kind, v, hid, kindOf_eq hop, by simpa using hview, by simpa using hmem, .refl⟩
      · obtain ⟨part, hpart, hu⟩ := List.mem_flatten.mp hu
        obtain ⟨w, hw, hpart⟩ := Checked.forall₂_left hparts hpart
        have hrename := (h.mem_derived_iff hes).mp (List.mem_reverse.mp hw)
        obtain ⟨k, x, hur, hk, hview, hx, hderived⟩ := (h.mem_usersThrough_iff hpart u).mp hu
        exact ⟨k, x, hur, hk, hview, hx, hderived.head hrename⟩
    · rintro ⟨k, x, hur, hk, hview, hx, hderived⟩
      -- The first view on the way is one of the memref itself.
      rcases hderived.cases_head with rfl | ⟨w, hrename, hderived⟩
      · have hu := h.mem_usersThrough husers hur hk hx hview
        exact List.mem_append.mp hu
      · have hw := List.mem_reverse.mpr ((h.mem_derived_iff hes).mpr hrename)
        obtain ⟨part, hpart, husers'⟩ := Checked.forall₂_right hparts hw
        exact .inr (List.mem_flatten.mpr ⟨part, hpart,
          (h.mem_usersThrough_iff husers' u).mpr ⟨k, x, hur, hk, hview, hx, hderived⟩⟩)

/-- **The users found are those that touch the memory.** -/
theorem mem_aliasUsers_iff (h : f.Nested) {r : ValueId} {users : List OpId}
    (husers : f.aliasUsers r = .ok users) {u : OpId} : u ∈ users ↔ f.Touches r u :=
  h.mem_usersThrough_iff husers u

end Nested

/-! ## 2. What the removal has checked -/

/-- **A copy that is removed was a candidate with its uses in order.** -/
theorem ordered_of_removeCopy {audience : Audience} {copy : OpId} {what : CopyRemoval}
    (hcopy : f.Reaches copy) (hy : (f.removeCopy copy).Yields audience (g, some what)) :
    ∃ s, f.Sited s ∧ s.copy = copy ∧ f.usesOrdered s = .ok true := by
  unfold removeCopy at hy
  obtain ⟨k, hk, hy⟩ := Traced.yields_bind.mp hy
  have hkind := kind_eq_ok.mp (Traced.yields_lift.mp hk)
  cases k with
  | copy source target =>
    obtain ⟨-, -, hy⟩ := Traced.yields_bind.mp hy
    obtain ⟨s?, hs, hy⟩ := Traced.yields_bind.mp hy
    cases s? with
    | none => cases Traced.yields_pure.mp hy
    | some s =>
      obtain ⟨hsited, hcopy⟩ := sited_of_copySite? hcopy hkind (Traced.yields_lift.mp hs)
      obtain ⟨ordered, hordered, hy⟩ := Traced.yields_bind.mp hy
      cases ordered with
      | false => cases Traced.yields_pure.mp hy
      | true => exact ⟨s, hsited, hcopy, Traced.yields_lift.mp hordered⟩
  | _ => cases Traced.yields_pure.mp hy

/-! ## 3. In time -/

/-- **Of a copy that is removed, in time.**  Within each turn of the loops around both, a use of the
source comes before the copy and a use of the target after it.  All uses of the source come before
the copy exactly if none of them is executed in turns with it, and each use of the target comes
after the copy exactly if the copy is executed at all when they are. -/
theorem removeCopy_in_time_iff (audience : Audience) (f g : Func) (copy : OpId) (what : CopyRemoval)
    (hf : f.verify = .ok ()) (hs : f.StaticBounds) (hcopy : f.Reaches copy)
    (hy : (f.removeCopy copy).Yields audience (g, some what)) :
    ∃ source target sourceRoot targetRoot, f.kindOf copy = some (.copy source target)
      ∧ f.root source = .ok (some sourceRoot) ∧ f.root target = .ok (some targetRoot)
      ∧ f.instances = some (f.timeline.flatMap f.instancesOf)
      ∧ (∀ u, f.Touches sourceRoot u → u ≠ copy → f.TurnBefore u copy
          ∧ (f.AllBefore u copy ↔ ¬ f.Interleave u copy))
      ∧ ∀ u, f.Touches targetRoot u → u ≠ copy → f.TurnBefore copy u
          ∧ (f.EachAfter copy u ↔ (f.Runs u → f.Runs copy))
          ∧ (f.AllBefore copy u ↔ ¬ f.Interleave copy u) := by
  have htidy : f.Tidy := verify_eq_ok_iff_tidy.mp hf
  have hnested := htidy.toNested
  have hadv := htidy.advances
  obtain ⟨s, hsited, rfl, hordered⟩ := ordered_of_removeCopy hcopy hy
  obtain ⟨hbefore, hafter⟩ := usesOrdered_eq_true hordered
  refine ⟨s.source, s.target, s.sourceRoot, s.targetRoot, hsited.kind,
    root_eq_some_iff.mpr hsited.source, root_eq_some_iff.mpr hsited.target,
    hnested.instances_eq_timeline hs, fun u hu hne => ?_, fun u hu hne => ?_⟩
  · have hprecedes := hbefore u ((hnested.mem_aliasUsers_iff hsited.sourceUsers).mpr hu)
    have hstands : f.StandsBefore u s.copy := (precedes_eq_true hne hprecedes).2
    exact ⟨hnested.turnBefore hadv hne hstands, hnested.allBefore_iff hadv hs hne hstands⟩
  · have hprecedes := hafter u ((hnested.mem_aliasUsers_iff hsited.targetUsers).mpr hu)
    have hstands : f.StandsBefore s.copy u := (precedes_eq_true hne.symm hprecedes).2
    obtain ⟨_, _, hur, -⟩ := hu
    exact ⟨hnested.turnBefore hadv hne.symm hstands,
      hnested.eachAfter_iff hadv hs hne.symm hstands hur,
      hnested.allBefore_iff hadv hs hne.symm hstands⟩

/-- A loop of four turns adds to a buffer, copies it to another, and uses and clears the copy. -/
def runningCopy : Func where
  name := "f"
  arguments := [0]
  body := [0, 1, 2]
  ops := #[
    ⟨0, .buffer 1 none, none, [], false⟩,
    ⟨1, .buffer 2 none, none, [], false⟩,
    ⟨2, .loop (.plain "i" 0 (some 4) 1), none, [3, 4, 5, 6], false⟩,
    ⟨3, .compute ⟨"p", [⟨1, [.const 0]⟩], [⟨1, [.const 0]⟩], []⟩, some 2, [], false⟩,
    ⟨4, .copy 1 2, some 2, [], false⟩,
    ⟨5, .compute ⟨"q", [⟨2, [.const 0]⟩], [⟨0, [.iv 2]⟩], []⟩, some 2, [], false⟩,
    ⟨6, .compute ⟨"c", [], [⟨2, [.const 0]⟩], []⟩, some 2, [], false⟩]
  values := #[
    { id := 0, name := "Out", shape := [4], space := 0, definition := .argument 0 },
    { id := 1, name := "S", shape := [1], space := 0, definition := .op 0 },
    { id := 2, name := "T", shape := [1], space := 0, definition := .op 1 }]

theorem runningCopy_interleave : runningCopy.Interleave 3 4 := by
  have hiterates : runningCopy.Iterates 2 := by
    rintro l hl upper hupper
    cases hl
    cases hupper
    decide
  have hruns : ∀ id ∈ runningCopy.bodyOf 2, runningCopy.Runs id := fun id hid =>
    ⟨2, by decide, .single ⟨hid, hiterates⟩⟩
  exact ⟨hruns 3 (by decide), hruns 4 (by decide), 2, ⟨⟨_, rfl⟩, .single rfl, by decide⟩,
    ⟨⟨_, rfl⟩, .single rfl, by decide⟩, _, 4, rfl, rfl, by decide⟩

/-- An argument is copied to a filled buffer in a loop without turns, and then the buffer is
used. -/
def idleCopy : Func where
  name := "f"
  arguments := [0, 1]
  body := [0, 1, 3]
  ops := #[
    ⟨0, .buffer 2 (some 7), none, [], false⟩,
    ⟨1, .loop (.plain "k" 0 (some 0) 1), none, [2], false⟩,
    ⟨2, .copy 0 2, some 1, [], false⟩,
    ⟨3, .compute ⟨"q", [⟨2, [.const 0]⟩], [⟨1, [.const 0]⟩], []⟩, none, [], false⟩]
  values := #[
    { id := 0, name := "A", shape := [4], space := 0, definition := .argument 0 },
    { id := 1, name := "Out", shape := [4], space := 0, definition := .argument 1 },
    { id := 2, name := "T", shape := [4], space := 0, definition := .op 0 }]

theorem idleCopy_runs : idleCopy.Runs 3 ∧ ¬ idleCopy.Runs 2 := by
  refine ⟨⟨3, by decide, .refl⟩, fun hruns => ?_⟩
  have hnested := (verify_eq_ok_iff_tidy.mp (show idleCopy.verify = .ok () by decide)).toNested
  have hiterates := (hnested.runs_iff.mp hruns).2 1 ⟨⟨_, rfl⟩, .single rfl, by decide⟩
  exact absurd (hiterates _ rfl 0 rfl) (by decide)

/-- Both copies are removed.  In the loop the source is added to after it has been copied, and the
copy that is never executed does not come before the use of its target. -/
theorem removeCopy_out_of_time :
    (∃ g, (runningCopy.removeCopy 4).Yields none (g, some (.targetErased 2 1))
      ∧ runningCopy.Touches 1 3 ∧ ¬ runningCopy.AllBefore 3 4)
    ∧ ∃ g, (idleCopy.removeCopy 2).Yields none (g, some (.targetErased 2 0))
      ∧ idleCopy.Touches 2 3 ∧ ¬ idleCopy.EachAfter 2 3 := by
  constructor
  · obtain ⟨g, hg⟩ : ∃ g, (runningCopy.removeCopy 4).Yields none (g, some (.targetErased 2 1)) :=
      Traced.exists_yields (by decide +kernel)
    have htouches : runningCopy.Touches 1 3 :=
      ⟨_, 1, .nested (.top (by decide : 2 ∈ runningCopy.body)) (by decide), rfl, rfl, by decide,
        .refl⟩
    obtain ⟨source, target, sourceRoot, _, hkind, hroot, -, -, hsource, -⟩ :=
      removeCopy_in_time_iff none runningCopy g 4 _ (by decide) (staticBounds_of_all (by decide))
        (.nested (.top (by decide : 2 ∈ runningCopy.body)) (by decide)) hg
    cases hkind
    obtain rfl : 1 = sourceRoot := Option.some.inj (Except.ok.inj hroot)
    refine ⟨g, hg, htouches, fun hall => ?_⟩
    exact (hsource 3 htouches (by decide)).2.mp hall runningCopy_interleave
  · obtain ⟨g, hg⟩ : ∃ g, (idleCopy.removeCopy 2).Yields none (g, some (.targetErased 2 0)) :=
      Traced.exists_yields (by decide +kernel)
    have htouches : idleCopy.Touches 2 3 := ⟨_, 2, .top (by decide), rfl, rfl, by decide, .refl⟩
    obtain ⟨source, target, _, targetRoot, hkind, -, hroot, -, -, htarget⟩ :=
      removeCopy_in_time_iff none idleCopy g 2 _ (by decide) (staticBounds_of_all (by decide))
        (.nested (.top (by decide : 1 ∈ idleCopy.body)) (by decide)) hg
    cases hkind
    obtain rfl : 2 = targetRoot := Option.some.inj (Except.ok.inj hroot)
    refine ⟨g, hg, htouches, fun heach => ?_⟩
    exact idleCopy_runs.2 ((htarget 3 htouches (by decide)).2.1.mp heach idleCopy_runs.1)

end Func
end Dataflow
