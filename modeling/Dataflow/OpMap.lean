/-
# Maps keyed by operations

A finite map from operation slots, kept in the order in which the keys were first put in.
Putting a key again changes its value and keeps its place.
-/
import Dataflow.Index

namespace Dataflow

/-- A map from operation slots, in the order of first insertion. -/
abbrev OpMap (α : Type) := List (OpId × α)

namespace OpMap

variable {α : Type}

/-- The value of a key. -/
def get? (m : OpMap α) (id : OpId) : Option α := (m.find? fun e => e.1 == id).map Prod.snd

/-- True if the map has the key. -/
def has (m : OpMap α) (id : OpId) : Bool := m.any fun e => e.1 == id

/-- Give a key a value: in the key's place if it has one, else at the end. -/
def put : OpMap α → OpId → α → OpMap α
  | [], id, a => [(id, a)]
  | e :: m, id, a => if e.1 = id then (id, a) :: m else e :: put m id a

/-- Take a key out; the others keep their order. -/
def remove (m : OpMap α) (id : OpId) : OpMap α := m.filter fun e => e.1 != id

/-- The map that a list of entries builds, a later value winning over an earlier one. -/
def ofEntries (es : List (OpId × α)) : OpMap α := es.foldl (fun m e => put m e.1 e.2) []

/-- Change the value of a key that the map has. -/
def update (m : OpMap α) (id : OpId) (g : α → α) : OpMap α :=
  m.map fun e => if e.1 = id then (e.1, g e.2) else e

theorem get?_put (m : OpMap α) (id k : OpId) (a : α) :
    (m.put id a).get? k = if k = id then some a else m.get? k := by
  induction m with
  | nil =>
    by_cases h : id = k
    · simp [put, get?, h]
    · have : ¬ k = id := fun hk => h hk.symm
      simp [put, get?, h, this]
  | cons e m ih =>
    by_cases he : e.1 = id
    · by_cases h : id = k
      · simp [put, he, get?, h]
      · have : ¬ k = id := fun hk => h hk.symm
        simp [put, he, get?, h, this]
    · by_cases hk : e.1 = k
      · have : ¬ k = id := fun h => he (hk.trans h)
        simp [put, get?, hk, this]
      · simpa [put, he, get?, hk] using ih

/-- Putting a key keeps the order of the keys, and a new key comes last. -/
theorem map_fst_put (m : OpMap α) (id : OpId) (a : α) :
    (m.put id a).map Prod.fst =
      if id ∈ m.map Prod.fst then m.map Prod.fst else m.map Prod.fst ++ [id] := by
  induction m with
  | nil => simp [put]
  | cons e m ih =>
    by_cases he : e.1 = id
    · simp [put, he]
    · have : ¬ id = e.1 := fun h => he h.symm
      rw [put, if_neg he, List.map_cons, ih]
      by_cases hm : id ∈ m.map Prod.fst
      · simp [hm]
      · simp [hm, this]

/-- A key that was taken out is gone, and the others keep their values. -/
theorem get?_remove (m : OpMap α) (id k : OpId) :
    (m.remove id).get? k = if k = id then none else m.get? k := by
  induction m with
  | nil => simp [remove, get?]
  | cons e m ih =>
    by_cases he : e.1 = id
    · have : OpMap.remove (e :: m) id = OpMap.remove m id := by simp [remove, he]
      rw [this, ih]
      by_cases hk : k = id
      · simp [hk]
      · have : ¬ id = k := fun h => hk h.symm
        simp [hk, get?, he, this]
    · have : OpMap.remove (e :: m) id = e :: OpMap.remove m id := by simp [remove, he]
      rw [this]
      by_cases hk : e.1 = k
      · have : ¬ k = id := fun h => he (hk.trans h)
        simp [get?, hk, this]
      · simpa [get?, hk] using ih

end OpMap

end Dataflow
