/-
# Journals

A computation that tells what it does keeps a journal.  `Traced` is a checked computation that
gives its journal beside its result; the journals of the steps follow one another.  A journal is
kept for an audience, and an entry that nobody hears is not even put together.
-/
import Dataflow.Func

namespace Dataflow

/-- How urgent a journal entry is. -/
inductive Level where
  | error
  | warn
  | info
  | debug
  | trace
  deriving DecidableEq

namespace Level

/-- Urgent levels come first. -/
def rank : Level → Nat
  | .error => 0
  | .warn => 1
  | .info => 2
  | .debug => 3
  | .trace => 4

/-- The name of a level. -/
def text : Level → String
  | .error => "ERROR"
  | .warn => "WARN"
  | .info => "INFO"
  | .debug => "DEBUG"
  | .trace => "TRACE"

end Level

/-- A journal entry: how urgent it is, which part of the program made it, and what it says. -/
structure Record where
  level : Level
  topic : String
  message : String
  deriving DecidableEq

/-- Who a journal is kept for: someone who hears the entries down to a level, or nobody. -/
abbrev Audience := Option Level

/-- True if entries of a level are heard. -/
def Audience.hears (audience : Audience) (level : Level) : Bool :=
  audience.any fun last => level.rank ≤ last.rank

/-- A checked computation that keeps a journal of what its audience hears. -/
structure Traced (α : Type) where
  run : Audience → Checked (α × List Record)

namespace Traced

variable {α β : Type}

/-- Go on with a result; the journals follow one another. -/
protected def bind (x : Traced α) (g : α → Traced β) : Traced β where
  run audience := do
    let (a, before) ← x.run audience
    let (b, after) ← (g a).run audience
    return (b, before ++ after)

instance : Monad Traced where
  pure a := ⟨fun _ => .ok (a, [])⟩
  bind := Traced.bind

/-- A checked computation keeps no journal. -/
instance : MonadLift (Except Fault) Traced where
  monadLift x := ⟨fun _ => x.map fun a => (a, [])⟩

/-- Make a journal entry.  The message is put together only if someone hears it, and only then
can a fault in it stop the computation. -/
def note (level : Level) (topic : String) (message : Checked String) : Traced Unit where
  run audience := do
    if Audience.hears audience level then
      let message ← message
      return ((), [{ level, topic, message }])
    else return ((), [])

/-- Make a journal entry whose message needs no lookup. -/
def say (level : Level) (topic message : String) : Traced Unit := note level topic (.ok message)

end Traced

end Dataflow
