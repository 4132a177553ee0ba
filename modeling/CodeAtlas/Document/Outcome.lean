import CodeAtlas.Document.Reason

/-!
# Faults in rounds

The value of a document is put together in rounds. A list or a map is there, empty, from the round on in which it is met;
its parts follow in the next one. So of two faults the one that is less deep counts, and of two faults of one
round the one that stands first. An `Outcome` keeps the first fault of each round beside the value.
-/

namespace CodeAtlas.Document

structure Outcome (α : Type) where
  value : α
  faults : List (Option Reason) := []
deriving Repr

namespace Outcome

def join : List (Option Reason) → List (Option Reason) → List (Option Reason)
  | [], fs => fs
  | es, [] => es
  | e :: es, f :: fs => e.or f :: join es fs

instance : Monad Outcome where
  pure a := ⟨a, []⟩
  bind x f :=
    let y := f x.value
    ⟨y.value, join x.faults y.faults⟩

def fail {α : Type} [Inhabited α] (r : Reason) : Outcome α := ⟨default, [some r]⟩

def ofExcept {α : Type} [Inhabited α] : Except Reason α → Outcome α
  | .ok a => pure a
  | .error r => fail r

def later {α : Type} (x : Outcome α) : Outcome α := { x with faults := if x.faults.isEmpty then [] else none :: x.faults }

def result {α : Type} (x : Outcome α) : Except Reason α :=
  match x.faults.findSome? id with
  | some r => .error r
  | none => .ok x.value

end Outcome

end CodeAtlas.Document
