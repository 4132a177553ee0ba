import CodeAtlas.LookAhead
import CodeAtlas.Phrase
import CodeAtlas.Statistics

/-!
# Mentions of a keyword

A scanner looks at every occurrence of a keyword. If the phrase that has to follow is there, the mention
is a hit, otherwise a miss; statistics count both.
-/

namespace CodeAtlas

inductive Mention (α : Type) where
  | hit (found : α)
  | miss
deriving Repr, DecidableEq

namespace Mention

def ofOption {α : Type} : Option α → Mention α
  | some a => .hit a
  | none => .miss

def found? {α : Type} : Mention α → Option α
  | .hit a => some a
  | .miss => none

/-- The occurrences of a keyword, each with the words that follow. A keyword that is the only word of a
text cannot be looked at. -/
def sightings (isKeyword : String → Bool) (words : List String) :
    Except Fault (List (String × List String)) :=
  ((Window.readAhead words).filter fun (word, _) => isKeyword word).mapM fun (word, following) =>
    match following with
    | some rest => .ok (word, rest)
    | none => .error .wrongKind

def all {α : Type} (isKeyword : String → Bool) (phrase : String → String → Option α)
    (words : List String) : Except Fault (List (Mention α)) := do
  let seen ← sightings isKeyword words
  return seen.map fun (word, rest) => .ofOption (phrase word (joinWords (word :: rest)))

end Mention

abbrev Tallied := EStateM Fault Statistics

namespace Tallied

def count (key : StatisticKey) : Tallied Unit := do
  match (← get).increment key with
  | .ok s => set s
  | .error e => throw e

def tally {α : Type} : Mention α → Tallied Unit
  | .hit _ => count .parsingHits
  | .miss => count .parsingMisses

def lift {α : Type} : Except Fault α → Tallied α
  | .ok a => pure a
  | .error e => throw e

/-- Counts the mentions one after the other and hands the hits on. -/
def collect {α β : Type} (step : α → Tallied (List β)) : List (Mention α) → Tallied (List β)
  | [] => pure []
  | m :: rest => do
    tally m
    let here ← match m with
      | .hit a => step a
      | .miss => pure []
    return here ++ (← collect step rest)

end Tallied

end CodeAtlas
