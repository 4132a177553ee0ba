import CodeAtlas.Fault
import CodeAtlas.Words

/-!
# Looking ahead

A scanner goes through a list of words and sees, at each, the words that follow. At the last word, where
nothing follows, it still sees what followed the word before; in a list of one word it sees nothing.
-/

namespace CodeAtlas

structure Window (α : Type) where
  index : Nat
  word : α
  previous : Option (List α)
  following : Option (List α)
deriving Repr, DecidableEq

namespace Window

variable {α : Type}

def ahead : List α → List (α × List α)
  | [] => []
  | [word] => [(word, [word])]
  | word :: rest => (word, rest) :: ahead rest

def readAhead (words : List α) : List (α × Option (List α)) :=
  match words with
  | [word] => [(word, none)]
  | words => (ahead words).map fun (word, rest) => (word, some rest)

def all (words : List α) : List (Window α) :=
  (readAhead words).mapIdx fun i (word, following) =>
    ⟨i, word, if i == 0 then none else some (words.take i), following⟩

end Window

def aheadText (word : String) (following : Option (List String)) : Except Fault String :=
  match following with
  | some rest => .ok (joinWords (word :: rest))
  | none => .error .wrongKind

def surroundings (word : String) (previous following : Option (List String)) :
    Except Fault (List String) :=
  match following with
  | some rest => .ok (previous.getD [] ++ word :: rest)
  | none => .error .wrongKind

end CodeAtlas
