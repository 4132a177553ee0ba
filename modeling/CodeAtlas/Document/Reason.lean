import CodeAtlas.Fault

/-!
# Why a text has no value
-/

namespace CodeAtlas.Document

inductive Reason where
  | malformed
  | fault (f : Fault)
deriving Repr, DecidableEq, Inhabited

def orMalformed {α : Type} : Option α → Except Reason α
  | some a => .ok a
  | none => .error .malformed

end CodeAtlas.Document
