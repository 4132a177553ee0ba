import CodeAtlas.Value.Basic

/-!
# Values as collections

A list holds its items, a text its characters and every text that occurs in it, a map its keys. Other
values hold nothing and cannot be asked.
-/

namespace CodeAtlas.Value

mutual

def isKey : Value → Bool
  | .list _ | .map _ | .set _ | .atom .loop => false
  | .tuple xs => areKeys xs
  | _ => true

def areKeys : List Value → Bool
  | [] => true
  | x :: xs => isKey x && areKeys xs

end

def hasMember (container item : Value) : Except Fault Bool :=
  match container with
  | .list xs | .tuple xs => .ok (xs.any (· == item))
  | .set xs => if item.isKey then .ok (xs.any (· == item)) else .error .wrongKind
  | .text s =>
    match item with
    | .text part => .ok (Text.contains s part)
    | _ => .error .wrongKind
  | .map es => if item.isKey then .ok (es.any fun (k, _) => k == item) else .error .wrongKind
  | _ => .error .wrongKind

def hasText (container : Value) (s : String) : Except Fault Bool := container.hasMember (.text s)

def members : Value → Except Fault (List Value)
  | .list xs | .tuple xs | .set xs => .ok xs
  | .atom (.bytes bs) => .ok (bs.map fun b => .int b.toNat)
  | .atom .loop => .ok []
  | .text s => .ok (s.toList.map fun c => .text (String.ofList [c]))
  | .map es => .ok (es.map Prod.fst)
  | _ => .error .wrongKind

/-- Goes through the members of a collection that is not empty. What counts as false is not asked for members. -/
def membersIfAny (v : Value) : Except Fault (List Value) := if v.truthy then v.members else .ok []

def orFault (otherwise : Fault) : Value → Except Fault String
  | .text s => .ok s
  | _ => .error otherwise

def words (v : Value) : Except Fault (List String) := do (← v.members).mapM (orFault .wrongKind)

def slice (v : Value) (items : List Value) : Value :=
  match v with
  | .text _ => .text (String.join (items.filterMap text?))
  | _ => .list items

/-- What is filed under a name. Only maps have names; a list or a text would need a position. -/
def at? (v : Value) (name : String) : Except Fault Value :=
  match v with
  | .map es =>
    match lookup (.text name) es with
    | some w => .ok w
    | none => .error .noSuchKey
  | _ => .error .wrongKind

end CodeAtlas.Value
