import CodeAtlas.Calendar
import CodeAtlas.Decimal.Shortest

/-!
# Values of documents and metrics

A configuration document, a setting read from it and a figure that a metric computes are all values of
one type. Equality is by meaning: a whole number equals the fraction of the same size, a truth value
equals 0 or 1, and maps and sets are equal whatever the order of what they hold.
-/

namespace CodeAtlas

inductive Atom where
  | bytes (bs : List UInt8)
  | date (year month day : Nat)
  | moment (t : DateTime)
  | complex (re im : Float)
  | named (name : String)
  | loop
deriving Inhabited, Repr

inductive Value where
  | null
  | bool (b : Bool)
  | int (n : Int)
  | float (x : Float)
  | text (s : String)
  | list (items : List Value)
  | map (entries : List (Value × Value))
  | tuple (items : List Value)
  | set (items : List Value)
  | atom (a : Atom)
deriving Inhabited, Repr

def Atom.same : Atom → Atom → Bool
  | .bytes bs, .bytes cs => bs == cs
  | .date y m d, .date y' m' d' => y == y' && m == m' && d == d'
  | .moment s, .moment t => s.same t
  | .complex a b, .complex c d => a == c && b == d
  | .named a, .named b => a == b
  | .loop, .loop => true
  | _, _ => false

/-- The part on the real line of a number that lies on it. -/
def Atom.real? : Atom → Option Float
  | .complex re im => if im == 0 then some re else none
  | _ => none

def Atom.truthy : Atom → Bool
  | .bytes bs => !bs.isEmpty
  | .complex re im => !(re == 0 && im == 0)
  | _ => true

namespace Value

def floatIsInt (x : Float) (n : Int) : Bool :=
  match Decimal.Parts.ofFloat x with
  | .finite negative m q _ =>
    let (num, den) := Decimal.scaleTwo m q
    num % den == 0 && (if negative then -((num / den : Nat) : Int) else ((num / den : Nat) : Int)) == n
  | _ => false

def asInt? : Value → Option Int
  | .bool b => some (if b then 1 else 0)
  | .int n => some n
  | _ => none

def asFloat? : Value → Option Float
  | .float x => some x
  | .atom a => a.real?
  | _ => none

def numberEq (a b : Value) : Bool :=
  match a.asFloat?, b.asFloat?, a.asInt?, b.asInt? with
  | some x, some y, _, _ => x == y
  | some x, _, _, some n => floatIsInt x n
  | _, some y, some m, _ => floatIsInt y m
  | _, _, some m, some n => m == n
  | _, _, _, _ => false

def scalarEq (a b : Value) : Bool :=
  match a, b with
  | .null, .null => true
  | .text s, .text t => s == t
  | .atom x, .atom y => x.same y
  | a, b => numberEq a b

mutual

def same : Value → Value → Bool
  | .list xs, .list ys => sameItems xs ys
  | .list _, _ => false
  | .map xs, .map ys => xs.length == ys.length && within xs ys
  | .map _, _ => false
  | .tuple xs, .tuple ys => sameItems xs ys
  | .tuple _, _ => false
  | .set xs, .set ys => xs.length == ys.length && amongItems xs ys
  | .set _, _ => false
  | .null, b => scalarEq .null b
  | .bool x, b => scalarEq (.bool x) b
  | .int n, b => scalarEq (.int n) b
  | .float x, b => scalarEq (.float x) b
  | .text s, b => scalarEq (.text s) b
  | .atom a, b => scalarEq (.atom a) b

def sameItems : List Value → List Value → Bool
  | [], [] => true
  | x :: xs, y :: ys => same x y && sameItems xs ys
  | _, _ => false

def amongItems : List Value → List Value → Bool
  | [], _ => true
  | x :: xs, ys => ys.any (fun y => same x y) && amongItems xs ys

def within : List (Value × Value) → List (Value × Value) → Bool
  | [], _ => true
  | (k, v) :: rest, ys => ys.any (fun (k', v') => same k k' && same v v') && within rest ys

end

instance : BEq Value := ⟨same⟩

/-- Empty collections, the empty text, zero, `false` and `null` count as false. -/
def truthy : Value → Bool
  | .null => false
  | .bool b => b
  | .int n => n != 0
  | .float x => !(x == 0)
  | .text s => s != ""
  | .list xs | .tuple xs | .set xs => !xs.isEmpty
  | .map es => !es.isEmpty
  | .atom a => a.truthy

def isNull : Value → Bool
  | .null => true
  | _ => false

def lookup (key : Value) (entries : List (Value × Value)) : Option Value :=
  (entries.find? fun (k, _) => k == key).map Prod.snd

def field? (v : Value) (name : String) : Option Value :=
  match v with
  | .map entries => lookup (.text name) entries
  | _ => none

def insertEntry (key v : Value) : List (Value × Value) → List (Value × Value)
  | [] => [(key, v)]
  | (k, w) :: rest => if k == key then (k, v) :: rest else (k, w) :: insertEntry key v rest

def entries : Value → List (Value × Value)
  | .map es => es
  | _ => []

def text? : Value → Option String
  | .text s => some s
  | _ => none

def ofStrings (names : List String) : Value := .list (names.map .text)

def toFloat? : Value → Option Float
  | .bool b => some (if b then 1 else 0)
  | .int n => some (Float.ofInt n)
  | .float x => some x
  | _ => none

end Value

end CodeAtlas
