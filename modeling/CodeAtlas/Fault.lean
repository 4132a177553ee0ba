/-!
# Causes of failure

Every operation that can fail names its cause by a `Fault`.
-/

namespace CodeAtlas

inductive Fault where
  | wrongKind
  | noSuchPart
  | noSuchKey
  | badValue
  | outOfRange
  | divisionByZero
  | badPattern
  | undecodable
  | unencodable
  | tooLarge
  | tooDeep
  | fileNotFound
  | isADirectory
  | notADirectory (message : String)
  | fileExists
  | fileSystem
  | graphFormat
  | notImplemented (message : String)
  | failure (message : String)
  | exit (code : String)
deriving Repr, DecidableEq, Inhabited

end CodeAtlas
