import CodeAtlas.Text.Basic
import CodeAtlas.Text.Case

/-!
# Modules that come from elsewhere

Names of installed packages and of loaded modules, by which imports of foreign code are told from
imports of the project's own.
-/

namespace CodeAtlas.KnownModules

/-- An installed package: the modules that it says it provides, if that can be read. -/
structure Package where
  key : String
  modules : Option (List String)
deriving Repr

def isPlain (name : String) : Bool :=
  name != "" && !Text.contains name "-" && !Text.contains name "__" && !Text.startsWith name "_"

def ofPackage (p : Package) : List String :=
  match p.modules with
  | some (name :: _) => if isPlain name then [name] else []
  | _ => []

def ofPackages (packages : List Package) : List String :=
  packages.flatMap fun p => ((packages.find? fun q => q.key == p.key).map ofPackage).getD []

def ofRequirement (line : String) : String :=
  let name := match Chars.cut? ['=', '='] line.toList with
    | some (before, _) => before
    | none => line.toList
  String.ofList (Text.lower (Chars.replace ['-'] ['_'] name))

def isTopLevel (name : String) : Bool := !Text.startsWith name "_" && !Text.contains name "."

def all (packages : List Package) (requirements loaded : List String) : List String :=
  (ofPackages packages ++ requirements.map ofRequirement ++ loaded.filter isTopLevel).eraseDups

end CodeAtlas.KnownModules
