import CodeAtlas.Configuration.Keys
import CodeAtlas.Value.Member

/-!
# Which documents configure a project

A document has to name the project and to hold at least one analysis; each analysis has a name, a source directory
and something to scan for. The rules are checked one after the other, and the first one that is broken decides. A
check fails if it meets a value that cannot be asked for what it needs.
-/

namespace CodeAtlas.Configuration

def keysKnown : List Value → Except Fault Bool
  | [] => .ok true
  | .text key :: rest => if Level.project.allows key then keysKnown rest else .ok false
  | .atom (.bytes _) :: _ => .error .wrongKind
  | _ :: _ => .error .noSuchPart

def hasTextAt (entry : Value) (name : String) : Except Fault Bool := do
  return (← entry.at? name).text?.isSome

def hasScan (entry : Value) : Except Fault Bool := do
  if ← entry.hasText "file_scan" then return true
  entry.hasText "entity_scan"

/-- The rules that each analysis of a document has to obey. A rule is checked for all analyses before the next. -/
def entryRules : List (Value → Except Fault Bool) :=
  [fun e => e.hasText "analysis_name", fun e => e.hasText "source_directory",
    fun e => hasTextAt e "analysis_name", fun e => hasTextAt e "source_directory", hasScan]

def entriesValid (entries : List Value) : Except Fault Bool := do
  if entries.isEmpty then return false
  entryRules.allM fun rule => entries.allM rule

def isValid (document : Value) : Except Fault Bool := do
  if !document.truthy then return false
  if !(← document.hasText "project_name") then return false
  if !(← keysKnown (← document.members)) then return false
  if !(← document.hasText "analyses") then return false
  match ← document.at? "analyses" with
  | .list entries => entriesValid entries
  | _ => return false

end CodeAtlas.Configuration
