import CodeAtlas.Analysis.Work
import CodeAtlas.Version

/-!
# The program and its state

The program holds what surrounds it, its configuration and a scanner for each language. All of that lives on from
one order to the next; an order that fails keeps what was done before the failure.
-/

namespace CodeAtlas

structure Documents where
  content : String := ""
  document : Value := .map []
  schemaContent : String := ""
  schema : Value := .map []
deriving Inhabited

structure Configuration where
  documents : Documents := {}
  analyses : List Analysis := []
  project : Value := .text "unnamed"
  path : String := ""
  valid : Bool := false
  version : String := CodeAtlas.version
deriving Inhabited

structure Program where
  session : Session
  configuration : Configuration := {}
  scanners : List Scanner := Language.scanners.map fun l => { language := l }
  collected : Results := ∅
deriving Inhabited

abbrev Run := EStateM Fault Program

namespace Run

def session : Run Session := do return (← get).session

def configuration : Run Configuration := do return (← get).configuration

def modifySession (f : Session → Session) : Run Unit := modify fun p => { p with session := f p.session }

def modifyConfiguration (f : Configuration → Configuration) : Run Unit :=
  modify fun p => { p with configuration := f p.configuration }

def modifyDocuments (f : Documents → Documents) : Run Unit :=
  modifyConfiguration fun c => { c with documents := f c.documents }

def lift {α : Type} : Except Fault α → Run α
  | .ok a => pure a
  | .error e => throw e

def log (source : LogSource) (kind : LogKind) (message : String) : Run Unit :=
  modifySession fun s => { s with log := s.log.write source kind message }

def print (text : String) : Run Unit := modifySession fun s => { s with console := s.console ++ text }

def setLevel (level : LogLevel) : Run Unit :=
  modifySession fun s => { s with log := { s.log with level := level } }

def pinLevel (level : LogLevel) : Run Unit :=
  modifySession fun s => { s with log := { s.log with level := level, pinned := true } }

def onAnalysis {α : Type} (i : Nat) (w : Work α) : Run α := fun p =>
  match p.configuration.analyses[i]? with
  | none => .error .outOfRange p
  | some a =>
    let keep (j : Job) : Program :=
      { p with
        session := j.session
        configuration := { p.configuration with analyses := p.configuration.analyses.set i j.analysis } }
    match w ⟨p.session, a⟩ with
    | .ok x j => .ok x (keep j)
    | .error e j => .error e (keep j)

end Run

end CodeAtlas
