import CodeAtlas.Configuration.Entry
import CodeAtlas.Configuration.Validity
import CodeAtlas.Disk
import CodeAtlas.Document.Meaning
import CodeAtlas.Program.Basic
import CodeAtlas.Text.Encoding

/-!
# Loading a configuration

A document is read from a file, checked, and its analyses are added to those that are there already. If the file
cannot be opened, the text that was read last is used once more.
-/

namespace CodeAtlas.Run

/-! ### Documents -/

def isFileFault : Fault → Bool
  | .fileNotFound | .isADirectory | .notADirectory _ | .fileExists | .fileSystem => true
  | _ => false

def readText (path : String) : Run String := do
  let bytes ← lift ((← session).disk.read path)
  lift (Text.ofUtf8 bytes)

def readContent (path : String) : Run Unit := do
  match (← session).disk.read path with
  | .ok bytes =>
    let content ← lift (Text.ofUtf8 bytes)
    modifyDocuments fun d => { d with content := content }
  | .error e =>
    if isFileFault e then log .config .error ("coould not open file: " ++ path) else throw e

/-- The meaning of a text. What is wrong with a text that is no document cannot be put into a message. -/
def meaning (text : String) : Run Value :=
  match Document.read text with
  | .ok v => pure v
  | .error .malformed => throw .wrongKind
  | .error (.fault f) => throw f

def readDocument : Run Unit := do
  let v ← meaning (← configuration).documents.content
  modifyDocuments fun d => { d with document := v }

def loadDocument (path : String) : Run Unit := do
  readContent path
  readDocument

def readSchemaContent (path : String) : Run Unit := do
  let content ← readText path
  modifyDocuments fun d => { d with schemaContent := content }

def readSchema : Run Unit := do
  let v ← meaning (← configuration).documents.schemaContent
  modifyDocuments fun d => { d with schema := v }

/-! ### Configurations -/

def validate : Run Unit := do
  let document := (← configuration).documents.document
  log .config .debug "running validity checks agains given config..."
  let valid ← lift (Configuration.isValid document)
  modifyConfiguration fun c => { c with valid := valid }
  if valid then log .config .debug ("yaml config seems to be valid: " ++ document.display)
  else log .config .error ("invalid yaml config: " ++ document.display)

/-- The levels that a document can ask for. If it names several, the last of these counts. -/
def namedLevels : List LogLevel := [.debug, .error, .info]

/-- Sets the log level that a document asks for, unless the command line has set it. -/
def applyLevel (document : Value) : Run Unit := do
  if (← session).log.pinned then return
  match document.field? "loglevel" with
  | none => return
  | some wanted =>
    namedLevels.forM fun level => do
      if ← lift (wanted.hasText (String.ofList (Text.lower level.name.toList))) then setLevel level

def addEntries : List Value → Run Unit
  | [] => pure ()
  | entry :: rest => do
    let c ← configuration
    let a ← lift (Configuration.readEntry c.analyses.length c.project c.version entry)
    modifyConfiguration fun c => { c with analyses := c.analyses ++ [a] }
    addEntries rest

def applyDocument : Run Unit := do
  log .config .debug "updating config attributes from yaml config..."
  let document := (← configuration).documents.document
  let project ← lift (document.at? "project_name")
  modifyConfiguration fun c => { c with project := project }
  let entries ← lift (document.at? "analyses")
  applyLevel document
  addEntries (← lift entries.members)

def load (path : String) : Run Unit := do
  loadDocument path
  validate
  if (← configuration).valid then applyDocument

def logDocument : Run Unit := do
  log .config .debug (← configuration).documents.document.display

/-- A configuration as a whole cannot be put into a message. -/
def logConfiguration : Run Unit := throw .wrongKind

end CodeAtlas.Run
