import CodeAtlas.CommandLine
import CodeAtlas.Program.Analyze
import CodeAtlas.Program.Load

/-!
# Starting the program

The command line says what is done: help is shown, a document is made from a template, or a configuration is loaded
and its analyses are carried out.
-/

namespace CodeAtlas.Run

open CommandLine

def templateName (language : String) : String := String.ofList (Text.lower language.toList) ++ "-template.yaml"

def addTemplate (language : String) : Run Unit := do
  let s ← session
  let source := Path.below s.home ("configs/" ++ templateName language)
  let target := Path.below (FileTree.pathOf s.disk.cwd) (templateName language)
  if !s.disk.pathExists source then
    print ("❌ could not find the config template: " ++ source ++ "\n")
  else if s.disk.pathExists target then
    print ("❌ file already exists: " ++ target ++ "\n")
  else
    match (s.disk.read source).bind (s.disk.write target) with
    | .ok disk => do
      modifySession fun s => { s with disk := disk }
      print ("✅ created config file from template: " ++ target ++ "\n")
    | .error _ => log .config .error ("could not copy the config template: " ++ source)

def applyLevels (o : Options) : Run Unit := do
  if o.verbose then pinLevel .info
  if o.debug then pinLevel .debug
  if o.error then pinLevel .error

def given? (s : Option String) : Option String := s.filter (· != "")

def applyOptions (calledAs : String) (o : Options) : Run Unit := do
  if o.isEmpty then print (helpText calledAs)
  else match given? o.language, given? o.config with
    | some language, _ => addTemplate language
    | none, none => do
      print (helpText calledAs)
      log .config .error "no yaml config given"
    | none, some path => do
      applyLevels o
      modifyConfiguration fun c => { c with path := path }

def readArguments (calledAs : String) (arguments : List String) : Run Unit :=
  match Request.ofArguments arguments with
  | .refused => throw (.exit "2")
  | .help => do
    print (helpText calledAs)
    throw (.exit "0")
  | .run options => applyOptions calledAs options

def startAnalyzing : Run Unit := do
  modify fun p => { p with collected := ∅ }
  analyzeAll

def start (calledAs : String) (arguments : List String) : Run Unit := do
  readArguments calledAs arguments
  let path := (← configuration).path
  if path != "" then
    load path
    if (← configuration).valid then startAnalyzing
    else log .app .error "will not start with any analysis due to configuration errors"

def startScript (arguments : List String) : Run Unit := do
  start "graphcodemapper.py" arguments
  throw (.exit "None")

def showScanner : Run Unit := print "LEXER.results=\x7b\x7d\n"

def logVersion : Run Unit := log .app .info ("Graph Code Mapper version: " ++ version)

def logAll : Run Unit := do
  logDocument
  logConfiguration

end CodeAtlas.Run
