import CodeAtlas.Comment
import CodeAtlas.Value.Member

/-!
# Languages and their files
-/

namespace CodeAtlas

inductive Language where
  | java
  | objc
  | javascript
  | c
  | cpp
  | python
deriving Repr, DecidableEq, Inhabited

namespace Language

def name : Language → String
  | .java => "JAVA"
  | .objc => "OBJC"
  | .javascript => "JAVASCRIPT"
  | .c => "C"
  | .cpp => "CPP"
  | .python => "PY"

def all : List Language := [.java, .objc, .javascript, .c, .cpp, .python]

def ofName? (s : String) : Option Language := all.find? fun l => l.name == s

def scannerName : Language → String
  | .java => "JAVA_PARSER"
  | .objc => "OBJC_PARSER"
  | .javascript => "JAVASCRIPT_PARSER"
  | .c => "C_PARSER"
  | .cpp => "CPP_PARSER"
  | .python => "PYTHON_PARSER"

def shortName : Language → String
  | .java => "java"
  | .objc => "objc"
  | .javascript => "js"
  | .c => "c"
  | .cpp => "cpp"
  | .python => "py"

def ofShortName? (s : String) : Option Language := all.find? fun l => l.shortName == s

def scanners : List Language := [.java, .c, .cpp, .javascript, .objc, .python]

def spacing : Language → Spacing
  | .javascript => .withBothQuotes
  | _ => .withQuotes

def fileSpacing : Language → Spacing
  | .javascript => .plain
  | _ => .withQuotes

def importSpacing : Language → Spacing
  | .java | .objc => .plain
  | .javascript => .withBothQuotes
  | _ => .withQuotes

def comments : Language → CommentMarks
  | .python => .scriptStyle
  | _ => .cStyle

end Language

inductive FileKind where
  | java
  | c
  | cpp
  | javascript
  | jsx
  | objc
  | cHeader
  | python
deriving Repr, DecidableEq

namespace FileKind

def all : List FileKind := [.java, .c, .cpp, .javascript, .jsx, .objc, .cHeader, .python]

def extension : FileKind → String
  | .java => ".java"
  | .c => ".c"
  | .cpp => ".cpp"
  | .javascript => ".js"
  | .jsx => ".jsx"
  | .objc => ".m"
  | .cHeader => ".h"
  | .python => ".py"

def name : FileKind → String
  | .java => "java"
  | .c => "c"
  | .cpp => "cpp"
  | .javascript => "javascript"
  | .jsx => "jsx"
  | .objc => "objc"
  | .cHeader => "c_header"
  | .python => "python"

def ofExtension? (ext : String) : Option FileKind := all.find? fun k => k.extension == ext

def isName (s : String) : Bool :=
  all.any fun k => k.name == String.ofList (Text.lower s.toList)

end FileKind

/-- The scanner for files with an extension. Headers go to the first of three languages that is permitted by
name. -/
def Language.ofExtension? (ext : String) (permitted : Value) : Except Fault (Option Language) :=
  match FileKind.ofExtension? ext with
  | none => .ok none
  | some .java => .ok (some .java)
  | some .c => .ok (some .c)
  | some .cpp => .ok (some .cpp)
  | some .javascript | some .jsx => .ok (some .javascript)
  | some .objc => .ok (some .objc)
  | some .python => .ok (some .python)
  | some .cHeader =>
    if permitted.truthy then do
      if ← permitted.hasText "objc" then return some .objc
      if ← permitted.hasText "c" then return some .c
      if ← permitted.hasText "cpp" then return some .cpp
      return none
    else .ok none

end CodeAtlas
