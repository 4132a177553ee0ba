/-!
# The log

A message is recorded if logging is on and the level lets it through. Each kind of message starts with a sign
of its own.
-/

namespace CodeAtlas

inductive LogLevel where
  | error
  | info
  | debug
deriving Repr, DecidableEq, Inhabited

namespace LogLevel

def detail : LogLevel → Nat
  | .error => 3
  | .info => 6
  | .debug => 7

def name : LogLevel → String
  | .error => "ERROR"
  | .info => "INFO"
  | .debug => "DEBUG"

def letter : LogLevel → String
  | .error => "E"
  | .info => "I"
  | .debug => "D"

def all : List LogLevel := [.error, .info, .debug]

def ofName? (s : String) : Option LogLevel := all.find? fun l => l.name == s

end LogLevel

inductive LogSource where
  | parser
  | metrics
  | config
  | analysis
  | graph
  | app
deriving Repr, DecidableEq, Inhabited

def LogSource.name : LogSource → String
  | .parser => "parser"
  | .metrics => "metrics"
  | .config => "config"
  | .analysis => "analysis"
  | .graph => "graph"
  | .app => "vartika"

inductive LogKind where
  | info
  | start
  | done
  | debug
  | warning
  | error
deriving Repr, DecidableEq, Inhabited

namespace LogKind

def level : LogKind → LogLevel
  | .info | .start | .done => .info
  | .debug | .warning => .debug
  | .error => .error

def sign : LogKind → String
  | .info | .debug => "⏩"
  | .start => "👉"
  | .done => "✅"
  | .warning => "❓"
  | .error => "❗"

def name : LogKind → String
  | .info => "info"
  | .start => "info_start"
  | .done => "info_done"
  | .debug => "debug"
  | .warning => "warning"
  | .error => "error"

def all : List LogKind := [.info, .start, .done, .debug, .warning, .error]

def ofName? (s : String) : Option LogKind := all.find? fun k => k.name == s

end LogKind

structure LogRecord where
  level : LogLevel
  source : LogSource
  message : String
deriving Repr, DecidableEq, Inhabited

structure Log where
  level : LogLevel := .error
  active : Bool := true
  /-- Whether the level was given on the command line, so that a configuration does not change it. -/
  pinned : Bool := false
  records : List LogRecord := []
deriving Repr, Inhabited

namespace Log

def lets (log : Log) (level : LogLevel) : Bool :=
  log.active && decide (level.detail ≤ log.level.detail)

def write (log : Log) (source : LogSource) (kind : LogKind) (message : String) : Log :=
  if log.lets kind.level then
    { log with records := log.records ++ [⟨kind.level, source, kind.sign ++ " " ++ message⟩] }
  else log

def isAtLeast (log : Log) (level : LogLevel) : Bool := decide (log.level.detail ≤ level.detail)

def errors (log : Log) : Nat := (log.records.filter fun r => r.level = .error).length

end Log

end CodeAtlas
