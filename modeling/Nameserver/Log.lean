/-!
# Log entries

What the library reports beside its results is returned with them, as a list of entries in order.
-/

namespace Nameserver

/-- How much an entry matters. -/
inductive LogLevel where
  | trace
  | debug
  | warn
  deriving DecidableEq, Repr

def LogLevel.text : LogLevel → String
  | .trace => "TRACE"
  | .debug => "DEBUG"
  | .warn => "WARN"

structure LogEntry where
  level : LogLevel
  message : String
  deriving DecidableEq, Repr

def LogEntry.text (e : LogEntry) : String := e.level.text ++ " " ++ e.message

/-- A result, and what was reported on the way to it. -/
structure Logged (α : Type) where
  value : α
  log : List LogEntry

end Nameserver
