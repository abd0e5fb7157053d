import CodeCache.Text.Layout

/-!
# Log categories

What the cache reports falls into categories, each of which has a verbosity of its own.
-/

namespace CodeCache

inductive LogKind where
  | archive
  | global
  | assembly
  | opt
  | save
  | restore
  | merge
  deriving DecidableEq, Repr

namespace LogKind

def all : List LogKind :=
  [archive, global, assembly, opt, save, restore, merge]

def name : LogKind → String
  | archive => "archive"
  | global => "global"
  | assembly => "assembly"
  | opt => "opt"
  | save => "save"
  | restore => "restore"
  | merge => "merge"

def ofOption? (s : String) : Option (List LogKind) :=
  if s = "all" then some all else (all.find? (·.name == s)).map ([·])

def target (kind : LogKind) : String :=
  "code_revive::" ++ kind.name

end LogKind

inductive LogLevel where
  | none
  | fail
  | warning
  | trace
  | info
  deriving DecidableEq, Repr

namespace LogLevel

def all : List LogLevel :=
  [none, fail, warning, trace, info]

def name : LogLevel → String
  | none => "none"
  | fail => "fail"
  | warning => "warning"
  | trace => "trace"
  | info => "info"

def ofName? (s : String) : Option LogLevel :=
  all.find? (·.name == s)

def filter : LogLevel → String
  | none => "off"
  | fail => "error"
  | warning => "warn"
  | trace => "debug"
  | info => "trace"

end LogLevel

end CodeCache
