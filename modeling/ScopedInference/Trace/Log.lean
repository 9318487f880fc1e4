import ScopedInference.Registration.Event
import ScopedInference.TypeExpr.Display

/-!
# Log lines

A log shows every event as a line: attempts and accepted facts at the trace level, with the depth at
which they happen, and notes at the debug level. Indentation only changes the depth.
-/

namespace ScopedInference

inductive LogLevel where
  | trace
  | debug
deriving DecidableEq

def LogLevel.label : LogLevel → String
  | .trace => "TRACE"
  | .debug => "DEBUG"

structure LogLine where
  level : LogLevel
  message : String
  fields : List (String × String)
deriving DecidableEq

def Note.message : Note → String
  | .declaredKept _ _ => "declared parameter keeps its self-binding"
  | .openKept _ _ _ _ => "open binding kept; merging with a concrete value is not computed"
  | .relationsClash _ _ _ => "relations clash, degrading to top"
  | .noCommonSupertype _ _ _ => "no common supertype, degrading to top"
  | .arityDiffers _ _ => "function arity differs, signature not decomposed"

def Note.fields : Note → List (String × String)
  | .declaredKept context parameter => [("context", context.hex), ("parameter", parameter)]
  | .openKept context parameter existing actual =>
    [("context", context.hex), ("parameter", parameter), ("existing", existing.display),
      ("actual", actual.display)]
  | .relationsClash parameter existing actual | .noCommonSupertype parameter existing actual =>
    [("parameter", parameter), ("existing", existing.display), ("actual", actual.display)]
  | .arityDiffers template actual =>
    [("template", template.display), ("actual", actual.display)]

def Note.logLine (n : Note) : LogLine := ⟨.debug, n.message, n.fields⟩

/-- A trace line about a template, and perhaps an actual value, at a depth. -/
def traceLine (message : String) (depth : Nat) (template : String) (actual : Option String)
    (context target : ContextId) : LogLine :=
  { level := .trace, message
    fields := [("depth", toString depth), ("template", template)]
      ++ (actual.elim [] fun a => [("actual", a)])
      ++ [("context", context.hex), ("target", target.hex)] }

structure Logger where
  depth : Nat := 0
  lines : Array LogLine := #[]

namespace Logger

def add (l : Logger) (line : LogLine) : Logger := { l with lines := l.lines.push line }

/-- The depth never goes below zero. -/
def observe (l : Logger) : Event → Logger
  | .trying template none context target =>
    l.add (traceLine "trying registration without a value" l.depth template.display none context
      target)
  | .trying template (some actual) context target =>
    l.add (traceLine "trying registration" l.depth template.display (some actual.display) context
      target)
  | .registerType template actual context target =>
    l.add (traceLine "register type" l.depth template.display (some actual.display) context target)
  | .registerMul template actual context target =>
    l.add (traceLine "register multiplicity" l.depth template.display (some actual.display) context
      target)
  | .indent => { l with depth := l.depth + 1 }
  | .outdent => { l with depth := l.depth - 1 }
  | .note n => l.add n.logLine

def observeAll (l : Logger) (events : Array Event) : Logger := events.foldl observe l

end Logger

end ScopedInference
