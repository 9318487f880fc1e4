import ScopedInference.Registration.Event
import ScopedInference.TypeExpr.Display

/-!
# Recorded traces

A recorder turns events into numbered steps with their texts and nesting depths. Notes are not
recorded. `render` shows one line per step, indented by its depth.
-/

namespace ScopedInference

inductive TraceAction where
  | trying
  | registerType
  | registerMul
deriving DecidableEq

def TraceAction.label : TraceAction → String
  | .trying => "try"
  | .registerType => "type"
  | .registerMul => "mul"

structure TraceStep where
  number : Nat
  depth : Nat
  action : TraceAction
  template : String
  actual : Option String
  context : String
  target : String
deriving DecidableEq

structure Recorder where
  depth : Nat := 0
  steps : Array TraceStep := #[]

namespace Recorder

def add (r : Recorder) (action : TraceAction) (template : String) (actual : Option String)
    (context target : ContextId) : Recorder :=
  { r with
    steps := r.steps.push
      { number := r.steps.size, depth := r.depth, action, template, actual, context := context.hex,
        target := target.hex } }

/-- The depth never goes below zero. -/
def observe (r : Recorder) : Event → Recorder
  | .trying template actual context target =>
    r.add .trying template.display (actual.map (·.display)) context target
  | .registerType template actual context target =>
    r.add .registerType template.display (some actual.display) context target
  | .registerMul template actual context target =>
    r.add .registerMul template.display (some actual.display) context target
  | .indent => { r with depth := r.depth + 1 }
  | .outdent => { r with depth := r.depth - 1 }
  | .note _ => r

def observeAll (r : Recorder) (events : Array Event) : Recorder := events.foldl observe r

end Recorder

def TraceStep.render (s : TraceStep) : String :=
  String.join (List.replicate s.depth "  ") ++ s.action.label ++ " " ++ s.template ++ " <- "
    ++ s.actual.getD "(none)" ++ " @" ++ s.context ++ "->" ++ s.target ++ "\n"

def Recorder.render (r : Recorder) : String := String.join (r.steps.toList.map (·.render))

end ScopedInference
