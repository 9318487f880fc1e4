import ScopedInference.Arena.Basic
import ScopedInference.Registration.Decision

/-!
# Registration

A registration matches a template against an actual type and binds the template's parameters. The
target is the context in which parameters of the actual type are read, and owns the new bindings.
Arguments, positions, columns and forwarded facts are registered in turn, one level deeper each
time; `step` is one level, with what happens below it passed in. Whatever was changed before a
failure stays changed.
-/

namespace ScopedInference

inductive Request where
  | type (context : ContextId) (template : TypeExpr) (actual : Option TypeExpr) (target : ContextId)
    (merge : Bool)
  | function (context : ContextId) (template actual : Arrow TypeExpr) (target : ContextId)
    (merge : Bool)
  | mul (context : ContextId) (template actual : Multiplicity) (target : ContextId)

/-- An arena and what has happened in it. -/
structure Run where
  arena : Arena
  events : Array Event := #[]

def Run.record (r : Run) (e : Event) : Run := { r with events := r.events.push e }

abbrev RunM := EStateM InferError Run

namespace RunM

def record (e : Event) : RunM Unit := modify (·.record e)

def context (id : ContextId) : RunM Context := do
  MonadExcept.ofExcept ((← get).arena.context id)

def hierarchy : RunM Hierarchy := return (← get).arena.hierarchy

/-- Runs an action one indentation level deeper. The level is restored even if it fails. -/
def nested (act : RunM Unit) : RunM Unit := fun r =>
  match act (r.record .indent) with
  | .ok u r => .ok u (r.record .outdent)
  | .error e r => .error e (r.record .outdent)

/-- Carries out a decision but for its forwards. -/
def settle {α : Type} [Bindable α] (context target : ContextId) (name : String) (d : Decision α) :
    RunM Unit := do
  if let some n := d.note? then record (.note n)
  if let some v := d.value? then
    let run ← get
    let arena ← MonadExcept.ofExcept
      (run.arena.modifyCurrent context (·.bind name (.bound v target)))
    set { run with arena }

end RunM

namespace Registration

open RunM

/-- How one class type is seen where the other one is expected: as a type of that class, or as it is
if it is none. -/
def viewedAs (h : Hierarchy) (c other : ClassType) : ClassType := (h.view? c other.head).getD c

/-- The templates and the actual arguments of two class types, paired through the hierarchy. Closed
types of unrelated classes say nothing about each other. -/
def pairArguments (h : Hierarchy) (template actual : ClassType) : Option (ClassType × ClassType) :=
  let isClosed (c : ClassType) := (TypeExpr.classType c).isFullyConcrete
  if h.isSubtype template.head actual.head then some (viewedAs h template actual, actual)
  else if isClosed template && isClosed actual then none
  else some (template, viewedAs h actual template)

section

variable (recur : Request → RunM Unit)

def forwardAll (l : List Request) : RunM Unit :=
  if l.isEmpty then return else nested (l.forM recur)

/-- A parameter of the template. -/
def stepParameter (context : ContextId) (p : TypeParam) (actual : TypeExpr) (target : ContextId)
    (merge : Bool) : RunM Unit := do
  let c ← RunM.context context
  let h ← RunM.hierarchy
  match typeDecision h context target p c.onTrial merge (c.current.binding? p.name) actual with
  | .error e => throw (.conflict e)
  | .ok d =>
    settle context target p.name d
    record (.registerType (.param p) actual context target)
    forwardAll recur
      (d.forwards.map fun f => .type f.context f.template (some f.value) target merge)

/-- An operation as the template: the left side of an equality stands for the actual type, and two
operations of one kind match side by side. -/
def stepOperation (context : ContextId) (kind : OperationKind) (left right actual : TypeExpr)
    (target : ContextId) (merge : Bool) : RunM Unit := do
  if kind = .equal then nested (recur (.type context left (some actual) target merge))
  match actual with
  | .operation kind' left' right' =>
    if kind' = kind then nested do
      recur (.type context left (some left') target merge)
      recur (.type context right (some right') target merge)
  | _ => return

/-- An equality observed below a parent: its left side belongs to the parent. -/
def stepEquality (here there : Context) (actual : TypeExpr) (merge : Bool) : RunM Unit :=
  match actual, there.parent with
  | .operation .equal left right, some owner =>
    nested (recur (.type (here.parent.getD owner) left (some right) owner merge))
  | _, _ => return

/-- Two class types: multiplicity arguments first. -/
def stepArguments (context : ContextId) (template actual : ClassType) (target : ContextId)
    (merge : Bool) : RunM Unit := do
  match pairArguments (← RunM.hierarchy) template actual with
  | none => return
  | some (templates, values) =>
    (templates.muls.zip values.muls).forM fun (m, v) => recur (.mul context m v target)
    (templates.types.zip values.types).forM fun (t, v) => match t, v with
      | .function f, .function g => recur (.function context f g target merge)
      | _, _ => nested (recur (.type context t (some v) target merge))

/-- Two concrete types. -/
def stepConcrete (context : ContextId) (template actual : TypeExpr) (target : ContextId)
    (merge : Bool) : RunM Unit :=
  match template, actual with
  | .relation templates, .relation values =>
    nested ((values.align templates).forM fun (v, t) =>
      recur (.type context t.type (some v.type) target merge))
  | .function f, .function g => recur (.function context f g target false)
  | .classType c, .classType d => stepArguments recur context c d target merge
  | _, _ => return

/-- The top and bottom types have no structure to match. -/
def isExtremum (t : TypeExpr) : Bool := t.isTop || t.isBottom

/-- What an actual type says about the parameters of a template. -/
def stepTemplate (context : ContextId) (template actual : TypeExpr) (target : ContextId)
    (merge : Bool) : RunM Unit :=
  match template with
  | .operation kind left right => stepOperation recur context kind left right actual target merge
  | .param p => stepParameter recur context p actual target merge
  | _ =>
    if actual.isConcrete && !isExtremum template && !isExtremum actual then
      stepConcrete recur context template actual target merge
    else return

def stepType (context : ContextId) (template : TypeExpr) (actual? : Option TypeExpr)
    (target : ContextId) (merge : Bool) : RunM Unit := do
  let here ← RunM.context context
  let there ← RunM.context target
  record (.trying template actual? context target)
  match actual? with
  | none => return
  | some actual =>
    stepEquality recur here there actual merge
    stepTemplate recur context template actual target merge

/-- Two function types match position by position if they have the same number of parameters. -/
def stepFunction (context : ContextId) (template actual : Arrow TypeExpr) (target : ContextId)
    (merge : Bool) : RunM Unit := do
  record (.registerType (.function template) (.function actual) context target)
  if template.params.length ≠ actual.params.length then
    record (.note (.arityDiffers (.function template) (.function actual)))
  else
    nested ((template.params.zip actual.params ++ [(template.result, actual.result)]).forM
      fun (p, q) => do
        recur (.type context p.type (some q.type) target merge)
        recur (.mul context p.mul q.mul target))

def stepMul (context : ContextId) (template actual : Multiplicity) (target : ContextId) :
    RunM Unit := do
  let c ← RunM.context context
  let _ ← RunM.context target
  match template with
  | .range _ _ => return
  | .param name =>
    let d := mulDecision context target c.onTrial (c.current.binding? name) actual
    settle context target name d
    record (.registerMul template actual context target)
    forwardAll recur (d.forwards.map fun f => .mul f.context f.template f.value target)

def step : Request → RunM Unit
  | .type context template actual? target merge =>
    stepType recur context template actual? target merge
  | .function context template actual target merge =>
    stepFunction recur context template actual target merge
  | .mul context template actual target => stepMul recur context template actual target

end

/-- Registers a request and what follows from it, nested at most `n` levels. -/
def register : Nat → Request → RunM Unit
  | 0, _ => do throw (.depthExceeded (← get).arena.maxDepth)
  | n + 1, r => step (register n) r

end Registration

/-- Registers a request, with nested ones up to the arena's depth limit. -/
def Arena.register (a : Arena) (r : Request) : EStateM.Result InferError Run Unit :=
  Registration.register (a.maxDepth + 1) r { arena := a }

end ScopedInference
