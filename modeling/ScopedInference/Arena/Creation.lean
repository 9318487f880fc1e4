import ScopedInference.Arena.Basic

/-!
# Creating contexts

Arenas draw ids in blocks from a counter that they share, so that ids of different arenas differ. An
arena may instead start with a block of its own choice; it goes on with shared blocks, which may
hold ids that it has used before, and a context that gets such an id takes the place of the old one.
-/

namespace ScopedInference

/-- The first id that no block has taken yet. -/
structure IdCounter where
  next : ContextId := 1

namespace IdCounter

def blockSize : Nat := 1024

/-- Ids and the ends of blocks stay within 32 bits. -/
def limit : Nat := UInt32.size - 1

/-- The start of a new block, and the counter after it. -/
def takeBlock (k : IdCounter) : Except InferError (ContextId × IdCounter) :=
  if k.next + blockSize ≤ limit then .ok (k.next, ⟨k.next + blockSize⟩) else .error .idsExhausted

end IdCounter

/-- A declaration whose type parameters a context is made for. -/
structure Signature where
  name : String
  params : List TypeParam

def ClassDecl.signature (d : ClassDecl) : Signature := ⟨d.name, d.params⟩

/-- Every declared parameter is bound to itself, for good. -/
def BindingState.declaring (id : ContextId) (params : List TypeParam) : BindingState :=
  params.foldl (fun s p => s.bind p.name (.terminal (TypeExpr.param p) id)) {}

/-- A context that knows nothing but the parameters of its signature. -/
def Context.fresh (id : ContextId) (parent : Option ContextId) (signature : Option Signature) :
    Context :=
  let params := signature.elim [] (·.params)
  { id, parent, scope := signature.map (·.name), declared := .ofList (params.map (·.name)),
    current := .declaring id params, below := [] }

namespace Arena

/-- An arena whose first block starts at a given id, cut off at the limit. -/
def withFirstId (h : Hierarchy) (first : ContextId) : Arena :=
  { hierarchy := h, nextId := first, blockEnd := min (first + IdCounter.blockSize) IdCounter.limit }

def takeId (a : Arena) (k : IdCounter) : Except InferError (ContextId × Arena × IdCounter) :=
  if a.nextId = a.blockEnd then do
    let (start, k) ← k.takeBlock
    return (start, { a with nextId := start + 1, blockEnd := start + IdCounter.blockSize }, k)
  else return (a.nextId, { a with nextId := a.nextId + 1 }, k)

/-- A context is made below one that is there already, or below none. -/
def checkParent (a : Arena) : Option ContextId → Except InferError Unit
  | none => .ok ()
  | some p => (a.context p).map fun _ => ()

/-- Makes a context below `parent`, with the new id. -/
def newContext (a : Arena) (k : IdCounter) (parent : Option ContextId := none)
    (signature : Option Signature := none) : Except InferError (ContextId × Arena × IdCounter) := do
  a.checkParent parent
  let (id, a, k) ← a.takeId k
  return (id, a.insert id (.fresh id parent signature), k)

end Arena

end ScopedInference
