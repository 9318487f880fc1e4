import ScopedInference.Binding

/-!
# What happens during a registration

Attempts and accepted facts in order, with the nesting of the attempts marked by `indent` and
`outdent`. Notes say why something that could be expected was not done.
-/

namespace ScopedInference

inductive Note where
  | declaredKept (context : ContextId) (parameter : String)
  | openKept (context : ContextId) (parameter : String) (existing actual : TypeExpr)
  | relationsClash (parameter : String) (existing actual : TypeExpr)
  | noCommonSupertype (parameter : String) (existing actual : TypeExpr)
  | arityDiffers (template actual : TypeExpr)
deriving DecidableEq

inductive Event where
  | trying (template : TypeExpr) (actual : Option TypeExpr) (context target : ContextId)
  | registerType (template actual : TypeExpr) (context target : ContextId)
  | registerMul (template actual : Multiplicity) (context target : ContextId)
  | indent
  | outdent
  | note (n : Note)
deriving DecidableEq

end ScopedInference
