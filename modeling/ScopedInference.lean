import ScopedInference.Arena.Display
import ScopedInference.Arena.Operations
import ScopedInference.Arena.Trials
import ScopedInference.Trace.Json
import ScopedInference.Trace.Log
import ScopedInference.Workload
import ScopedInference.Proofs.Arena.ParentChain
import ScopedInference.Proofs.Arena.Pool
import ScopedInference.Proofs.Arena.SharedIds
import ScopedInference.Proofs.Arena.FirstId
import ScopedInference.Proofs.Registration.Congruence
import ScopedInference.Proofs.Registration.Update
import ScopedInference.Proofs.Registration.OwnerChain
import ScopedInference.Proofs.Hierarchy.WellFormed
import ScopedInference.Proofs.Registration.Progress
import ScopedInference.Proofs.Registration.Ground
import ScopedInference.Proofs.Registration.Learning
import ScopedInference.Proofs.Registration.Matching
import ScopedInference.Proofs.Hierarchy.Ancestors
import ScopedInference.Proofs.Registration.Values
import ScopedInference.Proofs.Registration.Again
import ScopedInference.Proofs.Registration.Commute
import ScopedInference.Proofs.Hierarchy.Joins
import ScopedInference.Proofs.Registration.Order
import ScopedInference.Proofs.Registration.OpenBindings
import ScopedInference.Proofs.Arena.Declared
import ScopedInference.Proofs.Arena.Closed
import ScopedInference.Proofs.Registration.Trials
import ScopedInference.Proofs.Arena.Hops
import ScopedInference.Proofs.Arena.Limits
import ScopedInference.Proofs.Registration.Alike
import ScopedInference.Proofs.Registration.Instances
import ScopedInference.Proofs.Registration.OpenArguments
import ScopedInference.Proofs.Arena.OperationOwners
import ScopedInference.Proofs.Arena.Lookups
import ScopedInference.Proofs.Registration.Bottom
import ScopedInference.Proofs.Arena.Rebinding
import ScopedInference.Proofs.Registration.SelfFacts
import ScopedInference.Proofs.Registration.Multiplicities
import ScopedInference.Proofs.Registration.Relations
import ScopedInference.Proofs.Hierarchy.Covers
import ScopedInference.Proofs.Trace.Brackets
import ScopedInference.Proofs.Trace.Account
import ScopedInference.Proofs.Registration.NestedEqualities
import ScopedInference.Proofs.Registration.OwnParameters
import ScopedInference.Proofs.Hierarchy.Search
import ScopedInference.Proofs.Hierarchy.Policies
import ScopedInference.Proofs.TypeExpr.Display
import ScopedInference.Proofs.Hierarchy.Views
import ScopedInference.Proofs.Hierarchy.Nesting
