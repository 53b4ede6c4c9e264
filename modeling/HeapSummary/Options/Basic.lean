import HeapSummary.Bounding.Depth

/-!
# Options

Which propagation a summary uses, and how its interfaces are kept small.
-/

namespace HeapSummary

structure Options where
  cutUnreachable : Bool
  mergeExceptions : Bool
  cutImmutables : Bool
  /-- Full names of the types whose instances never change. -/
  immutableTypes : List String
  mergeSharedFields : Bool
  /-- Whether a call that was pruned is folded into its caller as one candidate. -/
  foldPruned : Bool
  /-- Whether candidates propagate only as far as points-to sets reach. -/
  gatedPropagation : Bool
  /-- The size beyond which an interface is merged further, or nothing for no limit. -/
  maxInterface : Option Nat
  mergeDepth : Nat
  deriving DecidableEq

namespace Options

/-- The types known to be immutable, in alphabetical order. -/
def immutableNames : List String :=
  ["java.lang.Boolean", "java.lang.Byte", "java.lang.Character", "java.lang.Double", "java.lang.Float",
    "java.lang.Integer", "java.lang.Long", "java.lang.Short", "java.lang.String"]

def standard : Options := ⟨true, true, true, immutableNames, true, true, true, some 30, Bounding.standardDepth⟩

instance : Inhabited Options := ⟨standard⟩

end Options

end HeapSummary
