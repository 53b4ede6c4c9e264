import HeapSummary.Bounding.Cut
import HeapSummary.Bounding.RootGroup
import HeapSummary.Bounding.SharedField
import HeapSummary.Options.Basic

/-!
# Bounding passes

An interface is made smaller by passes in a fixed order. An option switches each of the first four on; the last two run
only on an interface that is still too large.
-/

namespace HeapSummary

inductive Pass where
  | cutUnreachable
  | mergeExceptions
  | cutImmutables
  | mergeSharedFields
  | mergeStatics
  | mergeBelowDepth
  deriving DecidableEq

namespace Pass

def name : Pass → String
  | cutUnreachable => "cut-unreachable"
  | mergeExceptions => "merge-exceptions"
  | cutImmutables => "cut-immutables"
  | mergeSharedFields => "merge-one-field-per-parent"
  | mergeStatics => "merge-statics"
  | mergeBelowDepth => "merge-at-depth"

def order : List Pass :=
  [cutUnreachable, mergeExceptions, cutImmutables, mergeSharedFields, mergeStatics, mergeBelowDepth]

/-- The limit that an interface exceeds. -/
def exceeded? (o : Options) (b : Bounding) : Option Nat := o.maxInterface.filter (· < b.size)

/-- What a pass does, if it is to run. -/
def result? (o : Options) (immutables : IdSet .type) (b : Bounding) : Pass → Option (Except Fault Bounding)
  | cutUnreachable => if o.cutUnreachable then some b.cutUnreachable else none
  | mergeExceptions => if o.mergeExceptions then some b.mergeExceptions else none
  | cutImmutables => if o.cutImmutables then some (b.cutImmutables immutables o.cutUnreachable) else none
  | mergeSharedFields => if o.mergeSharedFields then some b.mergeSharedFields else none
  | mergeStatics => (exceeded? o b).map fun _ => b.mergeStatics
  | mergeBelowDepth => (exceeded? o b).map fun max => b.mergeBelowDepth max o.mergeDepth

/-- Runs passes one after another, noting for each that ran how many candidates it removed. -/
def runAll (o : Options) (immutables : IdSet .type) : List Pass → Bounding → Except Fault (Bounding × List (Pass × Nat))
  | [], b => return (b, [])
  | pass :: rest, b =>
    match pass.result? o immutables b with
    | none => runAll o immutables rest b
    | some r => do
      let next ← r
      let (last, removed) ← runAll o immutables rest next
      return (last, (pass, b.size - next.size) :: removed)

end Pass

end HeapSummary
