import HeapSummary.Options.Basic
import HeapSummary.Text.Numeral
import HeapSummary.Text.Quoted

/-!
# Settings

Options as set by variables. A variable that is not set leaves its option at the standard; the first one set to
something invalid is reported, in the order of `Setting`. Blanks around a value do not count.
-/

namespace HeapSummary

inductive Setting where
  | cutUnreachable
  | mergeExceptions
  | cutImmutables
  | mergeSharedFields
  | foldPruned
  | gatedPropagation
  | maxInterface
  | mergeDepth
  deriving DecidableEq

/-- The variable of a setting. -/
def Setting.key : Setting → String
  | cutUnreachable => "OBJGRAPH_CUT_OFF_UNREACHABLE"
  | mergeExceptions => "OBJGRAPH_MERGE_EXCEPTIONS"
  | cutImmutables => "OBJGRAPH_CUT_OFF_IMMUTABLE"
  | mergeSharedFields => "OBJGRAPH_MERGE_ONE_FIELD_PER_PARENT"
  | foldPruned => "OBJGRAPH_MERGE_PRUNED_CALL_NODES"
  | gatedPropagation => "OBJGRAPH_ADVANCED_INTERPROC_PROP"
  | maxInterface => "OBJGRAPH_MAX_NODES_PER_INTERFACE"
  | mergeDepth => "OBJGRAPH_MERGE_DEPTH"

inductive SettingError where
  | notFlag (setting : Setting) (word : String)
  | notNumber (setting : Setting) (text : String) (cause : Text.NumeralError)
  deriving DecidableEq

namespace SettingError

def setting : SettingError → Setting
  | notFlag s _ => s
  | notNumber s _ _ => s

def message : SettingError → String
  | notFlag s _ => s!"invalid value for {s.key}"
  | notNumber s text _ => s!"invalid value for {s.key}: {Text.quoted text}"

/-- What is wrong with the value itself. -/
def cause : SettingError → String
  | notFlag _ word => s!"expected a boolean, got {Text.quoted word}"
  | notNumber _ _ e => e.message

end SettingError

namespace Setting

/-- Where the values of variables come from. -/
abbrev Lookup := String → Option String

/-- The truth value of a word in lower case. -/
def flagOfWord? : String → Option Bool
  | "1" | "true" | "yes" | "on" => some true
  | "0" | "false" | "no" | "off" => some false
  | _ => none

/-- A value without the blanks around it and in lower case. -/
def word (text : String) : String := String.ofList ((Text.trim text.toList).map Char.toLower)

def readFlag (s : Setting) (text : String) : Except SettingError Bool :=
  match flagOfWord? (word text) with
  | some b => .ok b
  | none => .error (.notFlag s (word text))

/-- A limit, none for a negative number. -/
def readLimit (s : Setting) (text : String) : Except SettingError (Option Nat) :=
  match Text.readSigned (Text.trim text.toList) with
  | .ok n => .ok n.toNat?
  | .error e => .error (.notNumber s text e)

def readDepth (s : Setting) (text : String) : Except SettingError Nat :=
  match Text.readUnsigned (Text.trim text.toList) with
  | .ok n => .ok n
  | .error e => .error (.notNumber s text e)

/-- The value that a variable denotes, or the standard one if it is not set. -/
def resolve {α : Type} (s : Setting) (read : Setting → String → Except SettingError α) (standard : α)
    (lookup : Lookup) : Except SettingError α :=
  match lookup s.key with
  | some text => read s text
  | none => .ok standard

end Setting

/-- The options that the variables of a lookup set. -/
def Options.ofLookup (lookup : Setting.Lookup) : Except SettingError Options := do
  let cutUnreachable ← Setting.cutUnreachable.resolve Setting.readFlag standard.cutUnreachable lookup
  let mergeExceptions ← Setting.mergeExceptions.resolve Setting.readFlag standard.mergeExceptions lookup
  let cutImmutables ← Setting.cutImmutables.resolve Setting.readFlag standard.cutImmutables lookup
  let mergeSharedFields ← Setting.mergeSharedFields.resolve Setting.readFlag standard.mergeSharedFields lookup
  let foldPruned ← Setting.foldPruned.resolve Setting.readFlag standard.foldPruned lookup
  let gatedPropagation ← Setting.gatedPropagation.resolve Setting.readFlag standard.gatedPropagation lookup
  let maxInterface ← Setting.maxInterface.resolve Setting.readLimit standard.maxInterface lookup
  let mergeDepth ← Setting.mergeDepth.resolve Setting.readDepth standard.mergeDepth lookup
  return { standard with
    cutUnreachable, mergeExceptions, cutImmutables, mergeSharedFields, foldPruned, gatedPropagation, maxInterface,
    mergeDepth }

end HeapSummary
