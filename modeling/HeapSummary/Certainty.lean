/-!
# Certainty

What an analysis knows of a yes-or-no property. Joining two answers keeps what they agree on.
-/

namespace HeapSummary

inductive Certainty where
  | yes
  | no
  | maybe
  deriving DecidableEq

namespace Certainty

instance : Inhabited Certainty := ⟨maybe⟩

def ofBool : Bool → Certainty
  | true => yes
  | false => no

def isYes : Certainty → Bool
  | yes => true
  | _ => false

def isNo : Certainty → Bool
  | no => true
  | _ => false

def isMaybe : Certainty → Bool
  | maybe => true
  | _ => false

def join (a b : Certainty) : Certainty := if a = b then a else maybe

/-- The word for an answer. -/
def word : Certainty → String
  | yes => "yes"
  | no => "no"
  | maybe => "maybe"

/-- The word, capitalised as a name. -/
def title : Certainty → String
  | yes => "Yes"
  | no => "No"
  | maybe => "Maybe"

@[simp] theorem join_self (a : Certainty) : a.join a = a := by simp [join]

theorem join_comm (a b : Certainty) : a.join b = b.join a := by cases a <;> cases b <;> rfl

theorem join_assoc (a b c : Certainty) : (a.join b).join c = a.join (b.join c) := by
  cases a <;> cases b <;> cases c <;> rfl

end Certainty

end HeapSummary
