/-
  Open conditionals of a script, innermost first. Only the innermost decides whether instructions
  run: a conditional opened where nothing runs is marked so, and no ELSE changes that.
-/

namespace SpendScript

/-- The state of one open conditional. -/
inductive Branch where
  /-- Its instructions run. -/
  | taken
  /-- Its instructions are passed over, those of the other side run. -/
  | untaken
  /-- It stands in a branch that is passed over, and so do both of its sides. -/
  | skipped
  deriving DecidableEq

/-- The open conditionals, the innermost first. -/
abbrev Branches := List Branch

namespace Branch

/-- The branch of a condition. -/
def ofTruth (b : Bool) : Branch := if b then taken else untaken

/-- The other side of the same conditional. -/
def flip : Branch → Branch
  | taken => untaken
  | untaken => taken
  | skipped => skipped

end Branch

namespace Branches

/-- Whether instructions run here. -/
def executing : Branches → Bool
  | [] => true
  | b :: _ => b = .taken

/-- Goes to the other side of the innermost conditional, if one is open. -/
def toggle? : Branches → Option Branches
  | [] => none
  | b :: bs => some (b.flip :: bs)

/-- Closes the innermost conditional, if one is open. -/
def close? : Branches → Option Branches
  | [] => none
  | _ :: bs => some bs

end Branches

end SpendScript
