import Steward.Workspace

/-!
# The constitution

A list of rules that every action passes. All rules are asked in order; an action is allowed if no
rule denies it.
-/

namespace Steward

/-- A named judgement of actions. -/
structure Rule where
  id : String
  domain : Domain
  description : String
  predicate : Action → Workspace → Verdict
  /-- What the rule asks the history when it judges an action. -/
  asks : Action → List Query := fun _ => []

namespace Rule

/-- How a rule shows in diagnostics. -/
def debug (r : Rule) : String :=
  "Rule \x7b id: " ++ Text.quote r.id ++ ", domain: " ++ r.domain.title ++ " \x7d"

def evaluate (r : Rule) (a : Action) (w : Workspace) : Evaluation :=
  ⟨r.id, r.domain, r.predicate a w⟩

/-- What is said of the rule when it denies. -/
def complaint? (r : Rule) (a : Action) (w : Workspace) : Option String :=
  match r.predicate a w with
  | .allow => none
  | .deny detail => some s!"{r.id}: {r.description} ({detail})"

end Rule

structure Constitution where
  rules : List Rule

namespace Constitution

def empty : Constitution := ⟨[]⟩

/-- The constitution with one more rule at its end. -/
def withRule (c : Constitution) (r : Rule) : Constitution := ⟨c.rules ++ [r]⟩

/-- The rules that deny an action. -/
def dissenters (c : Constitution) (a : Action) (w : Workspace) : List Rule :=
  c.rules.filter fun r => r.predicate a w ≠ .allow

/-- Asks every rule about an action. -/
def judge (c : Constitution) (a : Action) (w : Workspace) : Decision where
  action := a
  evaluations := c.rules.map (·.evaluate a w)
  deniedBy := (c.dissenters a w).map (·.id)
  violations := c.rules.filterMap (·.complaint? a w)

/-- What judging an action asks the history. -/
def asks (c : Constitution) (a : Action) : List Query := c.rules.flatMap (·.asks a)

end Constitution

end Steward
