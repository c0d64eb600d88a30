import MayMust.Cfg.Graph

/-!
# Procedure summaries

The two over-approximating summaries of a procedure and the part of the contextual table that
the backward engine reads. The table maps procedure names to lists of entries; a procedure
without entries has the empty list.
-/

namespace MayMust

/-- A safety summary: from the precondition, the postcondition cannot be reached. -/
structure NotMaySummary where
  precondition : Formula
  postcondition : Formula
  deriving DecidableEq

/-- A forward-reach summary. -/
structure MaySummary where
  precondition : Formula
  postcondition : Formula
  deriving DecidableEq

/-- A concrete-reachability summary. -/
structure ContextualMustSummary where
  precondition : Formula
  postcondition : Formula
  deriving DecidableEq

/-- The contextual summary table. -/
structure ContextualSummaryTable where
  notmay : String → List NotMaySummary
  must : String → List ContextualMustSummary
  forwardMay : String → List MaySummary

/-- `ContextualSummaryTable::new`: no entries. -/
def ContextualSummaryTable.new : ContextualSummaryTable := ⟨fun _ ↦ [], fun _ ↦ [], fun _ ↦ []⟩

/-- `callee_of`: the callee of the first call in the node that is not the assertion
intrinsic. -/
def calleeOf (node : AbstractNode) : Option String :=
  node.transfer.effects.findSome? fun
    | .call callee _ => if callee ≠ "may_assert" then some callee else none
    | _ => none

end MayMust
