import Monomorph.FrontEnd.Action
import Monomorph.Session.Dispatch

/-!
# FrontEnd/Basic — what a specialization has to be told

A front end knows how to process each piece of work, and how types and methods are related.  What it
complains about without stopping it collects in its own state.
-/

namespace Monomorph

/-- A front end with state `σ`. -/
structure FrontEnd (σ : Type) where
  process : Item → Action σ Unit
  hierarchy : σ → Hierarchy
  /-- Collect the patterns of the program, once everything is specialized. -/
  collectPatterns : Action σ Unit := .done ()
  /-- Check the whole program, once everything is specialized. -/
  finalChecks : Action σ Unit := .done ()
  diagnostics : σ → List Diagnostic

end Monomorph
