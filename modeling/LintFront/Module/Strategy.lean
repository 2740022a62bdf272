import LintFront.Engine.Basic

/-!
# Evaluating a module

* `ModuleOutcome`: what becomes of a module.
* `ModuleStrategy`: how it is evaluated.
-/

namespace LintFront

/-- What becomes of a module. -/
inductive ModuleOutcome
  /-- The module has been evaluated here. -/
  | loaded (builder : BuilderConfig)
  /-- Another run of the program has done everything, and ended with the code. -/
  | delegated (code : UInt8)
  deriving Repr, Inhabited

/-- How the module at a path is evaluated. -/
abbrev ModuleStrategy := String → Except RunError ModuleOutcome

/-- The engine evaluates the module. -/
def Engine.evaluate (engine : Engine) : ModuleStrategy := fun path =>
  (engine.loadModule path).map .loaded

end LintFront
