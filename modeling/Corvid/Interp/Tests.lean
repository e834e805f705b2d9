import Corvid.Interp.Runs

/-!
# Runs of tests

A test runs its setup and then its assertions in one interpreter with mocks. An assertion about several
runs has an interpreter of its own for each of them.

## Main definitions

* `TestExecution`, `TestAssertionExecution`: reports
* `evalTestAssertion`: one assertion
* `runTest`: a test with the default options
-/

namespace Corvid.Interp

open Store (Prog)
open Interp

inductive TestAssertionStatus where
  | passed
  | updated
  | failed
  | error
  | unsupported
deriving DecidableEq, Repr

structure TestAssertionExecution where
  label : String
  status : TestAssertionStatus
  message : Option String
deriving DecidableEq, Repr

structure TestExecution where
  name : String
  assertions : List TestAssertionExecution
  setupError : Option String
deriving DecidableEq, Repr

/-- The texts of numbers, and the traces that assertions are about: `trace` is an error where the trace
at a path cannot be loaded, and else says whether the assertion holds. -/
structure TestTexts where
  bound : ℚ → String
  observed : ℕ → ℕ → String
  required : ℚ → String
  trace : String → IrEvalAssert → Except String (Except String (Option String))

variable (b : Boundary) (texts : TestTexts) (ir : IrFile) (self : Evaluator)

def assertionLabel : IrEvalAssert → String
  | .value .. => "assert <expr>"
  | .snapshot _ => "assert_snapshot <expr>"
  | .called name => "assert called " ++ name
  | .approved label => "assert approved " ++ label
  | .cost _ bound => "assert cost < " ++ texts.bound bound
  | .ordering beforeName afterName => "assert called " ++ beforeName ++ " before " ++ afterName

def runTestSetup (test : IrTest) : Interp Unit := do
  match ← self.block test.body with
  | .normal => pure ()
  | .return _ => failWith (.other "test setup returned before assertions") test.span
  | .break | .continue => failWith (.other "loop control flow escaped test setup") test.span

def evalBoolAssertion (expr : Expr) : Interp Bool := do
  match ← self.expr expr with
  | .value (.bool v) | .propagate (.bool v) => return v
  | .value other | .propagate other => mismatch "Bool" other expr.span

def valueReport (label : String) : Except InterpError Bool → TestAssertionExecution
  | .ok true => ⟨label, .passed, none⟩
  | .ok false => ⟨label, .failed, some "assertion evaluated to false"⟩
  | .error e => ⟨label, .error, some (b.displayError e)⟩

def evalValueAssertion (expr : Expr) (label : String) : Interp TestAssertionExecution := do
  let outcome ← attempt (evalBoolAssertion self expr)
  return valueReport b label outcome

/-- One of the runs of a statistical assertion, in a new interpreter. An error is the message of the
report. -/
def statisticalRun (test : IrTest) (expr : Expr) : Interp (Except String Bool) :=
  within (fun _ => ({} : Interpreter).withMocks ir) do
    match ← attempt (runTestSetup self test) with
    | .error e => return .error ("statistical setup failed: " ++ b.displayError e)
    | .ok () => do
      let outcome ← attempt (evalBoolAssertion self expr)
      return outcome.mapError b.displayError

/-- How many of the runs have passed. The first error ends them. -/
def statisticalRuns (test : IrTest) (expr : Expr) : ℕ → ℕ → Interp (Except String ℕ)
  | 0, passed => pure (.ok passed)
  | n + 1, passed => do
    match ← statisticalRun b ir self test expr with
    | .error message => return .error message
    | .ok true => statisticalRuns test expr n (passed + 1)
    | .ok false => statisticalRuns test expr n passed

def statisticalReport (label : String) (runs : ℕ) (confidence : ℚ) :
    Except String ℕ → TestAssertionExecution
  | .error message => ⟨label, .error, some message⟩
  | .ok passed =>
    let counts := s!"{passed}/{runs} runs passed; observed confidence {texts.observed passed runs}"
    -- without any runs the observed confidence is not a number
    if 0 < runs ∧ (passed : ℚ) / runs ≥ confidence then
      ⟨label, .passed, some (counts ++ " >= required " ++ texts.required confidence)⟩
    else
      ⟨label, .failed, some (counts ++ " < required " ++ texts.required confidence)⟩

def evalStatisticalValueAssertion (test : IrTest) (expr : Expr) (confidence : Option ℚ)
    (runs : Option ℕ) (label : String) : Interp TestAssertionExecution := do
  let outcome ← statisticalRuns b ir self test expr (runs.getD 1) 0
  return statisticalReport texts label (runs.getD 1) (confidence.getD 1) outcome

def evalTraceAssertion (test : IrTest) (assertion : IrEvalAssert) : TestAssertionExecution :=
  let label := assertionLabel texts assertion
  match test.traceFixture.map fun path => texts.trace path assertion with
  | none => ⟨label, .unsupported,
      some "trace assertions require `test name from_trace \"trace.jsonl\":`"⟩
  | some (.error message) => ⟨label, .error, some message⟩
  | some (.ok (.ok message)) => ⟨label, .passed, message⟩
  | some (.ok (.error message)) => ⟨label, .failed, some message⟩

def evalTestAssertion (test : IrTest) (assertion : IrEvalAssert) : Interp TestAssertionExecution :=
  let label := assertionLabel texts assertion
  match assertion with
  | .value expr none none => evalValueAssertion b self expr label
  | .value expr confidence runs =>
    evalStatisticalValueAssertion b texts ir self test expr confidence runs label
  | .snapshot _ => pure ⟨label, .unsupported,
      some "snapshot assertions require file-backed test options"⟩
  | assertion => pure (evalTraceAssertion texts test assertion)

def evalTestAssertions (test : IrTest) : List IrEvalAssert → Interp (List TestAssertionExecution)
  | [] => pure []
  | assertion :: rest => do
    let report ← evalTestAssertion b texts ir self test assertion
    let reports ← evalTestAssertions test rest
    return report :: reports

def runTestDecl (test : IrTest) : Interp TestExecution := do
  runTestSetup self test
  let assertions ← evalTestAssertions b texts ir self test test.assertions
  return ⟨test.name, assertions, none⟩

def runTest (testName : String) : Prog Reply Halt (Except InterpError TestExecution) :=
  runIn (({} : Interpreter).withMocks ir) do
    match ir.tests.find? (·.name = testName) with
    | some test => runTestDecl b texts ir self test
    | none => failWith (.dispatchFailed s!"no test named `{testName}`") noSpan

end Corvid.Interp
