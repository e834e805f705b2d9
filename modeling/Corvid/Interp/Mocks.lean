import Corvid.Interp.PairedEval
import Corvid.Interp.Tests
import Corvid.Lib.Tasks

/-!
# Mocks

Whether a call of a tool is answered by its mock is a matter of the interpreter that evaluates it. The
interpreter of a run has no mocks and hands none to the agents it calls, but the task of a stream agent,
a mock and a fixture start with the mocks of the program.

## Main definitions

* `production`, `testing`: the tasks of a run and of a test
* `spawned`: the tasks that they start
* `bare`, `stripped`, `inTest`: pairings for the main task of a run, for a stream agent, and for a test

## Main results

* `production_unmocked`: a run whose stream agents call no tool with a mock is that of the program
  without mocks
* `testing_mocked`: in a test no call of a tool with a mock reaches the runtime
-/

namespace Corvid.Interp

open Store (Prog Tasks Log)
open Interp

/-- A call of a tool is answered by its mock. -/
def Query.IsMocked : Query → Prop
  | .mocked _ => True
  | _ => False

def Query.IsFixture : Query → Prop
  | .fixture _ => True
  | _ => False

instance : DecidablePred Query.IsMocked := fun q => by
  apply @Query.casesOn (fun q => Decidable q.IsMocked) q <;>
    intros <;> first | exact instDecidableTrue | exact instDecidableFalse

instance : DecidablePred Query.IsFixture := fun q => by
  apply @Query.casesOn (fun q => Decidable q.IsFixture) q <;>
    intros <;> first | exact instDecidableTrue | exact instDecidableFalse

section Systems

variable (b : Boundary) (ir : IrFile) (n : ℕ)

/-- A query for a new stream starts the task that fills it. -/
def spawned (α : Type) : (q : Query) → Reply q → Option (Prog Reply Halt (Option α))
  | .spawn task, stream =>
    some ((fun _ => none) <$> streamTask (evaluator b ir n) task stream (task.start ir stream))
  | _, _ => none

/-- The main task of a run, before its first query. -/
def production (agentName : String) (args : List Value) :
    Tasks Reply Halt (Option (Except InterpError Value)) :=
  ⟨[some <$> runAgent b ir (evaluator b ir n) agentName args], []⟩

/-- The main task of a test. -/
def testing (texts : TestTexts) (testName : String) :
    Tasks Reply Halt (Option (Except InterpError TestExecution)) :=
  ⟨[some <$> runTest b texts ir (evaluator b ir n) testName], []⟩

end Systems

/-! ### Runs -/

section Production

/-- Neither interpreter has mocks, up to the first call of a fixture. -/
def bare : Pairing where
  steps := False
  shared q := ¬ q.IsFixture
  lost := Query.IsFixture
  mocks tools tools' := (tools = fun _ => none) ∧ tools' = fun _ => none
  shared_of_ordinary q hq := by
    cases q <;> first | exact hq.elim | exact id

/-- The second interpreter has no mocks, and the first one has made no use of its own. -/
def stripped : Pairing where
  steps := False
  shared q := ¬ q.IsMocked
  lost := Query.IsMocked
  mocks _ tools' := tools' = fun _ => none
  shared_of_ordinary q hq := by
    cases q <;> first | exact hq.elim | exact id

variable (b : Boundary) (ir : IrFile)

theorem bare_fits : Fits bare b ir [] where
  fixture _ := .inl trivial
  tool e e' he tool calleeName args span := by
    apply paired_readMocks
    rintro _ _ ⟨rfl, rfl⟩
    exact paired_runtimeResult tool calleeName args span fun _ => id

theorem stripped_fits : Fits stripped b ir [] where
  fixture _ := .inr ⟨id, rfl⟩
  tool e e' he tool calleeName args span := by
    apply paired_readMocks
    rintro tools _ rfl
    cases htool : tools tool.id with
    | some mock =>
      constructor
      intro s s' _
      exact .lost trivial
    | none =>
      exact paired_runtimeResult tool calleeName args span fun _ => id

/-- The main task of a run is compared up to a call of a fixture, a stream agent up to the first mock that
answers a call. -/
def comparisonAt : ℕ → Store.Comparison Reply
  | 0 => bare.comparison
  | _ + 1 => stripped.comparison

theorem not_silent (i : ℕ) (q : Query) : ¬ (comparisonAt i).silent q := by
  cases i with
  | zero => exact fun h => h.1
  | succ i => exact fun h => h.1

theorem spawned_follows (n : ℕ) (α : Type) {j : ℕ} (hj : 0 < j) (q : Query) (r : Reply q) :
    Option.Rel (Prog.Follows (comparisonAt j) Eq) (spawned b ir n α q r)
      (spawned b (ir.remock []) n α q r) := by
  obtain ⟨j, rfl⟩ := Nat.exists_eq_succ_of_ne_zero hj.ne'
  cases q with
  | spawn task =>
    have hfollows := follows_streamTask (stripped_fits b ir) rfl n task r
    exact .some (hfollows.map fun _ _ _ => rfl)
  | _ => exact .none

theorem production_beside (n : ℕ) (agentName : String) (args : List Value) :
    Tasks.Beside comparisonAt Eq (production b ir n agentName args)
      (production b (ir.remock []) n agentName args) := by
  apply Tasks.Beside.single
  have hfollows := follows_runAgentWithEnv (bare_fits b ir) ⟨rfl, rfl⟩ n agentName args
  have hvalue : Prog.Follows bare.comparison Eq (runAgent b ir (evaluator b ir n) agentName args)
      (runAgent b (ir.remock []) (evaluator b (ir.remock []) n) agentName args) :=
    hfollows.map fun _ _ h => congrArg _ h
  exact hvalue.map fun _ _ h => congrArg some h

/-- A run that calls no fixture, and whose stream agents call no tool that has a mock, is a run of the
program without mocks. -/
theorem production_unmocked (n : ℕ) (agentName : String) (args : List Value)
    (answer : Log Reply → ℕ → (q : Query) → Reply q) (schedule : List ℕ) :
    let run := (production b ir n agentName args).run (spawned b ir n _) answer schedule
    let unmocked := (production b (ir.remock []) n agentName args).run
      (spawned b (ir.remock []) n _) answer schedule
    (∀ entry ∈ run.log, entry.1 = 0 → ¬ entry.2.1.IsFixture) →
      (∀ entry ∈ run.log, entry.1 ≠ 0 → ¬ entry.2.1.IsMocked) →
      unmocked.log = run.log ∧ ∀ i r, run.result i = some r → unmocked.result i = some r := by
  intro run unmocked hfixture hmocked
  have hlost : ∀ entry ∈ run.log, ¬ (comparisonAt entry.1).lost entry.2.1 := by
    rintro ⟨i, entry⟩ hentry
    cases i with
    | zero => exact hfixture _ hentry rfl
    | succ i => exact hmocked _ hentry (Nat.succ_ne_zero i)
  have hbeside : Tasks.Beside comparisonAt Eq run unmocked :=
    Tasks.run_beside not_silent
      (fun i j q r _ hj => spawned_follows b ir n _ hj q r)
      (production_beside b ir n agentName args) schedule hlost
  exact ⟨hbeside.log, fun i r hr => hbeside.result_eq (fun _ _ h => h.symm) hr⟩

end Production

/-! ### Tests -/

section PairedTests

variable {ρ : Pairing} {b : Boundary} {texts : TestTexts} {ir : IrFile} {mocks : List IrMock}
  {self self' : Evaluator}

theorem paired_runTestSetup (hself : PairedEvaluator ρ self self') (test : IrTest) :
    Paired ρ (runTestSetup self test) (runTestSetup self' test) := by
  apply (hself.block test.body).bind
  intro flow
  cases flow with
  | normal => exact paired_pure ()
  | «return» v => exact paired_failWith _ _
  | «break» | «continue» => exact paired_failWith _ _

theorem paired_evalBoolAssertion (hself : PairedEvaluator ρ self self') (expr : Expr) :
    Paired ρ (evalBoolAssertion self expr) (evalBoolAssertion self' expr) := by
  apply (hself.expr expr).bind
  intro flow
  split
  · exact paired_pure _
  · exact paired_pure _
  · exact paired_mismatch ..
  · exact paired_mismatch ..

theorem paired_evalValueAssertion (hself : PairedEvaluator ρ self self') (expr : Expr)
    (label : String) :
    Paired ρ (evalValueAssertion b self expr label) (evalValueAssertion b self' expr label) :=
  (paired_evalBoolAssertion hself expr).attempt.bind fun _ => paired_pure _

/-- Each run of a statistical assertion starts with the mocks of the program. -/
theorem paired_statisticalRun (hself : PairedEvaluator ρ self self')
    (hstart : ρ.mocks ir.mocksById (ir.remock mocks).mocksById) (test : IrTest) (expr : Expr) :
    Paired ρ (statisticalRun b ir self test expr)
      (statisticalRun b (ir.remock mocks) self' test expr) := by
  refine Paired.within ?_ fun _ _ _ => beside_withMocks hstart
  apply (paired_runTestSetup hself test).attempt.bind
  intro setup
  cases setup with
  | error e => exact paired_pure _
  | ok _ => exact (paired_evalBoolAssertion hself expr).attempt.bind fun _ => paired_pure _

theorem paired_statisticalRuns (hself : PairedEvaluator ρ self self')
    (hstart : ρ.mocks ir.mocksById (ir.remock mocks).mocksById) (test : IrTest) (expr : Expr)
    (n passed : ℕ) :
    Paired ρ (statisticalRuns b ir self test expr n passed)
      (statisticalRuns b (ir.remock mocks) self' test expr n passed) := by
  induction n generalizing passed with
  | zero => exact paired_pure _
  | succ n ih =>
    apply (paired_statisticalRun hself hstart test expr).bind
    intro outcome
    split
    · exact paired_pure _
    · exact ih _
    · exact ih _

theorem paired_evalTestAssertion (hself : PairedEvaluator ρ self self')
    (hstart : ρ.mocks ir.mocksById (ir.remock mocks).mocksById) (test : IrTest)
    (assertion : IrEvalAssert) :
    Paired ρ (evalTestAssertion b texts ir self test assertion)
      (evalTestAssertion b texts (ir.remock mocks) self' test assertion) := by
  unfold evalTestAssertion
  split
  · exact paired_evalValueAssertion hself ..
  · exact (paired_statisticalRuns hself hstart ..).bind fun _ => paired_pure _
  · exact paired_pure _
  · exact paired_pure _

theorem paired_evalTestAssertions (hself : PairedEvaluator ρ self self')
    (hstart : ρ.mocks ir.mocksById (ir.remock mocks).mocksById) (test : IrTest)
    (assertions : List IrEvalAssert) :
    Paired ρ (evalTestAssertions b texts ir self test assertions)
      (evalTestAssertions b texts (ir.remock mocks) self' test assertions) := by
  induction assertions with
  | nil => exact paired_pure []
  | cons assertion rest ih =>
    apply (paired_evalTestAssertion hself hstart test assertion).bind
    intro report
    exact ih.bind fun _ => paired_pure _

theorem follows_runTest (hfits : Fits ρ b ir mocks)
    (hstart : ρ.mocks ir.mocksById (ir.remock mocks).mocksById) (n : ℕ) (testName : String) :
    Prog.Follows ρ.comparison Eq (runTest b texts ir (evaluator b ir n) testName)
      (runTest b texts (ir.remock mocks) (evaluator b (ir.remock mocks) n) testName) := by
  have hself := paired_evaluator hfits n
  refine Paired.follows_runIn ?_ (beside_withMocks hstart)
  have hsame : (ir.remock mocks).tests = ir.tests := rfl
  rw [hsame]
  cases ir.tests.find? (·.name = testName) with
  | none => exact paired_failWith _ _
  | some test =>
    apply (paired_runTestSetup hself test).bind
    intro _
    exact (paired_evalTestAssertions hself hstart test _).bind fun _ => paired_pure _

end PairedTests

section Testing

variable (b : Boundary) (ir : IrFile)

/-- A call that reaches the runtime is of a tool without a mock. -/
def Query.Unmocked (ir : IrFile) : Query → Prop
  | .callTool id _ _ => ir.mocksById id = none
  | _ => True

/-- A test beside itself. Its mocks are those of the program all along. -/
def inTest (ir : IrFile) : Pairing where
  steps := False
  shared := Query.Unmocked ir
  lost _ := False
  mocks tools tools' := tools = ir.mocksById ∧ tools' = ir.mocksById
  shared_of_ordinary q hq := by
    cases q <;> first | exact hq.elim | trivial

theorem inTest_fits : Fits (inTest ir) b ir ir.mocks where
  fixture _ := .inr ⟨trivial, rfl, rfl⟩
  tool e e' he tool calleeName args span := by
    apply paired_readMocks
    rintro _ _ ⟨rfl, rfl⟩
    cases htool : ir.mocksById tool.id with
    | some mock =>
      exact paired_mockResult he ⟨rfl, rfl⟩ tool mock calleeName args span trivial
    | none =>
      exact paired_runtimeResult tool calleeName args span fun _ => htool

theorem all_of_inTest {α β : Type} {rel : α → β → Prop} {p : Prog Reply Halt α} {p' : Prog Reply Halt β}
    (h : Prog.Follows (inTest ir).comparison rel p p') : p.All (Query.Unmocked ir) :=
  h.all (fun _ hq => hq.1) (fun _ hq => hq) fun _ hq => hq

/-- In a test, whatever it calls and whichever tasks it starts, no call of a tool that has a mock reaches
the runtime. -/
theorem testing_mocked (texts : TestTexts) (n : ℕ) (testName : String)
    (answer : Log Reply → ℕ → (q : Query) → Reply q) (schedule : List ℕ) :
    ∀ entry ∈ ((testing b ir n texts testName).run (spawned b ir n _) answer schedule).log,
      entry.2.1.Unmocked ir := by
  refine (Tasks.run_all ?_ schedule (.single ?_)).log
  · intro q r p _ hp
    cases q with
    | spawn task =>
      rw [← Option.some.inj hp]
      exact Prog.all_map (all_of_inTest ir (follows_streamTask (inTest_fits b ir) ⟨rfl, rfl⟩ n task r))
    | _ => cases hp
  · exact Prog.all_map (all_of_inTest ir (follows_runTest (inTest_fits b ir) ⟨rfl, rfl⟩ n testName))

/-- Mocks stay in tests, for runs without fixtures whose stream agents call no tool that has a mock. -/
theorem mocks_stay_in_tests (b : Boundary) (ir : IrFile) (n : ℕ)
    (answer : Log Reply → ℕ → (q : Query) → Reply q) (schedule : List ℕ) :
    (∀ agentName args,
      let run := (production b ir n agentName args).run (spawned b ir n _) answer schedule
      let unmocked := (production b (ir.remock []) n agentName args).run
        (spawned b (ir.remock []) n _) answer schedule
      (∀ entry ∈ run.log, entry.1 = 0 → ¬ entry.2.1.IsFixture) →
        (∀ entry ∈ run.log, entry.1 ≠ 0 → ¬ entry.2.1.IsMocked) →
        unmocked.log = run.log ∧ ∀ i r, run.result i = some r → unmocked.result i = some r) ∧
    ∀ texts testName, ∀ entry ∈
      ((testing b ir n texts testName).run (spawned b ir n _) answer schedule).log,
      entry.2.1.Unmocked ir :=
  ⟨fun agentName args => production_unmocked b ir n agentName args answer schedule,
    fun texts testName => testing_mocked b ir texts n testName answer schedule⟩

end Testing

/-! ### A stream agent that calls a mocked tool -/

section Scores

def scoreCall : Expr := .mk (.call (.tool 7) "score" []) noSpan

/-- `score` has a mock. The agent `scores` yields one score, and the agent `total` returns one. -/
def scoring : IrFile where
  types := []
  tools := [⟨7, "score", [], .int, [], none⟩]
  prompts := []
  agents := [⟨1, "scores", [], .stream .int, none, [.yieldStmt scoreCall noSpan], noSpan⟩,
    ⟨2, "total", [], .int, none, [.returnStmt (some scoreCall)], noSpan⟩]
  tests := []
  fixtures := []
  mocks := [⟨7, [], [.returnStmt (some (.mk (.literal (.int 1)) noSpan))], noSpan⟩]

def isToolCall : Query → Bool
  | .callTool .. => true
  | _ => false

/-- Five queries of the main task, then those of the task it has started. -/
def mainFirst : List ℕ := [0, 0, 0, 0, 0, 1, 1, 1, 1]

/-- The stream agent has its score from the mock. Without mocks the runtime is asked. -/
theorem scores_mocked :
    let run := (production blank scoring 4 "scores" []).run (spawned blank scoring 4 _)
      (fun _ _ => idle) mainFirst
    let unmocked := (production blank (scoring.remock []) 4 "scores" []).run
      (spawned blank (scoring.remock []) 4 _) (fun _ _ => idle) mainFirst
    (∀ entry ∈ run.log, ¬ entry.2.1.IsFixture) ∧
      (run.log.any fun entry => isToolCall entry.2.1) = false ∧
      (unmocked.log.any fun entry => isToolCall entry.2.1) = true := by
  refine ⟨?_, rfl, rfl⟩
  decide

/-- The other agent asks the runtime in both programs. -/
theorem total_unmocked :
    let run := (production blank scoring 4 "total" []).run (spawned blank scoring 4 _)
      (fun _ _ => idle) mainFirst
    let unmocked := (production blank (scoring.remock []) 4 "total" []).run
      (spawned blank (scoring.remock []) 4 _) (fun _ _ => idle) mainFirst
    (run.log.any fun entry => isToolCall entry.2.1) = true ∧
      unmocked.log = run.log ∧ ∀ i r, run.result i = some r → unmocked.result i = some r :=
  ⟨rfl, (mocks_stay_in_tests blank scoring 4 (fun _ _ => idle) mainFirst).1 "total" [] (by decide)
    (by decide)⟩

end Scores

end Corvid.Interp
