import Phrasebook.Compile

/-!
# Batches

Compiling many phrases at once. Phrases are independent of one another: one that
is rejected is reported with its place in the batch, and the others are compiled
as if it were not there. A batch may be cut into runs for several workers; the
results are put together again in the order of the phrases, so the report does
not tell how it was cut.
-/

namespace Phrasebook

/-- What became of a batch of phrases, each with its place in it. -/
structure BatchResult where
  compiled : List (Nat × CompiledPhrase) := []
  failures : List (Nat × CompileError) := []

namespace BatchResult

/-- The phrases to hand to translators. -/
def extracted (r : BatchResult) : List (Nat × CompiledPhrase) :=
  r.compiled.filter fun (_, c) => !c.doNotExtract

/-- Whether every phrase was compiled. -/
def allCompiled (r : BatchResult) : Bool :=
  r.failures.isEmpty

/-- A report with the result of one phrase more, which stands at `place` in the
batch. -/
def record (r : BatchResult) (place : Nat) :
    Except CompileError CompiledPhrase → BatchResult
  | .ok c => { r with compiled := r.compiled ++ [(place, c)] }
  | .error e => { r with failures := r.failures ++ [(place, e)] }

/-- A report on results in the order of their phrases. -/
def ofResults (results : List (Except CompileError CompiledPhrase)) : BatchResult :=
  results.zipIdx.foldl (fun r (result, place) => r.record place result) {}

end BatchResult

/-- Compiles the phrases of a batch one after another. -/
def compileAll (config : Config) (phrases : List Phrase) : BatchResult :=
  phrases.zipIdx.foldl (fun r (p, place) => r.record place (compile config p)) {}

/-- Cuts a list into runs of `size + 1`, the last of which may be shorter. -/
def runsOf {α : Type} (size : Nat) (xs : List α) : List (List α) :=
  match xs with
  | [] => []
  | x :: rest => (x :: rest.take size) :: runsOf size (rest.drop size)
termination_by xs.length
decreasing_by
  simp only [List.length_drop, List.length_cons]
  omega

/-- The work of each of at most `workers` workers: runs of one length, as short
as can be. -/
def workOf {α : Type} (workers : Nat) (xs : List α) : List (List α) :=
  runsOf ((xs.length + workers - 1) / workers - 1) xs

/-- Compiles the phrases of a batch on several workers. -/
def compileAllOn (workers : Nat) (config : Config) (phrases : List Phrase) : BatchResult :=
  .ofResults ((workOf workers phrases).map fun run => run.map (compile config)).flatten

end Phrasebook
