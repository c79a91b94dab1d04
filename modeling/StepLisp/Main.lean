import StepLisp.CommandLine

/-!
# The program

The commands `run`, `step`, `repl` and `benchmark`; without a command, `repl`.
-/

namespace StepLisp.Program

/-- A limit that no evaluation reaches. -/
def limit : Nat := 1000000000000000000

/-- Prints what a command printed, and gives its exit code. -/
def report : Option Transcript → IO UInt32
  | none => pure 1
  | some t => do
    IO.print t.out
    IO.eprint t.err
    pure t.exit.toUInt32

/-- The bytes of a file, if it exists. -/
def readFile (name : String) : IO (Option ByteArray) := do
  try
    pure (some (← IO.FS.readBinFile name))
  catch
    | .noFileOrDirectory .. => pure none
    | e => throw e

/-- Answers the lines of the standard input as they come. -/
partial def converse (r : Repl) : IO UInt32 := do
  IO.print Repl.prompt
  (← IO.getStdout).flush
  let line ← (← IO.getStdin).getLine
  if line.isEmpty then
    pure 0
  else
    match r.respond line limit with
    | none => pure 1
    | some (answer, r) =>
      IO.print answer
      converse r

def repl : IO UInt32 := do
  IO.print Repl.banner
  try
    converse .new
  catch _ =>
    IO.eprint Complaint.notText.line
    pure 1

/-- Steps through a program, and prints every step as it is made. -/
partial def stepThrough (maxSteps : Option Nat) (s : Stepper) : IO UInt32 := do
  let (shown, progress) := CommandLine.stepOnce maxSteps s
  IO.print shown
  match progress with
  | .going s => stepThrough maxSteps s
  | .over exit err =>
    IO.eprint err
    pure exit.toUInt32

def step (maxSteps : Option Nat) (name : String) : IO UInt32 := do
  match readProgram (← readFile name) with
  | .error c => report (some (.failure "" c))
  | .ok t => stepThrough maxSteps (.start t .new ∅)

/-- Runs the benchmark in one way, and tells how many nanoseconds it took. -/
def benchmarkOne (label : String) (way : Tree → Nat → Option (Except Fault Value)) : IO Nat := do
  let start ← IO.monoNanosNow
  let value ← IO.lazyPure fun _ => CommandLine.benchmarkValue way limit
  let elapsed := (← IO.monoNanosNow) - start
  IO.println (label ++ ": " ++ value.getD "" ++ " took " ++ (elapsed / 1000).repr ++ "µs")
  pure elapsed

def benchmark : IO UInt32 := do
  let stepped ← benchmarkOne "Stepped" CommandLine.stepped
  let direct ← benchmarkOne "Direct" CommandLine.direct
  let percent := 100 * stepped / max direct 1
  IO.println ("Stepping costs " ++ percent.repr ++ "% of the direct walk")
  pure 0

/-- Runs the command that the arguments name. -/
def command : List String → IO UInt32
  | [] => repl
  | ["repl"] => repl
  | ["benchmark"] => benchmark
  | ["run", file] => do report (CommandLine.run false (← readFile file) limit)
  | ["run", file, "--direct"] => do report (CommandLine.run true (← readFile file) limit)
  | ["run", "--direct", file] => do report (CommandLine.run true (← readFile file) limit)
  | ["step", file] => step none file
  | ["step", file, "--max-steps", n] => stepAtMost n file
  | ["step", "--max-steps", n, file] => stepAtMost n file
  | _ => usage
where
  usage : IO UInt32 := do
    IO.eprintln "Usage: [run FILE [--direct] | step FILE [--max-steps N] | repl | benchmark]"
    pure 2
  stepAtMost (n file : String) : IO UInt32 := do
    match n.toNat? with
    | some n => step (some n) file
    | none => usage

end StepLisp.Program

/-- The entry point. -/
def main (args : List String) : IO UInt32 := StepLisp.Program.command args
