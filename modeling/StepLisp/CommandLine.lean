import StepLisp.Session.Stepper

/-!
# The command line

What the commands print, as functions of the bytes they read. A command that runs a program takes a
limit on its steps, or on its depth in a direct evaluation, and gives nothing if that did not
suffice.

* `Complaint`, why a command fails, and `Transcript`, what a command printed;
* `CommandLine.run`, `CommandLine.step` and `CommandLine.benchmark`;
* `Repl`, the interactive session: `Repl.respond` answers one line, and `CommandLine.repl` all lines
  of an input.
-/

namespace StepLisp

/-- Why a command fails. -/
inductive Complaint where
  /-- The file does not exist. -/
  | noFile
  /-- The bytes are not the encoding of a text. -/
  | notText
  | syntaxError (e : SyntaxError)
  | execution (f : Fault)
  /-- The allowed number of steps was made, and the program has no value yet. -/
  | stepLimit (limit : Nat)

def Complaint.message : Complaint → String
  | .noFile => "No such file or directory (os error 2)"
  | .notText => "stream did not contain valid UTF-8"
  | .syntaxError e => e.message
  | .execution f => f.message
  | .stepLimit limit =>
    "Step limit of " ++ limit.repr ++ " reached before evaluation finished"

def Complaint.line (c : Complaint) : String := "Error: " ++ c.message ++ "\n"

/-- What a command printed, on standard output and on standard error, and its exit code. -/
structure Transcript where
  exit : Nat
  out : String
  err : String
deriving DecidableEq, Repr, Inhabited

def Transcript.success (out : String) : Transcript := ⟨0, out, ""⟩

def Transcript.failure (out : String) (c : Complaint) : Transcript := ⟨1, out, c.line⟩

/-- The text that bytes encode. -/
def decode (bytes : ByteArray) : Except Complaint String :=
  match String.fromUTF8? bytes with
  | some s => .ok s
  | none => .error .notText

/-- The program in a file, which may be missing. -/
def readProgram (file : Option ByteArray) : Except Complaint Tree := do
  match file with
  | none => .error .noFile
  | some bytes =>
    let source ← decode bytes
    match Tree.parse source with
    | .ok t => .ok t
    | .error e => .error (.syntaxError e)

namespace CommandLine

/-- The outcome of a program that is stepped through in a new session. -/
def stepped (t : Tree) (limit : Nat) : Option (Except Fault Value) :=
  match (Stepper.start t .new ∅).run limit with
  | none => none
  | some (outcome, _) => some outcome

/-- The outcome of a program that is run in one pass in a new session. -/
def direct (t : Tree) (limit : Nat) : Option (Except Fault Value) :=
  match Session.new.evaluate t ∅ limit with
  | none => none
  | some (outcome, _) => some outcome

/-- Prints the value of the program in a file. -/
def run (inOnePass : Bool) (file : Option ByteArray) (limit : Nat) : Option Transcript :=
  match readProgram file with
  | .error c => some (.failure "" c)
  | .ok t =>
    match if inOnePass then direct t limit else stepped t limit with
    | none => none
    | some (.ok v) => some (.success (v.text ++ "\n"))
    | some (.error f) => some (.failure "" (.execution f))

/-- Where the stepping of a program stands. -/
inductive Progress where
  | going (s : Stepper)
  /-- It ended, with an exit code and what was printed on standard error. -/
  | over (exit : Nat) (err : String)

/-- Makes one step and tells what is printed for it: a snapshot, or at last the value. A program
that has made `maxSteps` steps is given up, before it is known whether it has its value. -/
def stepOnce (maxSteps : Option Nat) (s : Stepper) : String × Progress :=
  match s.advance with
  | ⟨.done v, _, _⟩ => ("done: " ++ v.text ++ "\n", .over 0 "")
  | ⟨.failed f, _, _⟩ => ("", .over 1 (Complaint.execution f).line)
  | ⟨.suspended _ _, _, s⟩ =>
    let shown := s.snapshot.text ++ "\n"
    match maxSteps with
    | none => (shown, .going s)
    | some n =>
      if n ≤ s.machine.steps then (shown, .over 1 (Complaint.stepLimit n).line)
      else (shown, .going s)

/-- Goes on stepping, at most `limit` times, after `out` was printed. -/
def stepFrom (maxSteps : Option Nat) : Nat → String → Stepper → Option Transcript
  | 0, _, _ => none
  | limit + 1, out, s =>
    match stepOnce maxSteps s with
    | (shown, .over exit err) => some ⟨exit, out ++ shown, err⟩
    | (shown, .going s) => stepFrom maxSteps limit (out ++ shown) s

/-- Prints a snapshot after every step of the program in a file. -/
def step (maxSteps : Option Nat) (file : Option ByteArray) (limit : Nat) : Option Transcript :=
  match readProgram file with
  | .error c => some (.failure "" c)
  | .ok t => stepFrom maxSteps limit "" (.start t .new ∅)

/-- The program that the benchmark runs: a Fibonacci number by plain recursion. -/
def benchmarkSource : String :=
  "(define fib (lambda (n) (if (< n 2) n (+ (fib (- n 1)) (fib (- n 2)))))) (fib 20)"

/-- The value of the benchmark, by one of the two ways to run a program. -/
def benchmarkValue (way : Tree → Nat → Option (Except Fault Value)) (limit : Nat) :
    Option String :=
  match Tree.parse benchmarkSource with
  | .error _ => none
  | .ok t =>
    match way t limit with
    | some (.ok v) => some v.text
    | _ => none

/-- The lines of the benchmark, without the times. -/
def benchmark (limit : Nat) : Option (List String) :=
  match benchmarkValue stepped limit, benchmarkValue direct limit with
  | some v, some w => some ["Stepped: " ++ v, "Direct: " ++ w]
  | _, _ => none

end CommandLine

/-! ## The interactive session -/

/-- An interactive session: its session, the results of its programs, and how many there were. -/
structure Repl where
  session : Session
  results : Results
  programs : Nat

namespace Repl

def new : Repl := ⟨.new, ∅, 0⟩

def banner : String :=
  "Welcome to the fasti REPL!\nEOF to exit. (Ctrl+D on *nix, Ctrl+Z on Windows)\n"

def prompt : String := "> "

/-- The answer to a line, and the session behind it. -/
def respond (r : Repl) (line : String) (limit : Nat) : Option (String × Repl) :=
  match r with
  | ⟨session, results, programs⟩ =>
    match session.parse programs (String.ofList (trimBlank line.toList)) with
    | (.error e, session) =>
      some ((Complaint.syntaxError e).line, ⟨session, results, programs + 1⟩)
    | (.ok t, session) =>
      match (Stepper.start t session results).run limit with
      | none => none
      | some (.ok v, s) => some (v.text ++ "\n", ⟨s.session, s.results, programs + 1⟩)
      | some (.error f, s) =>
        some ((Complaint.execution f).line, ⟨s.session, s.results, programs + 1⟩)

/-- Answers the lines of an input after `out` was printed, up to the first that is not a text. -/
def converse (limit : Nat) : String → Repl → List ByteArray → Option Transcript
  | out, _, [] => some (.success (out ++ prompt))
  | out, r, line :: rest =>
    let out := out ++ prompt
    match decode line with
    | .error c => some (.failure out c)
    | .ok text =>
      match r.respond text limit with
      | none => none
      | some (answer, r) => converse limit (out ++ answer) r rest

end Repl

/-- The lines of an input, each with its line feed; the last one may have none. -/
def splitLines (bytes : List UInt8) : List (List UInt8) :=
  match _h : bytes.dropWhile (· ≠ 10) with
  | [] => if bytes.isEmpty then [] else [bytes]
  | feed :: rest => (bytes.takeWhile (· ≠ 10) ++ [feed]) :: splitLines rest
termination_by bytes.length
decreasing_by
  have := (List.dropWhile_sublist (l := bytes) (fun b => b ≠ 10)).length_le
  rw [_h] at this
  exact this

/-- Answers all lines of an input. -/
def CommandLine.repl (input : ByteArray) (limit : Nat) : Option Transcript :=
  Repl.converse limit Repl.banner .new
    ((splitLines input.data.toList).map fun line => ⟨line.toArray⟩)

end StepLisp
