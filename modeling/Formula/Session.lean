import Formula.Decimal
import Formula.Program.Build
import Formula.Text

namespace Formula

/-- What a session knows beforehand: an expression, a value of `x` or neither, but never both. -/
inductive Given where
  | nothing
  | expression (source : String)
  | value (x : Float)

inductive Wanted where
  | expression
  | value (source : String) (p : Program)

structure Session where
  given : Given
  wanted : Wanted

inductive Next where
  | read (s : Session)
  | exit (code : Nat) (reports : List Report)

structure Turn where
  output : String
  next : Next

def Turn.after (output : String) (t : Turn) : Turn := ⟨output ++ t.output, t.next⟩

def Diagnostic.about (d : Diagnostic) (expression : String) : Report :=
  ⟨d, some ⟨"f(x)", expression⟩⟩

def Program.answer (p : Program) (x : Float) : String :=
  "f(" ++ Decimal.write x ++ ") = " ++ Decimal.write (p.evaluate x) ++ "\n"

def CompileError.exit (e : CompileError) (source : String) : Next :=
  .exit 1 [e.diagnostic.about source]

def readValue (line : String) : Except Decimal.LiteralError Float := Decimal.read (Text.trim line)

def Decimal.LiteralError.report (e : LiteralError) (line : String) : Report where
  diagnostic :=
    { message := "invalid value for x"
      label := some ⟨0, line.utf8ByteSize, e.message⟩ }
  source := some ⟨none, line⟩

def unreadable : Report where
  diagnostic :=
    { message := "failed to read from stdin"
      cause := "stream did not contain valid UTF-8" }
  source := none

namespace Given

def askValue (given : Given) (source : String) : Turn :=
  match Program.ofString source with
  | .ok p => ⟨"x = ", .read ⟨given, .value source p⟩⟩
  | .error e => ⟨"", e.exit source⟩

def round (given : Given) : Turn :=
  let head := "****\nf(x)="
  match given with
  | .expression source => (given.askValue source).after (head ++ source ++ "\n")
  | _ => ⟨head, .read ⟨given, .expression⟩⟩

def conclude (given : Given) (source : String) (p : Program) (x : Float) : Turn :=
  given.round.after ("####\nf(x) = " ++ source ++ "\n" ++ p.answer x)

end Given

namespace Session

def hear (s : Session) : Text.Line → Turn
  | .garbled => ⟨"", .exit 1 [unreadable]⟩
  | .text line =>
    match s.wanted, s.given with
    | .expression, .value x =>
      match Program.ofString line with
      | .ok p => s.given.conclude line p x
      | .error e => ⟨"", e.exit line⟩
    | .expression, given => given.askValue line
    | .value source p, given =>
      match readValue line with
      | .ok x => given.conclude source p x
      | .error e => ⟨"", .exit 1 [e.report line]⟩

end Session

structure Outcome where
  code : Nat
  stdout : String
  stderr : List Report
deriving DecidableEq

namespace Turn

/-- Plays turns on the lines of `input`, with `written` already on standard output. A program that
waits at the end of the input ends well. -/
def playAfter (written : String) (t : Turn) (input : List UInt8) : Outcome :=
  match t.next with
  | .exit code reports => ⟨code, written ++ t.output, reports⟩
  | .read s =>
    match _h : Text.takeLine input with
    | none => ⟨0, written ++ t.output, []⟩
    | some (line, rest) => playAfter (written ++ t.output) (s.hear line) rest
termination_by input.length
decreasing_by exact Text.takeLine_length_lt ‹_›

def play (t : Turn) (input : List UInt8) : Outcome := playAfter "" t input

end Turn

end Formula
