import Formula.Invocation

/-!
The outer layer of the program: how arguments are spelled and how reports look where there are no
graphics. The theory of the program does not depend on it.
-/

namespace Formula

inductive Interruption where
  | misuse
  | help
  | version
deriving DecidableEq

namespace Options

/-- Whether the text after a minus sign looks like a number: digits, at most one point among them,
and an `e` in either case among them at most once, after the point; neither point nor `e` stands
first, and `e` not last. -/
def looksNumeric (text : List Char) : Bool :=
  let whole := text.takeWhile Char.isDigit
  let rest := text.dropWhile Char.isDigit
  let afterPoint := match rest with
    | '.' :: rest => if whole.isEmpty then none else some (rest.dropWhile Char.isDigit)
    | rest => some rest
  match afterPoint with
  | none => false
  | some [] => true
  | some (c :: digits) =>
    (c == 'e' || c == 'E') && !whole.isEmpty && !digits.isEmpty && digits.all Char.isDigit

def isValue (arg : String) : Bool :=
  match arg.toList with
  | '-' :: '-' :: _ => false
  | ['-'] => true
  | '-' :: text => looksNumeric text
  | _ => true

def setExpression (o : Options) (text : String) : Except Interruption Options :=
  if o.expression.isSome then .error .misuse else .ok { o with expression := text }

def setX (o : Options) (text : String) : Except Interruption Options :=
  match o.x, Decimal.read text with
  | none, .ok x => .ok { o with x := x }
  | _, _ => .error .misuse

def setFlag (o : Options) : String → Except Interruption Options
  | "--debug-lexer" => if o.debugLexer then .error .misuse else .ok { o with debugLexer := true }
  | "--debug-parser" => if o.debugParser then .error .misuse else .ok { o with debugParser := true }
  | "--help" => .error .help
  | "--version" => .error .version
  | _ => .error .misuse

/-- The short options; of several in one argument the first decides. -/
def short : Char → Interruption
  | 'h' => .help
  | 'V' => .version
  | _ => .misuse

def setExpressions (o : Options) : List String → Except Interruption Options
  | [] => .ok o
  | arg :: args =>
    match o.setExpression arg with
    | .ok o => setExpressions o args
    | .error stop => .error stop

/-- Reads arguments from left to right; the first that cannot stand is decisive. Behind `--` there
are no options. -/
def read (o : Options) : List String → Except Interruption Options
  | [] => .ok o
  | "--" :: args => o.setExpressions args
  | "--x" :: value :: args =>
    if isValue value then
      match o.setX value with
      | .ok o => read o args
      | .error stop => .error stop
    else .error .misuse
  | "--x" :: [] => .error .misuse
  | arg :: args =>
    match arg.toList with
    | '-' :: '-' :: 'x' :: '=' :: value =>
      match o.setX (String.ofList value) with
      | .ok o => read o args
      | .error stop => .error stop
    | '-' :: '-' :: _ =>
      match o.setFlag arg with
      | .ok o => read o args
      | .error stop => .error stop
    | '-' :: c :: _ => .error (short c)
    | _ =>
      match o.setExpression arg with
      | .ok o => read o args
      | .error stop => .error stop

def check (o : Options) : Except Interruption Options :=
  if o.expression.isNone && (o.debugLexer || o.debugParser) then .error .misuse else .ok o

def ofArgs (args : List String) : Except Interruption Options :=
  ({} : Options).read args >>= Options.check

end Options

def usageLine : String := "Usage: function_parser [OPTIONS] [EXPRESSION]\n"

def helpText : String :=
  usageLine ++ "\n" ++
  "Arguments:\n" ++
  "  [EXPRESSION]  The expression to evaluate, e.g. \"2*sin(x)+1\". " ++
  "Prompted for on every round when omitted\n" ++
  "\n" ++
  "Options:\n" ++
  "      --x <X>         The value to evaluate the expression at. " ++
  "Prompted for on every round when omitted\n" ++
  "      --debug-lexer   Debug the lexer, printing out each token. " ++
  "Does not parse or evaluate the expression\n" ++
  "      --debug-parser  Debug the parser, printing out the expression tree. " ++
  "Does not evaluate the expression\n" ++
  "  -h, --help          Print help\n" ++
  "  -V, --version       Print version\n"

namespace Report

structure Line where
  number : Nat
  offset : Nat
  text : String

namespace Line

def stop (l : Line) : Nat := l.offset + l.text.utf8ByteSize

/-- Numbers the pieces between newlines. There is no line behind the last newline, and a carriage
return in front of one is not shown. -/
def ofTexts (number offset : Nat) : List String → List Line
  | [] | [""] => []
  | [text] => [⟨number, offset, text⟩]
  | text :: texts =>
    ⟨number, offset, if text.endsWith "\r" then String.ofList text.toList.dropLast else text⟩ ::
      ofTexts (number + 1) (offset + text.utf8ByteSize + 1) texts

def column (l : Line) (offset : Nat) : Nat :=
  (l.text.toList.foldl (fun (count, next) c =>
    (if next < offset then count + 1 else count, next + c.utf8Size)) (0, l.offset)).1

def remark (l : Line) (label : Label) : String :=
  let labelStop := label.offset + label.length
  let starts := l.offset ≤ label.offset && label.offset ≤ l.stop
  let ends := l.offset ≤ labelStop && labelStop ≤ l.stop
  let first := l.column label.offset + 1
  let last := max first (l.column labelStop)
  let place :=
    if starts && ends then
      if first = last then s!"label at line {l.number}, column {first}"
      else s!"label at line {l.number}, columns {first} to {last}"
    else if starts then s!"label starting at line {l.number}, column {first}"
    else if ends then s!"label ending at line {l.number}, column {l.column labelStop}"
    else ""
  if place.isEmpty then "" else s!"    {place}: {label.text}\n"

end Line

/-- The lines that a label touches, and of those around them one on either side. -/
def shown (text : String) (label : Label) : List Line :=
  let lines := Line.ofTexts 1 0 (text.splitOn "\n")
  let before := lines.takeWhile fun l => l.stop < label.offset
  let others := lines.dropWhile fun l => l.stop < label.offset
  let touches (l : Line) : Bool := l.offset < max (label.offset + label.length) (label.offset + 1)
  before.getLast?.toList ++ others.takeWhile touches ++ (others.dropWhile touches).take 1

def snippet (source : Source) (label : Label) : String :=
  let lines := shown source.text label
  let first := lines.head?.elim 1 Line.number
  "Begin snippet" ++ source.name.elim "" (" for " ++ ·) ++
    s!" starting at line {first}, column 1\n\n" ++
    String.join (lines.map fun l => s!"snippet line {l.number}: {l.text}\n" ++ l.remark label)

def field (key : String) (value : Option String) : String :=
  value.elim "" fun value => key ++ ": " ++ value ++ "\n"

def render (r : Report) : String :=
  let d := r.diagnostic
  let severity := match d.severity with
    | .error => "error"
    | .advice => "advice"
  let snippet := match r.source, d.label with
    | some source, some label => snippet source label
    | _, _ => ""
  d.message ++ "\n" ++ field "    Diagnostic severity" (some severity) ++
    field "    Caused by" d.cause ++ snippet ++ field "diagnostic help" d.help ++
    field "diagnostic code" d.code ++ "\n"

def renderAll (reports : List Report) : String := String.join (reports.map render)

end Report

structure Transcript where
  code : Nat
  stdout : String
  stderr : String

def Interruption.transcript : Interruption → Transcript
  | misuse => ⟨2, "", usageLine⟩
  | help => ⟨0, helpText, ""⟩
  | version => ⟨0, "function_parser 0.1.0\n", ""⟩

def run (args : List String) (input : List UInt8) : Transcript :=
  match invoke Options.ofArgs args input with
  | .ok o => ⟨o.code, o.stdout, Report.renderAll o.stderr⟩
  | .error stop => stop.transcript

end Formula
