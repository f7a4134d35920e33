import Formula.Session
import Formula.Tree.Outline

namespace Formula

namespace Token

def Kind.sort : Kind → String
  | identifier _ => "identifier"
  | number _ => "numeric literal"
  | _ => "symbol"

def Kind.title : Kind → String
  | equals => "Equals"
  | plus => "Plus"
  | minus => "Minus"
  | star => "Star"
  | slash => "Slash"
  | caret => "Caret"
  | openParen => "OpenParen"
  | closeParen => "CloseParen"
  | identifier text => "Identifier(\"" ++ text ++ "\")"
  | number text => "Number(\"" ++ text ++ "\")"

def diagnostic (t : Token) : Diagnostic where
  message := s!"found {t.kind.sort} `{t.kind.text}`"
  severity := .advice
  label := t.span.label t.kind.title

end Token

def inspectTokens (text : String) : Turn :=
  let (tokens, fault, _) := (Reader.ofString text).tokens
  let reports := tokens.map fun t => t.diagnostic.about text
  match fault with
  | none => ⟨"", .exit 0 reports⟩
  | some e => ⟨"", .exit 1 (reports ++ [e.diagnostic.about text])⟩

def inspectTree (text : String) : Turn :=
  match Tree.ofString text with
  | .ok t => ⟨t.outline, .exit 0 []⟩
  | .error e => ⟨"", .exit 1 [e.diagnostic.about text]⟩

def evaluateOnce (text : String) (x : Float) : Turn :=
  match Program.ofString text with
  | .ok p => ⟨p.answer x, .exit 0 []⟩
  | .error e => ⟨"", e.exit text⟩

structure Options where
  expression : Option String := none
  x : Option Float := none
  debugLexer : Bool := false
  debugParser : Bool := false

/-- The first turn of what the options ask for; a session begins where something is missing. -/
def Options.start (o : Options) : Turn :=
  match o.expression, o.x with
  | some text, x =>
    if o.debugLexer then inspectTokens text
    else if o.debugParser then inspectTree text
    else match x with
      | some x => evaluateOnce text x
      | none => (Given.expression text).round
  | none, some x => (Given.value x).round
  | none, none => Given.nothing.round

/-- A whole run on the bytes of standard input. What arguments mean is up to `understand`, and so is
which of them are refused, before anything is read. -/
def invoke {ε : Type} (understand : List String → Except ε Options) (args : List String)
    (input : List UInt8) : Except ε Outcome :=
  (understand args).map fun o => o.start.play input

end Formula
