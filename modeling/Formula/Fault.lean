import Formula.Diagnostic
import Formula.Operator

namespace Formula

/-- A character that belongs to no token. -/
structure LexError where
  character : Char
  span : Span
deriving DecidableEq

inductive ParseError where
  | lex (fault : LexError)
  | unmatchedCloseParen (span : Span)
  | unclosedParen (span : Span)
  | callOnNumber (span : Span)
  | missingOperand (op : Operator) (span : Span)
  | unexpectedOperand (span : Span)
  | emptyExpression
deriving DecidableEq

inductive BuildError where
  | unknownSymbol (name : String) (span : Span)
  | unknownFunction (name : String) (span : Span)
  | invalidNumber (text : String) (span : Span)
  | unsupported (op : Operator) (span : Span)
deriving DecidableEq

inductive CompileError where
  | parse (fault : ParseError)
  | build (fault : BuildError)
deriving DecidableEq

def LexError.diagnostic (e : LexError) : Diagnostic where
  message := s!"unexpected character '{e.character}'"
  code := "unexpected_character"
  label := e.span.label "unexpected character"

def ParseError.diagnostic : ParseError → Diagnostic
  | lex fault => fault.diagnostic
  | unmatchedCloseParen span =>
    { message := "unmatched closing parenthesis"
      code := "unmatched_close_paren"
      label := span.label "no matching '('" }
  | unclosedParen span =>
    { message := "unclosed parenthesis"
      code := "unclosed_paren"
      label := span.label "this '(' is never closed" }
  | callOnNumber span =>
    { message := "a number cannot be called"
      code := "call_on_number"
      help := "only the functions `sin` and `cos` can be applied with `name(...)`"
      label := span.label "number followed by '('" }
  | missingOperand op span =>
    { message := s!"missing operand for '{op}'"
      code := "missing_operand"
      label := span.label "operator needs two operands" }
  | unexpectedOperand span =>
    { message := "unexpected operand"
      code := "unexpected_operand"
      help := "operands must be joined by an operator"
      label := span.label "expected an operator before this" }
  | emptyExpression =>
    { message := "expected an expression"
      code := "empty_expression" }

def BuildError.diagnostic : BuildError → Diagnostic
  | unknownSymbol name span =>
    { message := s!"unknown variable `{name}`"
      code := "unknown_symbol"
      help := "the only variable is `x`, the constants are `pi` and `e`"
      label := span.label "not a variable or constant" }
  | unknownFunction name span =>
    { message := s!"unknown function `{name}`"
      code := "unknown_function"
      help := "supported functions: `sin`, `cos`"
      label := span.label "not a function" }
  | invalidNumber text span =>
    { message := s!"invalid number `{text}`"
      code := "invalid_number"
      label := span.label "cannot be parsed as a number" }
  | unsupported op span =>
    { message := s!"unsupported operation '{op}'"
      code := "unsupported"
      label := span.label "cannot be evaluated" }

def CompileError.diagnostic : CompileError → Diagnostic
  | parse fault => fault.diagnostic
  | build fault => fault.diagnostic

end Formula
