namespace Formula

/-- The bytes of a source from offset `start` up to, but not including, offset `stop`. -/
structure Span where
  start : Nat
  stop : Nat
deriving DecidableEq

def Span.length (s : Span) : Nat := s.stop - s.start

structure Label where
  offset : Nat
  length : Nat
  text : String
deriving DecidableEq

def Span.label (s : Span) (text : String) : Label := ⟨s.start, s.length, text⟩

inductive Severity where
  | error | advice
deriving DecidableEq

structure Diagnostic where
  message : String
  severity : Severity := .error
  cause : Option String := none
  code : Option String := none
  help : Option String := none
  label : Option Label := none
deriving DecidableEq

structure Source where
  name : Option String
  text : String
deriving DecidableEq

/-- A diagnostic with the source it is about, if any. How it looks on a screen is left open. -/
structure Report where
  diagnostic : Diagnostic
  source : Option Source
deriving DecidableEq

end Formula
