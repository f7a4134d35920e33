import Formula.Reader
import Formula.Tree.Reduction

namespace Formula

namespace Tree

inductive Pending where
  | operator (op : Operator) (sign : Span)
  | paren (span : Span)
deriving DecidableEq

/-- Tokens on their way into postfix order: the entries already placed and the operators and
parentheses still open, both last one first, and the token read last. -/
structure Yard where
  placed : List Item
  pending : List Pending
  previous : Option Token
deriving DecidableEq

namespace Yard

def empty : Yard := ⟨[], [], none⟩

/-- Places the operators down to a parenthesis or one that binds looser than `precedence`. -/
def unwind (precedence : Nat) : List Pending → List Item → List Pending × List Item
  | .operator op sign :: pending, placed =>
    if precedence ≤ op.precedence then unwind precedence pending (.operator op sign :: placed)
    else (.operator op sign :: pending, placed)
  | pending, placed => (pending, placed)

/-- Places the operators above the last open parenthesis, which goes away. -/
def close : List Pending → List Item → Option (List Pending × List Item)
  | [], _ => none
  | .operator op sign :: pending, placed => close pending (.operator op sign :: placed)
  | .paren _ :: pending, placed => some (pending, placed)

/-- A parenthesis directly after a name makes the name a call. -/
def enter (pending : List Pending) (span : Span) : Option Token → Except ParseError (List Pending)
  | some ⟨.identifier _, name⟩ => .ok (.paren span :: .operator .call name :: pending)
  | some ⟨.number _, number⟩ => .error (.callOnNumber ⟨number.start, span.stop⟩)
  | _ => .ok (.paren span :: pending)

def push (y : Yard) (t : Token) : Except ParseError Yard :=
  match t.role with
  | .operand l => .ok ⟨.operand l t.span :: y.placed, y.pending, some t⟩
  | .operator op =>
    let (pending, placed) := unwind op.precedence y.pending y.placed
    .ok ⟨placed, .operator op t.span :: pending, some t⟩
  | .opening =>
    match enter y.pending t.span y.previous with
    | .ok pending => .ok ⟨y.placed, pending, some t⟩
    | .error fault => .error fault
  | .closing =>
    match close y.pending y.placed with
    | some (pending, placed) => .ok ⟨placed, pending, some t⟩
    | none => .error (.unmatchedCloseParen t.span)

def drain : List Pending → List Item → Except ParseError (List Item)
  | [], placed => .ok placed.reverse
  | .operator op sign :: pending, placed => drain pending (.operator op sign :: placed)
  | .paren span :: _, _ => .error (.unclosedParen span)

def items (y : Yard) : Except ParseError (List Item) := drain y.pending y.placed

end Yard

end Tree

namespace Reader

def fill (y : Tree.Yard) (r : Reader) : Except ParseError Tree.Yard × Reader :=
  match _h : r.next with
  | (.ok none, s) => (.ok y, s)
  | (.error fault, s) => (.error (.lex fault), s)
  | (.ok (some t), s) =>
    match y.push t with
    | .ok y => fill y s
    | .error fault => (.error fault, s)
termination_by r.rest.length
decreasing_by exact next_length_lt ‹_›

/-- The tree of what is left to read, and the place behind the last token looked at. -/
def parse (r : Reader) : Except ParseError Tree × Reader :=
  let (y, s) := r.fill .empty
  (y >>= Tree.Yard.items >>= Tree.ofItems, s)

end Reader

def Tree.ofString (source : String) : Except ParseError Tree := (Reader.ofString source).parse.1

end Formula
