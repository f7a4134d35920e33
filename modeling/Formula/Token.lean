import Formula.Operator
import Formula.Diagnostic

namespace Formula

inductive Leaf where
  | name (text : String)
  | number (text : String)
deriving DecidableEq

def Leaf.text : Leaf → String
  | name text | number text => text

namespace Token

inductive Kind where
  | equals | plus | minus | star | slash | caret
  | openParen | closeParen
  | identifier (text : String)
  | number (text : String)
deriving DecidableEq

inductive Role where
  | operand (leaf : Leaf)
  | operator (op : Operator)
  | opening
  | closing
deriving DecidableEq

namespace Kind

def text : Kind → String
  | equals => "="
  | plus => "+"
  | minus => "-"
  | star => "*"
  | slash => "/"
  | caret => "^"
  | openParen => "("
  | closeParen => ")"
  | identifier text | number text => text

def ofSymbol? : Char → Option Kind
  | '=' => some equals
  | '+' => some plus
  | '-' => some minus
  | '*' => some star
  | '/' => some slash
  | '^' => some caret
  | '(' => some openParen
  | ')' => some closeParen
  | _ => none

theorem text_of_ofSymbol? {c : Char} {kind : Kind} (h : ofSymbol? c = some kind) :
    kind.text = String.singleton c := by
  revert h
  unfold ofSymbol?
  split <;> intro h <;> cases h <;> rfl

def role : Kind → Role
  | equals => .operator .assign
  | plus => .operator (.arithmetic .add)
  | minus => .operator (.arithmetic .sub)
  | star => .operator (.arithmetic .mul)
  | slash => .operator (.arithmetic .div)
  | caret => .operator (.arithmetic .pow)
  | openParen => .opening
  | closeParen => .closing
  | identifier text => .operand (.name text)
  | number text => .operand (.number text)

end Kind

end Token

structure Token where
  kind : Token.Kind
  span : Span
deriving DecidableEq

def Token.role (t : Token) : Token.Role := t.kind.role

end Formula
