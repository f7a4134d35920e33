namespace Formula

inductive Arithmetic where
  | add | sub | mul | div | pow
deriving DecidableEq

inductive Operator where
  | assign
  | arithmetic (op : Arithmetic)
  /-- Applies the function that the left operand names to the right operand. -/
  | call
deriving DecidableEq

namespace Arithmetic

def symbol : Arithmetic → Char
  | add => '+'
  | sub => '-'
  | mul => '*'
  | div => '/'
  | pow => '^'

def precedence : Arithmetic → Nat
  | add | sub => 1
  | mul | div => 2
  | pow => 3

def apply : Arithmetic → Float → Float → Float
  | add => Float.add
  | sub => Float.sub
  | mul => Float.mul
  | div => Float.div
  | pow => Float.pow

end Arithmetic

namespace Operator

def symbol : Operator → Char
  | assign => '='
  | arithmetic op => op.symbol
  | call => ':'

def precedence : Operator → Nat
  | assign => 0
  | arithmetic op => op.precedence
  | call => 4

instance : ToString Operator := ⟨fun op => op.symbol.toString⟩

def all : List Operator :=
  [assign, arithmetic .add, arithmetic .sub, arithmetic .mul, arithmetic .div, arithmetic .pow, call]

def ofSymbol? (c : Char) : Option Operator := all.find? fun op => op.symbol == c

theorem ofSymbol?_symbol (op : Operator) : ofSymbol? op.symbol = some op := by
  cases op with
  | assign => rfl
  | arithmetic op => cases op <;> rfl
  | call => rfl

theorem symbol_injective {a b : Operator} (h : a.symbol = b.symbol) : a = b := by
  rw [← Option.some.injEq, ← ofSymbol?_symbol a, h, ofSymbol?_symbol]

end Operator

end Formula
