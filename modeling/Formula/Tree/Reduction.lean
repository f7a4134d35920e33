import Formula.Fault
import Formula.Tree

namespace Formula.Tree

inductive Item where
  | operand (leaf : Leaf) (span : Span)
  | operator (op : Operator) (sign : Span)
deriving DecidableEq

/-- An operator over its operands; the whole reaches from its left operand, or the operator where
that stands further left, to its right operand, or the operator where that stands further right. -/
def join (op : Operator) (sign : Span) (left right : Tree) : Tree :=
  node op sign left right ⟨min left.span.start sign.start, max right.span.stop sign.stop⟩

def reduceOnto : List Tree → List Item → Except ParseError (List Tree)
  | trees, [] => .ok trees
  | trees, .operand l span :: items => reduceOnto (leaf l span :: trees) items
  | right :: left :: trees, .operator op sign :: items =>
    reduceOnto (join op sign left right :: trees) items
  | _, .operator op sign :: _ => .error (.missingOperand op sign)

/-- The only tree of a stack; of several the second from the bottom is the one too many. -/
def only (trees : List Tree) : Except ParseError Tree :=
  match trees.reverse with
  | [] => .error .emptyExpression
  | [t] => .ok t
  | _ :: extra :: _ => .error (.unexpectedOperand extra.span)

def ofItems (items : List Item) : Except ParseError Tree := do only (← reduceOnto [] items)

theorem reduceOnto_append (trees : List Tree) (a b : List Item) :
    reduceOnto trees (a ++ b) = reduceOnto trees a >>= fun trees => reduceOnto trees b := by
  induction trees, a using reduceOnto.induct with
  | case1 trees => rfl
  | case2 trees l span items ih => simpa [reduceOnto] using ih
  | case3 right left trees op sign items ih => simpa [reduceOnto] using ih
  | case4 trees op sign items h =>
    match trees, h with
    | [], _ => rfl
    | [_], _ => rfl
    | right :: left :: trees, h => exact absurd rfl (h right left trees)

end Formula.Tree
