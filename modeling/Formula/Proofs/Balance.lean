import Formula.Proofs.Reduction
import Formula.Proofs.Steps
import Formula.Proofs.Stream
import Mathlib.Algebra.BigOperators.Group.List.Basic
import Mathlib.Algebra.Order.Ring.Int

namespace Formula.Tree

def Item.gain : Item → Int
  | operand _ _ => 1
  | operator _ _ => -1

def balance (items : List Item) : Int := (items.map Item.gain).sum

theorem balance_cons (i : Item) (items : List Item) : balance (i :: items) = i.gain + balance items := by
  simp [balance]

theorem balance_reverse (items : List Item) : balance items.reverse = balance items := by
  simp [balance]

theorem length_of_reduceOnto {trees result : List Tree} {items : List Item}
    (h : reduceOnto trees items = .ok result) : (result.length : Int) = trees.length + balance items := by
  induction trees, items using reduceOnto.induct with
  | case1 trees =>
    obtain rfl := Except.ok.inj h
    simp [balance]
  | case2 trees l span items ih =>
    have hlen := ih h
    rw [balance_cons, Item.gain]
    simp only [List.length_cons] at hlen
    omega
  | case3 right left trees op sign items ih =>
    have hlen := ih h
    rw [balance_cons, Item.gain]
    simp only [List.length_cons] at hlen ⊢
    omega
  | case4 trees op sign items hshort =>
    rw [reduceOnto_of_short hshort] at h
    cases h

theorem balance_of_ofItems {items : List Item} {t : Tree} (h : ofItems items = .ok t) :
    balance items = 1 := by
  obtain ⟨trees, hr, ho⟩ := bind_eq_ok.mp h
  obtain rfl := eq_of_only ho
  have hlen := length_of_reduceOnto hr
  simp only [List.length_singleton, List.length_nil] at hlen
  omega

def Pending.gain : Pending → Int
  | operator _ _ => -1
  | paren _ => 0

def Pending.isParen : Pending → Bool
  | operator _ _ => false
  | paren _ => true

namespace Yard

def balance (y : Yard) : Int := Tree.balance y.placed + (y.pending.map Pending.gain).sum

def depth (y : Yard) : Nat := y.pending.countP Pending.isParen

variable {pending pending' : List Pending} {placed placed' : List Item} (last : Option Token)

theorem balance_place (op : Operator) (sign : Span) :
    balance ⟨placed, .operator op sign :: pending, last⟩ =
      balance ⟨.operator op sign :: placed, pending, last⟩ := by
  simp only [balance, balance_cons, List.map_cons, List.sum_cons, Pending.gain, Item.gain]
  omega

theorem balance_waiting (ops : List (Operator × Span)) :
    balance ⟨placed, waiting ops ++ pending, last⟩ = balance ⟨flush ops placed, pending, last⟩ := by
  induction ops generalizing placed with
  | nil => rfl
  | cons o ops ih =>
    rw [flush_cons, ← ih]
    exact balance_place last o.1 o.2

theorem depth_waiting (ops : List (Operator × Span)) :
    depth ⟨placed, waiting ops ++ pending, last⟩ = depth ⟨placed, pending, last⟩ := by
  induction ops with
  | nil => rfl
  | cons o ops ih => exact ih

theorem drain_keeps {items : List Item} (h : drain pending placed = .ok items) :
    Tree.balance items = balance ⟨placed, pending, last⟩ ∧ depth ⟨placed, pending, last⟩ = 0 := by
  obtain ⟨ops, rfl, rfl⟩ := exists_waiting_of_drain h
  rw [← List.append_nil (waiting ops)]
  constructor
  · rw [balance_waiting, balance_reverse]
    simp [balance]
  · exact depth_waiting last ops

end Yard

end Formula.Tree

namespace Formula

/-- The trees that a token adds, placed at once or later: a name turns the parenthesis behind it
into a call. -/
def Token.Kind.gain (previous : Option Token.Kind) : Token.Kind → Int
  | identifier _ | number _ => 1
  | openParen => match previous with
    | some (identifier _) => -1
    | _ => 0
  | closeParen => 0
  | _ => -1

/-- The number of open parentheses behind a token, where it may stand. -/
def Token.Kind.nest (depth : Nat) : Token.Kind → Option Nat
  | openParen => some (depth + 1)
  | closeParen => match depth with
    | 0 => none
    | depth + 1 => some depth
  | _ => some depth

def Token.nest (depth : Nat) (t : Token) : Option Nat := t.kind.nest depth

theorem foldlM_nest_cons (t : Token) (tokens : List Token) (depth : Nat) :
    (t :: tokens).foldlM Token.nest depth =
      (t.kind.nest depth).bind fun d => tokens.foldlM Token.nest d := rfl

theorem foldlM_nest_append (a b : List Token) (depth : Nat) :
    (a ++ b).foldlM Token.nest depth =
      (a.foldlM Token.nest depth).bind fun d => b.foldlM Token.nest d :=
  List.foldlM_append

theorem foldlM_nest_open {o : Token} (ho : o.kind = .openParen) (tokens : List Token)
    (depth : Nat) :
    (o :: tokens).foldlM Token.nest depth = tokens.foldlM Token.nest (depth + 1) := by
  rw [foldlM_nest_cons, ho]
  rfl

theorem foldlM_nest_close {c : Token} (hc : c.kind = .closeParen) (tokens : List Token)
    (depth : Nat) :
    (c :: tokens).foldlM Token.nest (depth + 1) = tokens.foldlM Token.nest depth := by
  rw [foldlM_nest_cons, hc]
  rfl

namespace Token.Kind

variable {kind : Kind}

theorem of_role_operand {l : Leaf} (h : kind.role = .operand l) (previous : Option Kind)
    (depth : Nat) : kind.gain previous = 1 ∧ kind.nest depth = some depth := by
  cases kind <;> first | exact ⟨rfl, rfl⟩ | cases h

theorem of_role_operator {op : Operator} (h : kind.role = .operator op) (previous : Option Kind)
    (depth : Nat) : kind.gain previous = -1 ∧ kind.nest depth = some depth := by
  cases kind <;> first | exact ⟨rfl, rfl⟩ | cases h

end Token.Kind

namespace Tree.Yard

variable {y z : Yard} {t : Token}

theorem gain_openParen_of_free (h : y.Free) :
    Token.Kind.openParen.gain (y.previous.map Token.kind) = 0 := by
  cases hy : y.previous with
  | none => rfl
  | some f =>
    obtain ⟨kind, name⟩ := f
    cases kind with
    | identifier text => exact absurd rfl (h _ hy (.name text))
    | _ => rfl

theorem push_keeps (h : y.push t = .ok z) : z.previous = some t ∧
    z.balance = y.balance + t.kind.gain (y.previous.map Token.kind) ∧
    t.nest y.depth = some z.depth := by
  have hstep := push_eq_ok_iff.mp h
  obtain ⟨placed, stack, last⟩ := y
  cases hstep with
  | operand ht =>
    obtain ⟨hgain, hnest⟩ := Token.Kind.of_role_operand ht (last.map Token.kind)
      (depth ⟨placed, stack, last⟩)
    refine ⟨rfl, ?_, hnest⟩
    rw [hgain]
    simp only [balance, balance_cons, Item.gain]
    omega
  | @operator op ops pending ht hy hops hl =>
    obtain rfl : stack = waiting ops ++ pending := hy
    obtain ⟨hgain, hnest⟩ := Token.Kind.of_role_operator ht (last.map Token.kind)
      (depth ⟨placed, waiting ops ++ pending, last⟩)
    refine ⟨rfl, ?_, hnest.trans (congrArg some (depth_waiting last ops))⟩
    rw [hgain, balance_waiting]
    simp only [balance, List.map_cons, List.sum_cons, Pending.gain]
    omega
  | @call f text ht hy hf =>
    obtain rfl : last = some f := hy
    refine ⟨rfl, ?_, ?_⟩
    · simp only [balance, List.map_cons, List.sum_cons, Pending.gain, Option.map_some, hf, ht,
        Token.Kind.gain]
      omega
    · rw [Token.nest, ht]
      exact congrArg some (List.countP_cons_of_pos rfl).symm
  | opening ht hy =>
    refine ⟨rfl, ?_, ?_⟩
    · rw [ht, gain_openParen_of_free hy]
      simp [balance, Pending.gain]
    · rw [Token.nest, ht]
      exact congrArg some (List.countP_cons_of_pos rfl).symm
  | @closing ops span pending ht hy =>
    obtain rfl : stack = waiting ops ++ .paren span :: pending := hy
    refine ⟨rfl, ?_, ?_⟩
    · rw [balance_waiting, ht]
      simp [balance, Pending.gain, Token.Kind.gain]
    · have hdepth : depth ⟨placed, waiting ops ++ .paren span :: pending, last⟩ =
          depth ⟨flush ops placed, pending, some t⟩ + 1 := by
        rw [depth_waiting]
        exact List.countP_cons_of_pos rfl
      rw [Token.nest, ht, hdepth]
      rfl

end Tree.Yard

end Formula
