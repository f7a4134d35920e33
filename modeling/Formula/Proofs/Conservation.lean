import Formula.Proofs.Reduction
import Formula.Proofs.Steps
import Formula.Proofs.Stream
import Mathlib.Algebra.Order.Group.Multiset
import Mathlib.Tactic.Abel

namespace Formula

open Formula.Tree

namespace Token

def leaf? (t : Token) : Option (Leaf × Span) :=
  match t.kind with
  | .identifier text => some (.name text, t.span)
  | .number text => some (.number text, t.span)
  | _ => none

def operator? (t : Token) : Option (Operator × Span) :=
  match t.kind with
  | .equals => some (.assign, t.span)
  | .plus => some (.arithmetic .add, t.span)
  | .minus => some (.arithmetic .sub, t.span)
  | .star => some (.arithmetic .mul, t.span)
  | .slash => some (.arithmetic .div, t.span)
  | .caret => some (.arithmetic .pow, t.span)
  | _ => none

/-- A name is called by an opening parenthesis directly behind it. -/
def call? (f t : Token) : Option (Operator × Span) :=
  match f.kind, t.kind with
  | .identifier _, .openParen => some (.call, f.span)
  | _, _ => none

end Token

def calls : List Token → List (Operator × Span)
  | s :: t :: tokens => (Token.call? s t).toList ++ calls (t :: tokens)
  | _ => []

theorem calls_cons (last : Option Token) (t : Token) (tokens : List Token) :
    calls (last.toList ++ t :: tokens) = calls (last.toList ++ [t]) ++ calls (t :: tokens) := by
  cases last with
  | none => rfl
  | some s => simp [calls]

theorem Token.of_operand {t : Token} {l : Leaf} (h : t.role = .operand l) (last : Option Token) :
    t.leaf? = some (l, t.span) ∧ t.operator? = none ∧ calls (last.toList ++ [t]) = [] := by
  obtain ⟨kind, span⟩ := t
  cases kind <;> cases h <;> cases last <;> exact ⟨rfl, rfl, by simp [calls, call?]⟩

theorem Token.of_operator {t : Token} {op : Operator} (h : t.role = .operator op)
    (last : Option Token) :
    t.leaf? = none ∧ t.operator? = some (op, t.span) ∧ calls (last.toList ++ [t]) = [] := by
  obtain ⟨kind, span⟩ := t
  cases kind <;> cases h <;> cases last <;> exact ⟨rfl, rfl, by simp [calls, call?]⟩

theorem Token.of_paren {t : Token} (h : t.kind = .openParen ∨ t.kind = .closeParen) :
    t.leaf? = none ∧ t.operator? = none := by
  obtain ⟨kind, span⟩ := t
  rcases h with rfl | rfl <;> exact ⟨rfl, rfl⟩

namespace Tree

def leaves : Tree → List (Leaf × Span)
  | leaf l span => [(l, span)]
  | node _ _ left right _ => left.leaves ++ right.leaves

def operators : Tree → Multiset (Operator × Span)
  | leaf _ _ => 0
  | node op sign left right _ => (op, sign) ::ₘ (left.operators + right.operators)

def Item.leaf? : Item → Option (Leaf × Span)
  | operand l span => some (l, span)
  | operator _ _ => none

def Item.operator? : Item → Option (Operator × Span)
  | operand _ _ => none
  | operator op sign => some (op, sign)

def Pending.operator? : Pending → Option (Operator × Span)
  | operator op sign => some (op, sign)
  | paren _ => none

theorem filterMap_leaf?_toItems (t : Tree) : t.toItems.filterMap Item.leaf? = t.leaves := by
  induction t with
  | leaf l span => rfl
  | node op sign left right span ihl ihr =>
    simp [toItems, leaves, ihl, ihr, Item.leaf?]

theorem filterMap_operator?_toItems (t : Tree) :
    (t.toItems.filterMap Item.operator? : Multiset (Operator × Span)) = t.operators := by
  induction t with
  | leaf l span => rfl
  | node op sign left right span ihl ihr =>
    rw [operators, ← ihl, ← ihr, ← Multiset.singleton_add, add_comm]
    simp only [toItems, List.filterMap_append, ← Multiset.coe_add]
    rfl

namespace Yard

def leaves (y : Yard) : List (Leaf × Span) := (y.placed.filterMap Item.leaf?).reverse

def operators (y : Yard) : Multiset (Operator × Span) :=
  ↑(y.placed.filterMap Item.operator?) + ↑(y.pending.filterMap Pending.operator?)

variable {pending : List Pending} {placed : List Item} {y z : Yard} {t : Token}
  {tokens : List Token}

theorem leaves_flush (ops : List (Operator × Span)) (pending' : List Pending)
    (last last' : Option Token) : leaves ⟨flush ops placed, pending', last'⟩ =
      leaves ⟨placed, pending, last⟩ := by
  simp [leaves, flush, List.filterMap_map, Function.comp_def, Item.leaf?]

theorem operators_waiting (ops : List (Operator × Span)) (last last' : Option Token) :
    operators ⟨placed, waiting ops ++ pending, last⟩ =
      operators ⟨flush ops placed, pending, last'⟩ := by
  have hwaiting : (waiting ops).filterMap Pending.operator? = ops := by
    simp [waiting, List.filterMap_map, Function.comp_def, Pending.operator?]
  have hflush : (flush ops placed).filterMap Item.operator? =
      ops.reverse ++ placed.filterMap Item.operator? := by
    simp [flush, List.filterMap_map, Function.comp_def, Item.operator?]
  simp only [operators, List.filterMap_append, hwaiting, hflush, ← Multiset.coe_add]
  rw [Multiset.coe_reverse, add_left_comm, add_assoc]

theorem operators_cons (op : Operator) (sign : Span) (last last' : Option Token) :
    operators ⟨placed, .operator op sign :: pending, last⟩ =
      operators ⟨placed, pending, last'⟩ + {(op, sign)} := by
  rw [add_comm, Multiset.singleton_add]
  exact Multiset.add_cons (op, sign) _ ↑(pending.filterMap Pending.operator?)

theorem Step.conserves (h : Step y t z) : z.leaves = y.leaves ++ t.leaf?.toList ∧
    z.operators = y.operators + t.operator?.toList + calls (y.previous.toList ++ [t]) := by
  obtain ⟨placed, pending, last⟩ := y
  cases h with
  | @operand l ht =>
    obtain ⟨hleaf, hoperator, hcalls⟩ := Token.of_operand ht last
    rw [hleaf, hoperator, hcalls]
    refine ⟨by simp [leaves, Item.leaf?], ?_⟩
    rw [Option.toList_none, Multiset.coe_nil, add_zero, add_zero]
    rfl
  | @operator op ops rest ht hy hops hl =>
    obtain rfl : pending = waiting ops ++ rest := hy
    obtain ⟨hleaf, hoperator, hcalls⟩ := Token.of_operator ht last
    rw [hleaf, hoperator, hcalls, operators_waiting ops last last, leaves_flush ops _ last]
    refine ⟨(List.append_nil _).symm, ?_⟩
    rw [operators_cons op t.span _ last, Multiset.coe_nil, add_zero]
    rfl
  | @call f text ht hy hf =>
    obtain rfl : last = some f := hy
    obtain ⟨hleaf, hoperator⟩ := Token.of_paren (.inl ht)
    have hcalls : calls ((some f).toList ++ [t]) = [(.call, f.span)] := by
      simp [calls, Token.call?, hf, ht]
    rw [hleaf, hoperator, hcalls]
    refine ⟨(List.append_nil _).symm, ?_⟩
    rw [Option.toList_none, Multiset.coe_nil, add_zero]
    exact operators_cons .call f.span none none
  | opening ht hy =>
    obtain ⟨hleaf, hoperator⟩ := Token.of_paren (.inl ht)
    have hcalls : calls (last.toList ++ [t]) = [] := by
      cases last with
      | none => rfl
      | some f =>
        cases hf : f.kind with
        | identifier text => exact absurd (congrArg Token.Kind.role hf) (hy f rfl (.name text))
        | _ => simp [calls, Token.call?, hf]
    rw [hleaf, hoperator, hcalls]
    refine ⟨(List.append_nil _).symm, ?_⟩
    rw [Option.toList_none, Multiset.coe_nil, add_zero, add_zero]
    rfl
  | @closing ops span rest ht hy =>
    obtain rfl : pending = waiting ops ++ .paren span :: rest := hy
    obtain ⟨hleaf, hoperator⟩ := Token.of_paren (.inr ht)
    have hcalls : calls (last.toList ++ [t]) = [] := by
      cases last <;> simp [calls, Token.call?, ht]
    rw [hleaf, hoperator, hcalls, operators_waiting ops last last, leaves_flush ops _ last]
    refine ⟨(List.append_nil _).symm, ?_⟩
    rw [Option.toList_none, Multiset.coe_nil, add_zero, add_zero]
    rfl

theorem foldlM_push_conserves (h : tokens.foldlM push y = .ok z) :
    z.leaves = y.leaves ++ tokens.filterMap Token.leaf? ∧
      z.operators = y.operators + tokens.filterMap Token.operator? +
        calls (y.previous.toList ++ tokens) := by
  induction tokens generalizing y with
  | nil =>
    obtain rfl := pure_eq_ok.mp h
    have hcalls : calls (y.previous.toList ++ []) = [] := by cases y.previous <;> rfl
    rw [hcalls]
    simp
  | cons t tokens ih =>
    obtain ⟨x, hx, hrun⟩ := bind_eq_ok.mp h
    have hstep := push_eq_ok_iff.mp hx
    obtain ⟨hleaves, hoperators⟩ := hstep.conserves
    obtain ⟨hleaves', hoperators'⟩ := ih hrun
    rw [hstep.previous_eq] at hoperators'
    rw [hleaves', hoperators', hleaves, hoperators, calls_cons y.previous t tokens]
    have hcons {α : Type} (f : Token → Option α) :
        (t :: tokens).filterMap f = (f t).toList ++ tokens.filterMap f := by
      cases ht : f t <;> simp [ht]
    rw [hcons, hcons, List.append_assoc, ← Multiset.coe_add, ← Multiset.coe_add]
    refine ⟨rfl, ?_⟩
    simp only [Option.toList_some, List.singleton_append]
    abel

end Yard

open Yard

/-- The tree of a text has the names and numbers of the text as its leaves, in their order, and for
every operator and every call of the text one node. -/
theorem leaves_operators_of_ofString {source : String} {t : Tree} (h : Tree.ofString source = .ok t) :
    let tokens := (Reader.ofString source).tokens.1
    (Reader.ofString source).tokens.2.1 = none ∧ t.leaves = tokens.filterMap Token.leaf? ∧
      t.operators = tokens.filterMap Token.operator? + calls tokens := by
  obtain ⟨hfault, y, items, hrun, hitems, hreduce⟩ := ofString_eq_ok_iff.mp h
  obtain ⟨hleaves, hoperators⟩ := foldlM_push_conserves hrun
  obtain ⟨ops, hops, rfl⟩ := exists_waiting_of_drain hitems
  have htree := toItems_of_ofItems hreduce
  refine ⟨hfault, ?_, ?_⟩
  · rw [← filterMap_leaf?_toItems, htree, List.filterMap_reverse]
    exact (leaves_flush ops [] y.previous none).trans hleaves
  · have hdrained : y.operators = (flush ops y.placed).filterMap Item.operator? := by
      rw [← List.append_nil (waiting ops)] at hops
      obtain ⟨placed, pending, last⟩ := y
      obtain rfl : pending = waiting ops ++ [] := hops
      exact (operators_waiting ops last last).trans (add_zero _)
    have hempty : Yard.empty.operators = 0 := rfl
    rw [hdrained, hempty, zero_add] at hoperators
    rw [← filterMap_operator?_toItems, htree, List.filterMap_reverse, Multiset.coe_reverse]
    exact hoperators

theorem leaves_operators_of_ofString_subtraction_behind :
    let source := "f(x 2)-"
    let t := node (.arithmetic .sub) ⟨6, 7⟩ (leaf (.name "f") ⟨0, 1⟩)
      (node .call ⟨0, 1⟩ (leaf (.name "x") ⟨2, 3⟩) (leaf (.number "2") ⟨4, 5⟩) ⟨0, 5⟩) ⟨0, 7⟩
    let tokens := (Reader.ofString source).tokens.1
    Tree.ofString source = .ok t ∧ (Reader.ofString source).tokens.2.1 = none ∧
      t.leaves = tokens.filterMap Token.leaf? ∧
      t.operators = tokens.filterMap Token.operator? + calls tokens := by
  intro source t tokens
  have h : Tree.ofString source = .ok t := by decide +kernel
  exact ⟨h, leaves_operators_of_ofString h⟩

end Tree

end Formula
