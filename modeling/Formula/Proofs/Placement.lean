import Formula.Proofs.Stream
import Mathlib.Order.MinMax

namespace Formula

/-- A new place for every position of a text, in the same order; positions where something starts
and where something stops are counted apart. -/
structure Placement where
  start : Nat → Nat
  stop : Nat → Nat
  start_mono : Monotone start
  stop_mono : Monotone stop

def Span.place (π : Placement) (s : Span) : Span := ⟨π.start s.start, π.stop s.stop⟩

def Token.place (π : Placement) (t : Token) : Token := ⟨t.kind, t.span.place π⟩

def LexError.place (π : Placement) (e : LexError) : LexError := ⟨e.character, e.span.place π⟩

def ParseError.place (π : Placement) : ParseError → ParseError
  | lex fault => .lex (fault.place π)
  | unmatchedCloseParen span => .unmatchedCloseParen (span.place π)
  | unclosedParen span => .unclosedParen (span.place π)
  | callOnNumber span => .callOnNumber (span.place π)
  | missingOperand op span => .missingOperand op (span.place π)
  | unexpectedOperand span => .unexpectedOperand (span.place π)
  | emptyExpression => .emptyExpression

def BuildError.place (π : Placement) : BuildError → BuildError
  | unknownSymbol name span => .unknownSymbol name (span.place π)
  | unknownFunction name span => .unknownFunction name (span.place π)
  | invalidNumber text span => .invalidNumber text (span.place π)
  | unsupported op span => .unsupported op (span.place π)

def CompileError.place (π : Placement) : CompileError → CompileError
  | parse fault => .parse (fault.place π)
  | build fault => .build (fault.place π)

namespace Tree

def place (π : Placement) : Tree → Tree
  | leaf l span => leaf l (span.place π)
  | node op sign left right span =>
    node op (sign.place π) (left.place π) (right.place π) (span.place π)

def Item.place (π : Placement) : Item → Item
  | operand l span => operand l (span.place π)
  | operator op sign => operator op (sign.place π)

def Pending.place (π : Placement) : Pending → Pending
  | operator op sign => operator op (sign.place π)
  | paren span => paren (span.place π)

def Yard.place (π : Placement) (y : Yard) : Yard :=
  ⟨y.placed.map (Item.place π), y.pending.map (Pending.place π), y.previous.map (Token.place π)⟩

end Tree

open Formula.Tree

variable (π : Placement)

namespace Tree

namespace Yard

theorem unwind_place (n : Nat) (pending : List Pending) (placed : List Item) :
    unwind n (pending.map (Pending.place π)) (placed.map (Item.place π)) =
      ((unwind n pending placed).1.map (Pending.place π),
        (unwind n pending placed).2.map (Item.place π)) := by
  induction pending generalizing placed with
  | nil => rfl
  | cons p pending ih =>
    cases p with
    | paren span => rfl
    | operator op sign =>
      rw [List.map_cons, Pending.place, unwind, unwind]
      by_cases h : n ≤ op.precedence
      · rw [if_pos h, if_pos h, ← ih]
        rfl
      · rw [if_neg h, if_neg h]
        rfl

theorem close_place (pending : List Pending) (placed : List Item) :
    close (pending.map (Pending.place π)) (placed.map (Item.place π)) =
      (close pending placed).map
        (Prod.map (List.map (Pending.place π)) (List.map (Item.place π))) := by
  induction pending generalizing placed with
  | nil => rfl
  | cons p pending ih =>
    cases p with
    | paren span => rfl
    | operator op sign => exact ih (.operator op sign :: placed)

theorem drain_place (pending : List Pending) (placed : List Item) :
    drain (pending.map (Pending.place π)) (placed.map (Item.place π)) =
      mapBoth (ParseError.place π) (List.map (Item.place π)) (drain pending placed) := by
  induction pending generalizing placed with
  | nil => simp [drain, mapBoth]
  | cons p pending ih =>
    cases p with
    | paren span => rfl
    | operator op sign => exact ih (.operator op sign :: placed)

theorem enter_place (pending : List Pending) (span : Span) (last : Option Token) :
    enter (pending.map (Pending.place π)) (span.place π) (last.map (Token.place π)) =
      mapBoth (ParseError.place π) (List.map (Pending.place π)) (enter pending span last) := by
  cases last with
  | none => rfl
  | some t =>
    obtain ⟨kind, s⟩ := t
    cases kind <;> rfl

theorem push_place (y : Yard) (t : Token) :
    (y.place π).push (t.place π) = mapBoth (ParseError.place π) (Yard.place π) (y.push t) := by
  obtain ⟨placed, pending, last⟩ := y
  have hrole : (t.place π).role = t.role := rfl
  unfold push
  rw [hrole]
  cases t.role with
  | operand l => rfl
  | operator op =>
    simp only [Yard.place, unwind_place]
    rfl
  | opening =>
    simp only [Yard.place, enter_place, Token.place]
    cases enter pending t.span last <;> rfl
  | closing =>
    simp only [Yard.place, close_place]
    cases close pending placed <;> rfl

theorem foldlM_push_place (y : Yard) (tokens : List Token) :
    (tokens.map (Token.place π)).foldlM push (y.place π) =
      mapBoth (ParseError.place π) (Yard.place π) (tokens.foldlM push y) := by
  induction tokens generalizing y with
  | nil => rfl
  | cons t tokens ih =>
    rw [List.map_cons, List.foldlM_cons, List.foldlM_cons, push_place]
    exact mapBoth_bind ih

end Yard

theorem span_place (t : Tree) : (t.place π).span = t.span.place π := by
  cases t <;> rfl

theorem join_place (op : Operator) (sign : Span) (left right : Tree) :
    join op (sign.place π) (left.place π) (right.place π) = (join op sign left right).place π := by
  simp only [join, span_place, place, Span.place, π.start_mono.map_min, π.stop_mono.map_max]

theorem reduceOnto_place (trees : List Tree) (items : List Item) :
    reduceOnto (trees.map (place π)) (items.map (Item.place π)) =
      mapBoth (ParseError.place π) (List.map (place π)) (reduceOnto trees items) := by
  induction trees, items using reduceOnto.induct with
  | case1 trees => rfl
  | case2 trees l span items ih => exact ih
  | case3 right left trees op sign items ih =>
    rw [List.map_cons, List.map_cons, List.map_cons, Item.place, reduceOnto, reduceOnto, join_place]
    exact ih
  | case4 trees op sign items hshort =>
    rcases trees with _ | ⟨right, _ | ⟨left, trees⟩⟩
    · rfl
    · rfl
    · exact absurd rfl (hshort right left trees)

theorem only_place (trees : List Tree) :
    only (trees.map (place π)) = mapBoth (ParseError.place π) (place π) (only trees) := by
  unfold only
  rw [← List.map_reverse]
  rcases trees.reverse with _ | ⟨t, _ | ⟨extra, rest⟩⟩
  · rfl
  · rfl
  · simp [mapBoth, span_place, ParseError.place]

theorem ofItems_place (items : List Item) :
    ofItems (items.map (Item.place π)) =
      mapBoth (ParseError.place π) (place π) (ofItems items) := by
  have h := reduceOnto_place π [] items
  rw [List.map_nil] at h
  rw [ofItems, h]
  exact mapBoth_bind (only_place π)

def ofTokens (tokens : List Token) (fault : Option LexError) : Except ParseError Tree :=
  Reader.fillFrom .empty tokens fault >>= Yard.items >>= ofItems

theorem ofTokens_place (tokens : List Token) (fault : Option LexError) :
    ofTokens (tokens.map (Token.place π)) (fault.map (LexError.place π)) =
      mapBoth (ParseError.place π) (place π) (ofTokens tokens fault) := by
  have hfill : Reader.fillFrom .empty (tokens.map (Token.place π)) (fault.map (LexError.place π)) =
      mapBoth (ParseError.place π) (Yard.place π) (Reader.fillFrom .empty tokens fault) := by
    have hrun := Yard.foldlM_push_place π .empty tokens
    have hempty : Yard.empty.place π = .empty := rfl
    rw [hempty] at hrun
    rw [Reader.fillFrom, Reader.fillFrom, hrun]
    apply mapBoth_bind
    intro y
    cases fault <;> rfl
  rw [ofTokens, ofTokens, hfill]
  rw [mapBoth_bind (k := Yard.items) (h := List.map (Item.place π))]
  · exact mapBoth_bind (ofItems_place π)
  · intro y
    exact Yard.drain_place π y.pending y.placed

theorem callee_place (sign : Span) (t : Tree) :
    callee (sign.place π) (t.place π) = mapBoth (BuildError.place π) id (callee sign t) := by
  cases t with
  | node op s left right span => rfl
  | leaf l span =>
    cases l with
    | number text => rfl
    | name text =>
      rw [place, callee, callee]
      cases NamedFunction.ofName? text <;> rfl

end Tree

theorem Leaf.load_place (l : Leaf) (span : Span) :
    l.load (span.place π) = mapBoth (BuildError.place π) id (l.load span) := by
  cases l with
  | name text =>
    rw [load, load]
    split
    · rfl
    · cases NamedConstant.ofName? text <;> rfl
  | number text =>
    rw [load, load]
    cases Decimal.read text <;> rfl

namespace Tree

theorem code_place (t : Tree) : (t.place π).code = mapBoth (BuildError.place π) id t.code := by
  induction t with
  | leaf l span =>
    rw [place, code, code, Leaf.load_place]
    exact mapBoth_bind fun i => rfl
  | node op sign left right span ihl ihr =>
    cases op with
    | assign => rfl
    | arithmetic op =>
      rw [place, code, code, ihl, ihr]
      apply mapBoth_bind
      intro first
      exact mapBoth_bind fun second => rfl
    | call =>
      rw [place, code, code, callee_place, ihr]
      apply mapBoth_bind
      intro f
      exact mapBoth_bind fun code => rfl

theorem build_place (t : Tree) : (t.place π).build = mapBoth (BuildError.place π) id t.build := by
  rw [build_eq_code, build_eq_code, code_place]
  cases t.code <;> rfl

end Tree

namespace Program

def ofTree (r : Except ParseError Tree) : Except CompileError Program :=
  match r with
  | .error fault => .error (.parse fault)
  | .ok t => t.build.mapError .build

theorem ofTree_place (π : Placement) (r : Except ParseError Tree) :
    ofTree (mapBoth (ParseError.place π) (Tree.place π) r) =
      mapBoth (CompileError.place π) id (ofTree r) := by
  cases r with
  | error fault => rfl
  | ok t =>
    rw [mapBoth, ofTree, ofTree, build_place]
    cases t.build <;> rfl

end Program

end Formula
