import Formula.Proofs.Parentheses
import Formula.Proofs.Reduction
import Formula.Proofs.Steps
import Formula.Proofs.Stream
import Mathlib.Data.List.Induction

namespace Formula

open Formula.Tree

/-- A token that reading stops at, after the tokens before it, and the fault it is. -/
inductive Offends (before : List Token) (t : Token) : ParseError → Prop
  | callOnNumber {n : Token} {text : String} (hn : before.getLast? = some n)
      (hk : n.kind = .number text) (ht : t.kind = .openParen) :
      Offends before t (.callOnNumber ⟨n.span.start, t.span.stop⟩)
  | unmatched (ht : t.kind = .closeParen) (ha : AllClosed before) :
      Offends before t (.unmatchedCloseParen t.span)

def Inoffensive (tokens : List Token) : Prop :=
  ∀ before t after, tokens = before ++ t :: after → ∀ e, ¬ Offends before t e

/-- The fault that reading some tokens comes to, with `fault` what the reader met behind them: the
first offence, else the reader's fault, else the last parenthesis left open. -/
inductive Verdict (tokens : List Token) (fault : Option LexError) : Option ParseError → Prop
  | offence {before after : List Token} {t : Token} {e : ParseError}
      (hs : tokens = before ++ t :: after) (hb : Inoffensive before) (he : Offends before t e) :
      Verdict tokens fault (some e)
  | lex {e : LexError} (hi : Inoffensive tokens) (hf : fault = some e) :
      Verdict tokens fault (some (.lex e))
  | unclosed {before after : List Token} {o : Token} (hi : Inoffensive tokens) (hf : fault = none)
      (hs : tokens = before ++ o :: after) (ho : o.kind = .openParen) (hn : ¬ Closes after)
      (ha : AllClosed after) : Verdict tokens fault (some (.unclosedParen o.span))
  | closed (hi : Inoffensive tokens) (hf : fault = none) (ha : AllClosed tokens) :
      Verdict tokens fault none

def VerdictOn (source : String) : Option ParseError → Prop :=
  Verdict (Reader.ofString source).tokens.1 (Reader.ofString source).tokens.2.1

variable {tokens before after : List Token} {t : Token} {e : ParseError} {fault : Option LexError}

theorem inoffensive_append_singleton :
    Inoffensive (tokens ++ [t]) ↔ Inoffensive tokens ∧ ∀ e, ¬ Offends tokens t e :=
  throughout_append_singleton

theorem inoffensive_or_exists_first (tokens : List Token) : Inoffensive tokens ∨
    ∃ before t after e, tokens = before ++ t :: after ∧ Inoffensive before ∧ Offends before t e := by
  apply (throughout_or_exists_first (fun before t => ∀ e, ¬ Offends before t e) tokens).imp_right
  rintro ⟨before, t, after, hs, hb, ht⟩
  obtain ⟨e, he⟩ := not_forall_not.mp ht
  exact ⟨before, t, after, e, hs, hb, he⟩

namespace Tree

def Pending.paren? : Pending → Option Span
  | operator _ _ => none
  | paren span => some span

namespace Yard

def parens (pending : List Pending) : List Span := pending.filterMap Pending.paren?

variable {y : Yard} {pending : List Pending}

theorem parens_waiting (ops : List (Operator × Span)) (pending : List Pending) :
    parens (waiting ops ++ pending) = parens pending := by
  induction ops with
  | nil => rfl
  | cons o ops ih => exact ih

theorem eq_waiting_of_parens_eq_nil (h : parens pending = []) : ∃ ops, pending = waiting ops := by
  induction pending with
  | nil => exact ⟨[], rfl⟩
  | cons p pending ih =>
    cases p with
    | operator op sign =>
      obtain ⟨ops, rfl⟩ := ih h
      exact ⟨(op, sign) :: ops, rfl⟩
    | paren span => cases h

theorem eq_waiting_of_parens_eq_cons {span : Span} {spans : List Span}
    (h : parens pending = span :: spans) :
    ∃ ops below, pending = waiting ops ++ .paren span :: below ∧ parens below = spans := by
  induction pending with
  | nil => cases h
  | cons p pending ih =>
    cases p with
    | operator op sign =>
      obtain ⟨ops, below, rfl, hbelow⟩ := ih h
      exact ⟨(op, sign) :: ops, below, rfl, hbelow⟩
    | paren span' =>
      obtain ⟨rfl, hbelow⟩ := List.cons.inj h
      exact ⟨[], pending, rfl, hbelow⟩

theorem balanced_singleton (ho : t.role ≠ .opening) (hc : t.role ≠ .closing) : Balanced [t] :=
  .other (fun h => ho (congrArg Token.Kind.role h)) (fun h => hc (congrArg Token.Kind.role h)) .nil

structure Tracks (before : List Token) (y : Yard) : Prop where
  previous : y.previous = before.getLast?
  parens : ∃ stack, Opens before stack ∧ parens y.pending = stack.map Token.span

theorem tracks_empty : Tracks [] .empty := ⟨rfl, [], .nil .nil, rfl⟩

theorem Tracks.halt_iff (h : Tracks before y) : Halt y t e ↔ Offends before t e := by
  obtain ⟨hprevious, stack, hopens, hparens⟩ := h
  constructor
  · intro he
    cases he with
    | callOnNumber ht hy hn => exact .callOnNumber (hprevious ▸ hy) hn ht
    | @unmatched ops ht hy =>
      have hstack : stack = [] := by
        rw [hy, ← List.append_nil (waiting ops), parens_waiting] at hparens
        exact List.map_eq_nil_iff.mp hparens.symm
      exact .unmatched ht (hopens.allClosed_iff.mpr hstack)
  · intro he
    cases he with
    | callOnNumber hn hk ht => exact .callOnNumber ht (hprevious.trans hn) hk
    | unmatched ht ha =>
      rw [hopens.allClosed_iff.mp ha] at hparens
      obtain ⟨ops, hops⟩ := eq_waiting_of_parens_eq_nil hparens
      exact .unmatched ht hops

theorem Tracks.step {z : Yard} (h : Tracks before y) (hs : Step y t z) : Tracks (before ++ [t]) z := by
  obtain ⟨hprevious, stack, hopens, hparens⟩ := h
  cases hs with
  | operand ht =>
    have hbalanced : Balanced [t] := balanced_singleton (by simp [ht]) (by simp [ht])
    exact ⟨by simp, stack, hopens.append hbalanced, hparens⟩
  | operator ht hy =>
    have hbalanced : Balanced [t] := balanced_singleton (by simp [ht]) (by simp [ht])
    rw [hy, parens_waiting] at hparens
    exact ⟨by simp, stack, hopens.append hbalanced, hparens⟩
  | call ht => exact ⟨by simp, t :: stack, .cons hopens ht .nil, congrArg _ hparens⟩
  | opening ht => exact ⟨by simp, t :: stack, .cons hopens ht .nil, congrArg _ hparens⟩
  | closing ht hy =>
    rw [hy, parens_waiting] at hparens
    cases stack with
    | nil => cases hparens
    | cons o stack => exact ⟨by simp, stack, hopens.closing ht, (List.cons.inj hparens).2⟩

theorem tracks_of_run (hrun : tokens.foldlM Yard.push .empty = .ok y) : Tracks tokens y :=
  run_induction tracks_empty (fun _ hy hs => hy.step hs) hrun

theorem Tracks.push (h : Tracks before y) (hn : ∀ e, ¬ Offends before t e) :
    ∃ z, y.push t = .ok z ∧ Tracks (before ++ [t]) z := by
  cases hp : y.push t with
  | ok z => exact ⟨z, rfl, h.step (push_eq_ok_iff.mp hp)⟩
  | error e => exact absurd (h.halt_iff.mp (push_eq_error_iff.mp hp)) (hn e)

theorem exists_tracks (h : Inoffensive tokens) :
    ∃ y, tokens.foldlM Yard.push .empty = .ok y ∧ Tracks tokens y := by
  induction tokens using List.reverseRecOn with
  | nil => exact ⟨.empty, rfl, tracks_empty⟩
  | append_singleton tokens t ih =>
    obtain ⟨htokens, ht⟩ := inoffensive_append_singleton.mp h
    obtain ⟨y, hrun, hy⟩ := ih htokens
    obtain ⟨z, hpush, hz⟩ := hy.push ht
    refine ⟨z, ?_, hz⟩
    rw [foldlM_push_append hrun, foldlM_push_cons hpush]
    rfl

end Yard

end Tree

open Formula.Tree.Yard

theorem fillFrom_of_offends (hb : Inoffensive before) (he : Offends before t e)
    (after : List Token) (fault : Option LexError) :
    Reader.fillFrom .empty (before ++ t :: after) fault = .error e := by
  obtain ⟨y, hrun, hy⟩ := exists_tracks hb
  have hpush := push_eq_error_iff.mpr (hy.halt_iff.mpr he)
  rw [Reader.fillFrom, foldlM_push_append hrun, List.foldlM_cons, hpush]
  rfl

theorem Opens.eq_of_allClosed {o p : Token} {stack : List Token} (h : Opens tokens (p :: stack))
    (hs : tokens = before ++ o :: after) (ho : o.kind = .openParen) (hn : ¬ Closes after)
    (ha : AllClosed after) : o = p := by
  cases h with
  | cons h hp hb =>
    rcases append_cons_eq_append hs with ⟨rest, -, hrest⟩ | ⟨rest, -, rfl⟩
    · rcases List.cons_eq_append_iff.mp hrest with ⟨-, hcons⟩ | ⟨rest, -, rfl⟩
      · exact (List.cons.inj hcons).1.symm
      · exact absurd (ha rest p _ rfl hp) hb.not_closes
    · exact absurd (hb.allClosed rest o after rfl ho) hn

theorem exists_verdict (tokens : List Token) (fault : Option LexError) :
    ∃ v, Verdict tokens fault v := by
  rcases inoffensive_or_exists_first tokens with h | ⟨before, t, after, e, hs, hb, he⟩
  · cases fault with
    | some e => exact ⟨_, .lex h rfl⟩
    | none =>
      obtain ⟨y, -, -, stack, hopens, -⟩ := exists_tracks h
      cases hopens with
      | nil ha => exact ⟨_, .closed h rfl ha.allClosed⟩
      | cons _ ho hb => exact ⟨_, .unclosed h rfl rfl ho hb.not_closes hb.allClosed⟩
  · exact ⟨_, .offence hs hb he⟩

namespace Tree

inductive Reduced : Except ParseError Tree → Prop
  | tree (t : Tree) : Reduced (.ok t)
  | missingOperand (op : Operator) (sign : Span) : Reduced (.error (.missingOperand op sign))
  | unexpectedOperand (span : Span) : Reduced (.error (.unexpectedOperand span))
  | emptyExpression : Reduced (.error .emptyExpression)

theorem reduced_ofItems (items : List Item) : Reduced (ofItems items) := by
  rw [ofItems]
  cases hr : reduceOnto [] items with
  | error e =>
    obtain ⟨op, sign, rfl, -⟩ := missingOperand_of_reduceOnto hr
    exact .missingOperand op sign
  | ok trees =>
    change Reduced (only trees)
    unfold only
    split
    · exact .emptyExpression
    · exact .tree _
    · exact .unexpectedOperand _

variable {source : String}

theorem ofString_of_verdict (h : VerdictOn source (some e)) : Tree.ofString source = .error e := by
  rw [ofString_eq]
  cases h with
  | offence hs hb he =>
    rw [hs, fillFrom_of_offends hb he]
    rfl
  | lex hi hf =>
    obtain ⟨y, hrun, -⟩ := exists_tracks hi
    rw [hf, Reader.fillFrom, hrun]
    rfl
  | @unclosed before after o hi hf hs ho hn ha =>
    obtain ⟨y, hrun, -, stack, hopens, hparens⟩ := exists_tracks hi
    rw [hf, Reader.fillFrom, hrun]
    cases stack with
    | nil => exact absurd (hopens.allClosed_iff.mpr rfl before o after hs ho) hn
    | cons p stack =>
      obtain ⟨ops, below, hops, -⟩ := eq_waiting_of_parens_eq_cons hparens
      obtain rfl := hopens.eq_of_allClosed hs ho hn ha
      change y.items >>= ofItems = _
      rw [Yard.items, hops, drain_waiting]
      rfl

theorem exists_items_of_verdict (h : VerdictOn source none) : ∃ y items,
    (Reader.ofString source).tokens.1.foldlM Yard.push .empty = .ok y ∧ y.items = .ok items ∧
      Tree.ofString source = ofItems items := by
  cases h with
  | closed hi hf ha =>
    obtain ⟨y, hrun, -, stack, hopens, hparens⟩ := exists_tracks hi
    rw [hopens.allClosed_iff.mp ha] at hparens
    obtain ⟨ops, hops⟩ := eq_waiting_of_parens_eq_nil hparens
    have hitems : y.items = .ok (flush ops y.placed).reverse := by
      rw [Yard.items, hops, ← List.append_nil (waiting ops), drain_waiting]
      rfl
    refine ⟨y, _, hrun, hitems, ?_⟩
    rw [ofString_eq, hf, Reader.fillFrom, hrun]
    change y.items >>= ofItems = _
    rw [hitems]
    rfl

theorem reduced_of_verdict (h : VerdictOn source none) : Reduced (Tree.ofString source) := by
  obtain ⟨y, items, -, -, hof⟩ := exists_items_of_verdict h
  rw [hof]
  exact reduced_ofItems items

/-- Exactly the fault that the verdict names ends the reading of a text; where it names none, all
that can still be wrong is the number of operands. -/
theorem ofString_verdict (source : String) : (∃ v, VerdictOn source v) ∧
    (∀ e, VerdictOn source (some e) → Tree.ofString source = .error e) ∧
    (VerdictOn source none → Reduced (Tree.ofString source)) := by
  refine ⟨exists_verdict _ _, ?_, ?_⟩
  · intro e h
    exact ofString_of_verdict h
  · intro h
    exact reduced_of_verdict h

example : Tree.ofString "(2 + (x)))  5 (" = .error (.unmatchedCloseParen ⟨9, 10⟩) := by
  decide +kernel

end Tree

end Formula
