import Formula.Proofs.Faults
import Formula.Proofs.Yard
import Mathlib.Data.List.Induction

namespace Formula

namespace Token.Kind

variable {kind : Kind}

theorem eq_of_role_opening (h : kind.role = .opening) : kind = openParen := by
  cases kind <;> first | rfl | cases h

theorem eq_of_role_closing (h : kind.role = .closing) : kind = closeParen := by
  cases kind <;> first | rfl | cases h

theorem ne_call_of_role {op : Operator} (h : kind.role = .operator op) : op ≠ .call := by
  rintro rfl
  cases kind <;> cases h

end Token.Kind

namespace Tree.Yard

inductive Step (y : Yard) (t : Token) : Yard → Prop
  | operand {l : Leaf} (ht : t.role = .operand l) :
      Step y t ⟨.operand l t.span :: y.placed, y.pending, some t⟩
  | operator {op : Operator} {ops : List (Operator × Span)} {pending : List Pending}
      (ht : t.role = .operator op) (hy : y.pending = waiting ops ++ pending)
      (hops : ∀ o ∈ ops, op.precedence ≤ o.1.precedence) (hl : Loose op.precedence pending) :
      Step y t ⟨flush ops y.placed, .operator op t.span :: pending, some t⟩
  | call {f : Token} {text : String} (ht : t.kind = .openParen) (hy : y.previous = some f)
      (hf : f.kind = .identifier text) :
      Step y t ⟨y.placed, .paren t.span :: .operator .call f.span :: y.pending, some t⟩
  | opening (ht : t.kind = .openParen) (hy : y.Free) :
      Step y t ⟨y.placed, .paren t.span :: y.pending, some t⟩
  | closing {ops : List (Operator × Span)} {span : Span} {pending : List Pending}
      (ht : t.kind = .closeParen) (hy : y.pending = waiting ops ++ .paren span :: pending) :
      Step y t ⟨flush ops y.placed, pending, some t⟩

inductive Halt (y : Yard) (t : Token) : ParseError → Prop
  | callOnNumber {n : Token} {text : String} (ht : t.kind = .openParen) (hy : y.previous = some n)
      (hn : n.kind = .number text) : Halt y t (.callOnNumber ⟨n.span.start, t.span.stop⟩)
  | unmatched {ops : List (Operator × Span)} (ht : t.kind = .closeParen)
      (hy : y.pending = waiting ops) : Halt y t (.unmatchedCloseParen t.span)

variable {y z : Yard} {t : Token} {e : ParseError}

theorem exists_loose_of_unwind (n : Nat) (pending : List Pending) (placed : List Item) :
    ∃ ops rest, pending = waiting ops ++ rest ∧ (∀ o ∈ ops, n ≤ o.1.precedence) ∧ Loose n rest ∧
      unwind n pending placed = (rest, flush ops placed) := by
  induction pending, placed using unwind.induct n with
  | case1 op sign pending placed hn ih =>
    obtain ⟨ops, rest, rfl, hops, hl, hu⟩ := ih
    refine ⟨(op, sign) :: ops, rest, rfl, ?_, hl, ?_⟩
    · exact List.forall_mem_cons.mpr ⟨hn, hops⟩
    · rw [unwind, if_pos hn, hu, flush_cons]
  | case2 placed op sign pending hn =>
    exact ⟨[], _, rfl, by simp, loose_operator (Nat.lt_of_not_le hn) _ _,
      by rw [unwind, if_neg hn]; rfl⟩
  | case3 pending placed hno =>
    have hl : Loose n pending := by
      intro op sign h
      obtain ⟨rest, rfl⟩ := List.head?_eq_some_iff.mp h
      exact absurd rfl (hno op sign rest)
    exact ⟨[], _, rfl, by simp, hl, unwind_of_loose hl placed⟩

theorem free_of_ne {last : Option Token} (hname : ∀ text name, last ≠ some ⟨.identifier text, name⟩)
    (hnumber : ∀ text number, last ≠ some ⟨.number text, number⟩) (placed : List Item)
    (pending : List Pending) : Free ⟨placed, pending, last⟩ := by
  rintro ⟨kind, span⟩ rfl l hl
  cases kind with
  | identifier text => exact hname text span rfl
  | number text => exact hnumber text span rfl
  | _ => cases hl

theorem push_eq_ok_iff : y.push t = .ok z ↔ Step y t z := by
  constructor
  · intro h
    obtain ⟨placed, pending, last⟩ := y
    unfold push at h
    split at h
    · next l hrole =>
      obtain rfl := Except.ok.inj h
      exact .operand hrole
    · next op hrole =>
      obtain rfl := Except.ok.inj h
      obtain ⟨ops, rest, rfl, hops, hl, hu⟩ := exists_loose_of_unwind op.precedence pending placed
      simp only [hu]
      exact .operator hrole rfl hops hl
    · next hrole =>
      have hkind := Token.Kind.eq_of_role_opening hrole
      split at h
      · next pending' he =>
        obtain rfl := Except.ok.inj h
        change enter pending t.span last = .ok pending' at he
        unfold enter at he
        split at he
        · next text name =>
          obtain rfl := Except.ok.inj he
          exact .call (f := ⟨.identifier text, name⟩) hkind rfl rfl
        · cases he
        · next hname hnumber =>
          obtain rfl := Except.ok.inj he
          exact .opening hkind (free_of_ne hname hnumber placed pending)
      · cases h
    · next hrole =>
      have hkind := Token.Kind.eq_of_role_closing hrole
      split at h
      · next pending' placed' hc =>
        obtain rfl := Except.ok.inj h
        obtain ⟨ops, span, rfl, rfl⟩ := exists_waiting_of_close hc
        exact .closing hkind rfl
      · cases h
  · intro h
    cases h with
    | operand ht => exact push_operand ht y
    | operator ht hy hops hl =>
      apply push_operator ht
      rw [hy, unwind_waiting hops, unwind_of_loose hl]
    | call ht hy hf => exact push_opening_of_name (congrArg Token.Kind.role ht) hy hf
    | opening ht hy => exact push_opening (congrArg Token.Kind.role ht) hy
    | closing ht hy =>
      apply push_closing (congrArg Token.Kind.role ht)
      rw [hy, close_waiting]
      rfl

theorem Step.previous_eq (h : Step y t z) : z.previous = some t := by
  cases h <;> rfl

theorem exists_waiting_of_close_eq_none {pending : List Pending} {placed : List Item}
    (h : close pending placed = none) : ∃ ops, pending = waiting ops := by
  induction pending generalizing placed with
  | nil => exact ⟨[], rfl⟩
  | cons p pending ih =>
    cases p with
    | operator op sign =>
      obtain ⟨ops, rfl⟩ := ih h
      exact ⟨(op, sign) :: ops, rfl⟩
    | paren span => cases h

theorem push_eq_error_iff : y.push t = .error e ↔ Halt y t e := by
  constructor
  · intro h
    obtain ⟨placed, pending, last⟩ := y
    unfold push at h
    split at h
    · cases h
    · cases h
    · next hrole =>
      have hkind := Token.Kind.eq_of_role_opening hrole
      split at h
      · cases h
      · next fault he =>
        obtain rfl := Except.error.inj h
        change enter pending t.span last = .error fault at he
        unfold enter at he
        split at he
        · cases he
        · next text number =>
          obtain rfl := Except.error.inj he
          exact .callOnNumber (n := ⟨.number text, number⟩) hkind rfl rfl
        · cases he
    · next hrole =>
      have hkind := Token.Kind.eq_of_role_closing hrole
      split at h
      · cases h
      · next hc =>
        obtain rfl := Except.error.inj h
        obtain ⟨ops, hops⟩ := exists_waiting_of_close_eq_none hc
        exact .unmatched hkind hops
  · intro h
    cases h with
    | @callOnNumber n text ht hy hn =>
      obtain ⟨kind, number⟩ := n
      obtain rfl : kind = .number text := hn
      have hrole : t.role = .opening := congrArg Token.Kind.role ht
      simp [push, hrole, hy, enter]
    | @unmatched ops ht hy =>
      have hrole : t.role = .closing := congrArg Token.Kind.role ht
      have hclose : close y.pending y.placed = none := by
        rw [hy, ← List.append_nil (waiting ops), close_waiting]
        rfl
      simp [push, hrole, hclose]

theorem run_induction {motive : List Token → Yard → Prop} (empty : motive [] .empty)
    (step : ∀ {before y t z}, before.foldlM push .empty = .ok y → motive before y → Step y t z →
      motive (before ++ [t]) z)
    {tokens : List Token} (hrun : tokens.foldlM push .empty = .ok y) : motive tokens y := by
  induction tokens using List.reverseRecOn generalizing y with
  | nil =>
    obtain rfl := pure_eq_ok.mp hrun
    exact empty
  | append_singleton tokens t ih =>
    rw [List.foldlM_append] at hrun
    obtain ⟨x, hx, hlast⟩ := bind_eq_ok.mp hrun
    obtain ⟨z, hz, hnil⟩ := bind_eq_ok.mp hlast
    obtain rfl := pure_eq_ok.mp hnil
    exact step hx (ih hx) (push_eq_ok_iff.mp hz)

end Tree.Yard

end Formula
