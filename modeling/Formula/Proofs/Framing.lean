import Formula.Proofs.Parsing
import Formula.Proofs.Placement
import Formula.Proofs.Steps

namespace Formula.Tree

namespace Yard

def onto (y base : Yard) : Yard :=
  ⟨y.placed ++ base.placed, y.pending ++ base.pending, y.previous.or base.previous⟩

variable {y z base : Yard} {t : Token} {tokens : List Token}

theorem flush_placed_append (ops : List (Operator × Span)) (placed below : List Item) :
    flush ops (placed ++ below) = flush ops placed ++ below :=
  (List.append_assoc _ _ _).symm

theorem Loose.append {n : Nat} {pending below : List Pending} (h : Loose n pending)
    (hb : Loose n below) : Loose n (pending ++ below) := by
  cases pending with
  | nil => exact hb
  | cons p pending => exact h

theorem Free.onto (h : y.Free) (hb : base.Free) : (y.onto base).Free := by
  intro t ht
  rcases Option.or_eq_some_iff.mp ht with ht | ⟨-, ht⟩
  · exact h t ht
  · exact hb t ht

/-- A step that a yard can take alone it takes on top of another one where that one ends at a
parenthesis or is empty. -/
theorem Step.onto (h : Step y t z) (hf : base.Free) (hl : Loose 0 base.pending) :
    Step (y.onto base) t (z.onto base) := by
  cases h with
  | operand ht => exact .operand ht
  | @operator op ops pending ht hy hops hloose =>
    have hpending : (y.onto base).pending = waiting ops ++ (pending ++ base.pending) := by
      change y.pending ++ base.pending = _
      rw [hy, List.append_assoc]
    -- Nothing below can give way to the operator: below is no operator on top.
    have hbelow : Loose op.precedence (pending ++ base.pending) := by
      apply hloose.append
      intro op' sign hop
      exact absurd (hl op' sign hop) (Nat.not_lt_zero _)
    have hstep := Step.operator ht hpending hops hbelow
    rwa [onto, flush_placed_append] at hstep
  | call ht hy hk =>
    apply Step.call ht _ hk
    change y.previous.or base.previous = _
    rw [hy]
    rfl
  | opening ht hy => exact .opening ht (hy.onto hf)
  | @closing ops span pending ht hy =>
    have hpending : (y.onto base).pending =
        waiting ops ++ .paren span :: (pending ++ base.pending) := by
      change y.pending ++ base.pending = _
      rw [hy, List.append_assoc, List.cons_append]
    have hstep := Step.closing ht hpending
    rwa [onto, flush_placed_append] at hstep

theorem foldlM_push_onto (h : tokens.foldlM push y = .ok z) (hf : base.Free)
    (hl : Loose 0 base.pending) : tokens.foldlM push (y.onto base) = .ok (z.onto base) := by
  induction tokens generalizing y with
  | nil =>
    obtain rfl := pure_eq_ok.mp h
    rfl
  | cons t tokens ih =>
    obtain ⟨x, hx, hrun⟩ := bind_eq_ok.mp h
    have hstep := push_eq_ok_iff.mpr ((push_eq_ok_iff.mp hx).onto hf hl)
    rw [foldlM_push_cons hstep]
    exact ih hrun

end Yard

open Yard

theorem contributes_of_ofTokens {tokens : List Token} {t : Tree} (h : ofTokens tokens none = .ok t) :
    Contributes 0 tokens t.toItems := by
  intro base hf hl
  obtain ⟨items, hread, ht⟩ := bind_eq_ok.mp h
  obtain ⟨y, hfill, hitems⟩ := bind_eq_ok.mp hread
  obtain ⟨z, hrun, hy⟩ := bind_eq_ok.mp hfill
  obtain rfl := pure_eq_ok.mp hy
  obtain ⟨ops, hpending, rfl⟩ := exists_waiting_of_drain hitems
  refine ⟨ops, z.placed ++ base.placed, z.previous.or base.previous, fun o _ => Nat.zero_le _, ?_, ?_⟩
  · rw [← hpending]
    exact foldlM_push_onto (y := .empty) hrun hf hl
  · rw [toItems_of_ofItems ht, flush_placed_append, List.reverse_reverse]

theorem Yard.Contributes.ofTokens_eq {n : Nat} {tokens : List Token} {t : Tree}
    (h : Contributes n tokens t.toItems) : ofTokens tokens none = .ok t.rejoin := by
  obtain ⟨y, hrun, hitems⟩ := h.exists_items
  rw [ofTokens, Reader.fillFrom, hrun, ← ofItems_toItems]
  change y.items >>= ofItems = _
  rw [hitems]
  rfl

end Formula.Tree
