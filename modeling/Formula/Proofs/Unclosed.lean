import Formula.Proofs.Balance
import Formula.Proofs.Parentheses

namespace Formula

variable {tokens a b stack : List Token} {o : Token}

theorem Token.Kind.nest_of_ne {kind : Kind} (ho : kind ≠ openParen) (hc : kind ≠ closeParen)
    (depth : Nat) : kind.nest depth = some depth := by
  cases kind <;> first | rfl | contradiction

theorem Balanced.foldlM_nest (h : Balanced tokens) (depth : Nat) :
    tokens.foldlM Token.nest depth = some depth := by
  induction h generalizing depth with
  | nil => rfl
  | other ho hc h ih =>
    rw [foldlM_nest_cons, Token.Kind.nest_of_ne ho hc]
    exact ih depth
  | enclosed ho ha hc hb iha ihb =>
    rw [foldlM_nest_open ho, foldlM_nest_append, iha, Option.bind_some, foldlM_nest_close hc]
    exact ihb depth

theorem Opens.foldlM_nest (h : Opens tokens stack) :
    tokens.foldlM Token.nest 0 = some stack.length := by
  induction h with
  | nil ha => exact ha.foldlM_nest 0
  | cons h ho hb ih =>
    rw [foldlM_nest_append, ih, Option.bind_some, foldlM_nest_open ho, hb.foldlM_nest]
    rfl

theorem Closes.foldlM_nest (h : Closes tokens) : tokens.foldlM Token.nest 0 = none := by
  obtain ⟨inner, c, after, rfl, hi, hc⟩ := h
  rw [foldlM_nest_append, hi.foldlM_nest, Option.bind_some, foldlM_nest_cons, hc]
  rfl

theorem closes_or_exists_opens (tokens : List Token) :
    Closes tokens ∨ ∃ stack, Opens tokens stack := by
  -- From the end, as `Opens` grows there; what is closed stays closed.
  induction tokens using List.reverseRecOn with
  | nil => exact .inr ⟨[], .nil .nil⟩
  | append_singleton tokens t ih =>
    rcases ih with h | ⟨stack, h⟩
    · exact .inl (h.append [t])
    · by_cases ho : t.kind = .openParen
      · exact .inr ⟨t :: stack, .cons h ho .nil⟩
      · by_cases hc : t.kind = .closeParen
        · cases stack with
          | nil =>
            cases h with
            | nil hb => exact .inl ⟨tokens, t, [], rfl, hb, hc⟩
          | cons o stack => exact .inr ⟨stack, h.closing hc⟩
        · exact .inr ⟨stack, h.append (.other ho hc .nil)⟩

theorem Opens.not_closes (h : Opens tokens stack) : ¬ Closes tokens := by
  intro hc
  have hnone := hc.foldlM_nest
  rw [h.foldlM_nest] at hnone
  cases hnone

theorem closes_iff : Closes tokens ↔ (tokens.foldlM Token.nest 0).isNone := by
  rcases closes_or_exists_opens tokens with h | ⟨stack, h⟩
  · exact iff_of_true h (by rw [h.foldlM_nest]; rfl)
  · exact iff_of_false h.not_closes (by rw [h.foldlM_nest]; exact Bool.false_ne_true)

instance : DecidablePred Closes := fun _ => decidable_of_iff _ closes_iff.symm

/-- The opening parentheses that nothing behind them closes, in their order. -/
def unclosed : List Token → List Token
  | [] => []
  | t :: tokens =>
    if t.kind = .openParen ∧ ¬ Closes tokens then t :: unclosed tokens else unclosed tokens

theorem AllClosed.unclosed_eq_nil (h : AllClosed tokens) : unclosed tokens = [] := by
  induction tokens with
  | nil => rfl
  | cons t tokens ih =>
    rw [unclosed, if_neg fun ⟨ho, hn⟩ => hn (h [] t tokens rfl ho)]
    exact ih fun before o after hs => h (t :: before) o after (congrArg _ hs)

theorem closes_append_open_iff (ho : o.kind = .openParen) (hb : Balanced b) :
    Closes (a ++ o :: b) ↔ Closes a := by
  constructor
  · intro h
    rcases closes_or_exists_opens a with ha | ⟨stack, ha⟩
    · exact ha
    · exact absurd h (ha.cons ho hb).not_closes
  · intro h
    exact h.append (o :: b)

theorem unclosed_append_open (ho : o.kind = .openParen) (hb : Balanced b) (a : List Token) :
    unclosed (a ++ o :: b) = unclosed a ++ [o] := by
  induction a with
  | nil =>
    change unclosed (o :: b) = [o]
    rw [unclosed, if_pos ⟨ho, hb.not_closes⟩, hb.allClosed.unclosed_eq_nil]
  | cons t a ih =>
    rw [List.cons_append, unclosed, unclosed, ih]
    by_cases ht : t.kind = .openParen ∧ ¬ Closes a
    · rw [if_pos ht, if_pos ⟨ht.1, (closes_append_open_iff ho hb).not.mpr ht.2⟩]
      rfl
    · rw [if_neg ht, if_neg fun h => ht ⟨h.1, (closes_append_open_iff ho hb).not.mp h.2⟩]

theorem Opens.unclosed_eq (h : Opens tokens stack) : unclosed tokens = stack.reverse := by
  induction h with
  | nil ha => exact ha.allClosed.unclosed_eq_nil
  | cons h ho hb ih => rw [unclosed_append_open ho hb, ih, List.reverse_cons]

example : unclosed (Reader.ofString "(2)*((x+1)-(3").tokens.1 =
    [⟨.openParen, ⟨4, 5⟩⟩, ⟨.openParen, ⟨11, 12⟩⟩] := by decide +kernel

end Formula
