import Formula.Proofs.Balance
import Formula.Proofs.Grammar
import Mathlib.Data.List.Chain

namespace Formula

open Formula.Tree

namespace Token.Kind

/-- Two neighbours of which the second starts an operand right behind the end of another one, with
no operator to join them; a parenthesis behind a name is a call's. -/
def Juxtaposed : Kind → Kind → Bool
  | identifier _, identifier _ | identifier _, number _ => true
  | number _, identifier _ | number _, number _ | number _, openParen => true
  | closeParen, identifier _ | closeParen, number _ | closeParen, openParen => true
  | _, _ => false

def startsOperand : Kind → Bool
  | identifier _ | number _ | openParen => true
  | _ => false

/-- Whether an operand has just ended, with `last` the token read last. -/
def ended (last : Option Kind) : Bool :=
  match last with
  | some (identifier _) | some (number _) | some closeParen => true
  | _ => false

theorem startsOperand_of_juxtaposed {s k : Kind} (h : Juxtaposed s k) : k.startsOperand := by
  cases s <;> cases k <;> first | rfl | cases h

theorem ended_of_juxtaposed {s k : Kind} (h : Juxtaposed s k) : ended (some s) := by
  cases s <;> cases k <;> first | rfl | cases h

def follows (last : Option Kind) (kind : Kind) : Bool :=
  match last, kind with
  | some (identifier _), openParen => true
  | _, _ => kind.startsOperand != ended last

theorem gain_add_ended (last : Option Kind) (kind : Kind) (h : ∀ k ∈ last, ¬ Juxtaposed k kind) :
    kind.gain last + (ended last).toInt =
      (ended (some kind)).toInt - if follows last kind then 0 else 1 := by
  cases last with
  | none => cases kind <;> rfl
  | some k =>
    have hk := h k rfl
    cases k <;> cases kind <;> first | rfl | exact absurd rfl hk

end Token.Kind

open Token.Kind

/-- Every token stands where one of its sort is due, up to the end of an operand. -/
def WellPlaced : Option Token.Kind → List Token → Prop
  | last, [] => ended last
  | last, t :: tokens => follows last t.kind ∧ WellPlaced (some t.kind) tokens

namespace Tree.Yard

def surplus (y : Yard) : Int := y.balance - (ended (y.previous.map Token.kind)).toInt

variable {y z : Yard} {t : Token} {tokens : List Token}

theorem push_surplus (h : y.push t = .ok z) (hj : ∀ s ∈ y.previous, ¬ Juxtaposed s.kind t.kind) :
    z.surplus = y.surplus - if follows (y.previous.map Token.kind) t.kind then 0 else 1 := by
  obtain ⟨hprev, hbalance, -⟩ := push_keeps h
  have hgain := gain_add_ended (y.previous.map Token.kind) t.kind (by
    intro k hk
    obtain ⟨s, hs, rfl⟩ := Option.map_eq_some_iff.mp hk
    exact hj s hs)
  rw [surplus, surplus, hprev, hbalance, Option.map_some]
  omega

theorem foldlM_push_surplus (h : tokens.foldlM push y = .ok z)
    (hj : (y.previous.toList ++ tokens).IsChain fun s t => ¬ Juxtaposed s.kind t.kind) :
    z.surplus ≤ y.surplus ∧ (z.surplus = y.surplus → ended (z.previous.map Token.kind) →
      WellPlaced (y.previous.map Token.kind) tokens) := by
  induction tokens generalizing y with
  | nil =>
    obtain rfl := pure_eq_ok.mp h
    exact ⟨le_rfl, fun _ he => he⟩
  | cons t tokens ih =>
    -- The surplus shrinks at a token that lacks an operand before it, and never grows again.
    obtain ⟨x, hx, hrun⟩ := bind_eq_ok.mp h
    obtain ⟨-, hchain, hhead⟩ := List.isChain_append.mp hj
    have hprev := (push_keeps hx).1
    have hstep := push_surplus hx fun s hs => hhead s (by simp [Option.mem_def.mp hs]) t rfl
    obtain ⟨hle, hwell⟩ := ih hrun (by rw [hprev]; exact hchain)
    rw [hprev, Option.map_some] at hwell
    by_cases hf : follows (y.previous.map Token.kind) t.kind
    · rw [if_pos hf, Int.sub_zero] at hstep
      rw [← hstep]
      exact ⟨hle, fun he hend => ⟨hf, hwell he hend⟩⟩
    · rw [if_neg hf] at hstep
      exact ⟨by omega, fun he => by omega⟩

theorem foldlM_nest (h : tokens.foldlM push y = .ok z) :
    tokens.foldlM Token.nest y.depth = some z.depth := by
  induction tokens generalizing y with
  | nil =>
    obtain rfl := pure_eq_ok.mp h
    rfl
  | cons t tokens ih =>
    obtain ⟨x, hx, hrun⟩ := bind_eq_ok.mp h
    rw [List.foldlM_cons, (push_keeps hx).2.2]
    exact ih hrun

end Tree.Yard

open Formula.Tree.Yard

theorem Tree.wellPlaced_of_ofString {source : String} {t : Tree} (h : Tree.ofString source = .ok t) :
    (Reader.ofString source).tokens.1.foldlM Token.nest 0 = some 0 ∧
      (((Reader.ofString source).tokens.1.IsChain fun s t => ¬ Juxtaposed s.kind t.kind) →
        WellPlaced none (Reader.ofString source).tokens.1) := by
  obtain ⟨-, z, items, hrun, hitems, hone⟩ := ofString_eq_ok_iff.mp h
  have hbalance := balance_of_ofItems hone
  obtain ⟨hdrain, hdepth⟩ := drain_keeps z.previous hitems
  refine ⟨?_, fun hj => ?_⟩
  · exact (foldlM_nest hrun).trans (congrArg some hdepth)
  · obtain ⟨hle, hwell⟩ := foldlM_push_surplus hrun hj
    have hz : z.surplus = 1 - (ended (z.previous.map Token.kind)).toInt := by
      rw [surplus, ← hbalance, hdrain]
    have hempty : Yard.empty.surplus = 0 := rfl
    cases he : ended (z.previous.map Token.kind) with
    | false =>
      rw [he] at hz
      simp at hz
      omega
    | true =>
      rw [he] at hz
      exact hwell (by rw [hz, hempty]; rfl) he

end Formula
