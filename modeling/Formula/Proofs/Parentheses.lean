import Formula.Proofs.Prefixes
import Formula.Token
import Mathlib.Algebra.BigOperators.Group.List.Basic
import Mathlib.Algebra.Order.Ring.Int

namespace Formula

def Token.Kind.nesting : Kind → Int
  | openParen => 1
  | closeParen => -1
  | _ => 0

def openParens (tokens : List Token) : Int := (tokens.map fun t => t.kind.nesting).sum

inductive Balanced : List Token → Prop
  | nil : Balanced []
  | other {t : Token} {tokens : List Token} (ho : t.kind ≠ .openParen) (hc : t.kind ≠ .closeParen)
      (h : Balanced tokens) : Balanced (t :: tokens)
  | enclosed {o c : Token} {a b : List Token} (ho : o.kind = .openParen) (ha : Balanced a)
      (hc : c.kind = .closeParen) (hb : Balanced b) : Balanced (o :: (a ++ c :: b))

/-- A parenthesis that stands open before the tokens is closed in them. -/
def Closes (tokens : List Token) : Prop :=
  ∃ inner c after, tokens = inner ++ c :: after ∧ Balanced inner ∧ c.kind = .closeParen

def AllClosed (tokens : List Token) : Prop :=
  ∀ before o after, tokens = before ++ o :: after → o.kind = .openParen → Closes after

/-- The parentheses left open at the end of some tokens, the last one first. -/
inductive Opens : List Token → List Token → Prop
  | nil {a : List Token} (ha : Balanced a) : Opens a []
  | cons {o : Token} {a b stack : List Token} (h : Opens a stack) (ho : o.kind = .openParen)
      (hb : Balanced b) : Opens (a ++ o :: b) (o :: stack)

variable {t : Token} {tokens a b stack : List Token}

theorem openParens_cons (t : Token) (tokens : List Token) :
    openParens (t :: tokens) = t.kind.nesting + openParens tokens := by
  simp [openParens]

theorem openParens_append (a b : List Token) :
    openParens (a ++ b) = openParens a + openParens b := by
  simp [openParens]

theorem Token.Kind.nesting_eq_zero {kind : Kind} (ho : kind ≠ openParen) (hc : kind ≠ closeParen) :
    kind.nesting = 0 := by
  cases kind <;> first | rfl | contradiction

theorem Closes.append (h : Closes a) (b : List Token) : Closes (a ++ b) := by
  obtain ⟨inner, c, after, rfl, hi, hc⟩ := h
  exact ⟨inner, c, after ++ b, by simp, hi, hc⟩

namespace Balanced

theorem append (ha : Balanced a) (hb : Balanced b) : Balanced (a ++ b) := by
  induction ha with
  | nil => exact hb
  | other ho hc h ih => exact .other ho hc ih
  | enclosed ho ha hc h iha ih =>
    rw [List.cons_append, List.append_assoc, List.cons_append]
    exact .enclosed ho ha hc ih

theorem openParens_eq_zero (h : Balanced tokens) : openParens tokens = 0 := by
  induction h with
  | nil => rfl
  | other ho hc h ih => rw [openParens_cons, Token.Kind.nesting_eq_zero ho hc, ih, Int.zero_add]
  | enclosed ho ha hc hb iha ihb =>
    rw [openParens_cons, openParens_append, openParens_cons, ho, hc, iha, ihb]
    rfl

theorem openParens_nonneg (h : Balanced (a ++ b)) : 0 ≤ openParens a := by
  -- The part `a` may end anywhere: before, inside or behind the pair that comes first.
  generalize hs : a ++ b = tokens at h
  induction h generalizing a b with
  | nil =>
    obtain ⟨rfl, -⟩ := List.append_eq_nil_iff.mp hs
    exact le_rfl
  | other ho hc h ih =>
    rcases List.append_eq_cons_iff.mp hs with ⟨rfl, -⟩ | ⟨a, rfl, hrest⟩
    · exact le_rfl
    · rw [openParens_cons, Token.Kind.nesting_eq_zero ho hc, Int.zero_add]
      exact ih hrest.symm
  | enclosed ho ha hc hb iha ihb =>
    rcases List.append_eq_cons_iff.mp hs with ⟨rfl, -⟩ | ⟨a, rfl, hrest⟩
    · exact le_rfl
    · rw [openParens_cons, ho]
      rcases append_cons_eq_append hrest with ⟨rest, rfl, -⟩ | ⟨rest, rfl, rfl⟩
      · have hinner := iha rfl
        simp only [Token.Kind.nesting]
        omega
      · have hbehind := ihb rfl
        rw [openParens_append, openParens_cons, hc, ha.openParens_eq_zero]
        simp only [Token.Kind.nesting]
        omega

theorem not_closes (h : Balanced tokens) : ¬ Closes tokens := by
  rintro ⟨inner, c, after, rfl, hi, hc⟩
  rw [List.append_cons] at h
  have hle := h.openParens_nonneg
  rw [openParens_append, openParens_cons, hc, hi.openParens_eq_zero] at hle
  exact absurd hle (by decide)

theorem allClosed (h : Balanced tokens) : AllClosed tokens := by
  induction h with
  | nil =>
    intro before o after hs
    simp at hs
  | other ho hc h ih =>
    intro before p after hs hp
    rcases List.cons_eq_append_iff.mp hs with ⟨-, hcons⟩ | ⟨before, -, rfl⟩
    · obtain ⟨rfl, -⟩ := List.cons.inj hcons
      exact absurd hp ho
    · exact ih before p after rfl hp
  | @enclosed o c a b ho ha hc hb iha ihb =>
    intro before p after hs hp
    rcases List.cons_eq_append_iff.mp hs with ⟨-, hcons⟩ | ⟨before, -, hrest⟩
    · obtain ⟨-, rfl⟩ := List.cons.inj hcons
      exact ⟨a, c, b, rfl, ha, hc⟩
    · rcases append_cons_eq_append hrest with ⟨rest, ha', hafter⟩ | ⟨rest, rfl, rfl⟩
      · rcases List.cons_eq_append_iff.mp hafter with ⟨rfl, hcons⟩ | ⟨inner, rfl, rfl⟩
        · obtain ⟨rfl, -⟩ := List.cons.inj hcons
          rw [hc] at hp
          cases hp
        · exact (iha before p inner ha' hp).append _
      · exact ihb rest p after rfl hp

end Balanced

namespace Opens

theorem append (h : Opens a stack) (hb : Balanced b) : Opens (a ++ b) stack := by
  cases h with
  | nil ha => exact .nil (ha.append hb)
  | cons h ho hb' =>
    rw [List.append_assoc, List.cons_append]
    exact .cons h ho (hb'.append hb)

theorem closing {o c : Token} (h : Opens a (o :: stack)) (hc : c.kind = .closeParen) :
    Opens (a ++ [c]) stack := by
  cases h with
  | cons h ho hb =>
    rw [List.append_assoc, List.cons_append]
    exact h.append (.enclosed ho hb hc .nil)

theorem allClosed_iff (h : Opens tokens stack) : AllClosed tokens ↔ stack = [] := by
  cases h with
  | nil ha => exact iff_of_true ha.allClosed rfl
  | @cons o a b stack h ho hb =>
    apply iff_of_false
    · intro hall
      exact hb.not_closes (hall a o b rfl ho)
    · exact List.cons_ne_nil o stack

end Opens

end Formula
