import Mathlib.Data.List.Induction

/-!
What is asked of every element of a list in view of those before it.
-/

namespace Formula

variable {α : Type} {P : List α → α → Prop} {list : List α} {x : α}

theorem append_cons_eq_append {a b p s : List α} (h : a ++ x :: b = p ++ s) :
    (∃ rest, a = p ++ rest ∧ s = rest ++ x :: b) ∨ ∃ rest, p = a ++ x :: rest ∧ b = rest ++ s := by
  rcases List.append_eq_append_iff.mp h with ⟨rest, rfl, hrest⟩ | ⟨rest, rfl, hrest⟩
  · cases rest with
    | nil => exact .inl ⟨[], by simp, hrest.symm⟩
    | cons r rest =>
      obtain ⟨rfl, rfl⟩ := List.cons.inj hrest
      exact .inr ⟨rest, rfl, rfl⟩
  · exact .inl ⟨rest, rfl, hrest⟩

def Throughout (P : List α → α → Prop) (list : List α) : Prop :=
  ∀ before x after, list = before ++ x :: after → P before x

theorem throughout_append_singleton :
    Throughout P (list ++ [x]) ↔ Throughout P list ∧ P list x := by
  constructor
  · intro h
    refine ⟨fun before y after hs => ?_, h list x [] rfl⟩
    exact h before y (after ++ [x]) (by rw [hs, List.append_assoc, List.cons_append])
  · rintro ⟨h, hx⟩ before y after hs
    rcases append_cons_eq_append hs with ⟨rest, rfl, hrest⟩ | ⟨rest, -, hrest⟩
    · rcases List.cons_eq_append_iff.mp hrest with ⟨rfl, hcons⟩ | ⟨rest, rfl, -⟩
      · obtain ⟨rfl, -⟩ := List.cons.inj hcons
        rwa [List.append_nil] at hx
      · exact h before y rest rfl
    · simp at hrest

theorem throughout_or_exists_first (P : List α → α → Prop) (list : List α) : Throughout P list ∨
    ∃ before x after, list = before ++ x :: after ∧ Throughout P before ∧ ¬ P before x := by
  -- From the end: what is asked of an element does not depend on those behind it.
  induction list using List.reverseRecOn with
  | nil =>
    left
    intro before x after hs
    simp at hs
  | append_singleton list x ih =>
    rcases ih with h | ⟨before, y, after, rfl, hb, hy⟩
    · by_cases hx : P list x
      · exact .inl (throughout_append_singleton.mpr ⟨h, hx⟩)
      · exact .inr ⟨list, x, [], rfl, h, hx⟩
    · exact .inr ⟨before, y, after ++ [x], by simp, hb, hy⟩

end Formula
