import Formula.Tree.Outline
import Mathlib.Logic.Function.Iterate

/-!
The outline of a tree has a line for every node, in preorder, and the loop that writes it is done
after as many turns.
-/

namespace Formula.Tree

def depth : Tree → Nat
  | leaf _ _ => 0
  | node _ _ left right _ => max left.depth right.depth + 1

def preorderFrom (level : Nat) : Tree → List (Nat × String)
  | leaf l _ => [(level, l.text)]
  | node op _ left right _ =>
    (level, toString op) :: (left.preorderFrom (level + 1) ++ right.preorderFrom (level + 1))

def alignRight (width : Nat) (text : String) : String := String.ofList (text.toList.leftpad width ' ')

theorem line_eq_alignRight (width : Nat) (text : String) :
    line width text = alignRight width text ++ "\n" := by
  rw [line, alignRight, List.leftpad, String.ofList_append, String.ofList_toList, String.length_toList]

theorem outlineFrom_eq_join (t : Tree) (level : Nat) : t.outlineFrom (indentWidth * level) =
    String.join ((t.preorderFrom level).map fun n => alignRight (indentWidth * n.1) n.2 ++ "\n") := by
  induction t generalizing level with
  | leaf l span =>
    rw [outlineFrom, preorderFrom, line_eq_alignRight]
    simp
  | node op sign left right span ihl ihr =>
    have hdown : indentWidth * level + indentWidth = indentWidth * (level + 1) := rfl
    rw [outlineFrom, preorderFrom, line_eq_alignRight, hdown, ihl, ihr, List.map_cons,
      String.join_cons, List.map_append, String.join_append, String.append_assoc]

/-- What is written already, and the trees to be written, each with the column of its root. -/
abbrev Progress := String × List (Nat × Tree)

def outlineTurn : Progress → Progress
  | (written, []) => (written, [])
  | (written, (width, leaf l _) :: trees) => (written ++ line width l.text, trees)
  | (written, (width, node op _ left right _) :: trees) =>
    (written ++ line width (toString op),
      (width + indentWidth, left) :: (width + indentWidth, right) :: trees)

def Progress.remaining (s : Progress) : Nat := sizes (s.2.map Prod.snd)

theorem Progress.remaining_eq_zero_iff (s : Progress) : s.remaining = 0 ↔ s.2 = [] := by
  obtain ⟨written, trees⟩ := s
  cases trees with
  | nil => exact iff_of_true rfl rfl
  | cons p trees =>
    have hpos := p.2.size_pos
    simp only [remaining, List.map_cons, sizes, reduceCtorEq, iff_false]
    omega

theorem remaining_outlineTurn (s : Progress) : (outlineTurn s).remaining = s.remaining - 1 := by
  obtain ⟨written, trees⟩ := s
  match trees with
  | [] => rfl
  | (width, leaf l span) :: trees =>
    simp only [outlineTurn, Progress.remaining, List.map_cons, sizes, size]
    omega
  | (width, node op sign left right span) :: trees =>
    simp only [outlineTurn, Progress.remaining, List.map_cons, sizes, size]
    omega

theorem remaining_iterate (n : Nat) (s : Progress) :
    (outlineTurn^[n] s).remaining = s.remaining - n := by
  induction n with
  | zero => rfl
  | succ n ih =>
    rw [Function.iterate_succ_apply', remaining_outlineTurn, ih, Nat.sub_sub]

theorem outlineAfter_outlineTurn (s : Progress) :
    outlineAfter (outlineTurn s).1 (outlineTurn s).2 = outlineAfter s.1 s.2 := by
  obtain ⟨written, trees⟩ := s
  match trees with
  | [] => rfl
  | (width, leaf l span) :: trees => rw [outlineTurn, outlineAfter]
  | (width, node op sign left right span) :: trees => rw [outlineTurn, outlineAfter]

theorem outlineAfter_iterate (n : Nat) (s : Progress) :
    outlineAfter (outlineTurn^[n] s).1 (outlineTurn^[n] s).2 = outlineAfter s.1 s.2 := by
  induction n with
  | zero => rfl
  | succ n ih => rw [Function.iterate_succ_apply', outlineAfter_outlineTurn, ih]

/-- No line of what is still to be written is wider than `column`, unless its text is. -/
def Within (column : Nat) (trees : List (Nat × Tree)) : Prop :=
  ∀ p ∈ trees, p.1 + indentWidth * p.2.depth ≤ column

theorem within_cons {column width : Nat} {t : Tree} {trees : List (Nat × Tree)} :
    Within column ((width, t) :: trees) ↔
      width + indentWidth * t.depth ≤ column ∧ Within column trees :=
  List.forall_mem_cons

theorem within_outlineTurn {column : Nat} {s : Progress} (h : Within column s.2) :
    Within column (outlineTurn s).2 := by
  obtain ⟨written, trees⟩ := s
  match trees, h with
  | [], h => exact h
  | (width, leaf l span) :: trees, h => exact (within_cons.mp h).2
  | (width, node op sign left right span) :: trees, h =>
    obtain ⟨hnode, htrees⟩ := within_cons.mp h
    simp only [depth, indentWidth] at hnode
    have hleft : width + indentWidth + indentWidth * left.depth ≤ column := by
      simp only [indentWidth]
      omega
    have hright : width + indentWidth + indentWidth * right.depth ≤ column := by
      simp only [indentWidth]
      omega
    exact within_cons.mpr ⟨hleft, within_cons.mpr ⟨hright, htrees⟩⟩

theorem within_iterate {column : Nat} {s : Progress} (n : Nat) (h : Within column s.2) :
    Within column (outlineTurn^[n] s).2 := by
  induction n with
  | zero => exact h
  | succ n ih =>
    rw [Function.iterate_succ_apply']
    exact within_outlineTurn ih

/-- The loop over pending trees takes one turn a node, and writes all nodes in preorder, each at the
end of five columns a level. No line is asked to be wider than the depth of the tree makes it. -/
theorem outline_eq_join_preorder (t : Tree) :
    t.outline = String.join ((t.preorderFrom 0).map fun n => alignRight (5 * n.1) n.2 ++ "\n") ∧
    (∀ n, (outlineTurn^[n] ("", [(0, t)])).remaining = t.size - n) ∧
    outlineTurn^[t.size] ("", [(0, t)]) = (t.outline, []) ∧
    ∀ n, ∀ p ∈ (outlineTurn^[n] ("", [(0, t)])).2, p.1 ≤ 5 * t.depth := by
  have hremaining (n : Nat) : (outlineTurn^[n] ("", [(0, t)])).remaining = t.size - n := by
    rw [remaining_iterate]
    rfl
  refine ⟨?_, hremaining, ?_, ?_⟩
  · rw [outline_eq_outlineFrom]
    exact outlineFrom_eq_join t 0
  · have hdone : (outlineTurn^[t.size] ("", [(0, t)])).2 = [] := by
      rw [← Progress.remaining_eq_zero_iff, hremaining, Nat.sub_self]
    have hwritten := outlineAfter_iterate t.size ("", [(0, t)])
    rw [hdone, outlineAfter] at hwritten
    exact Prod.ext hwritten hdone
  · intro n p hp
    have hstart : Within (indentWidth * t.depth) [(0, t)] := by simp [Within]
    have hwithin := within_iterate (s := ("", [(0, t)])) n hstart p hp
    exact Nat.le_trans (Nat.le_add_right _ _) hwithin

theorem outline_eq_join_preorder_wide :
    let call := node .call ⟨9, 9⟩ (leaf (.name "") ⟨9, 9⟩) (leaf (.number "-7") ⟨10, 12⟩) ⟨9, 12⟩
    let t := node (.arithmetic .mul) ⟨8, 9⟩ (leaf (.name "ünbound") ⟨0, 8⟩) call ⟨0, 12⟩
    t.outline = "*\nünbound\n    :\n          \n        -7\n" ∧
      (5, call) ∈ (outlineTurn^[2] ("", [(0, t)])).2 ∧ 5 ≤ 5 * t.depth := by
  intro call t
  obtain ⟨houtline, -, -, hwithin⟩ := outline_eq_join_preorder t
  have hpending : (5, call) ∈ (outlineTurn^[2] ("", [(0, t)])).2 := List.mem_cons_self
  exact ⟨houtline.trans (by decide +kernel), hpending, hwithin 2 _ hpending⟩

end Formula.Tree
