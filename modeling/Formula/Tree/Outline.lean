import Formula.Tree

namespace Formula.Tree

def indentWidth : Nat := 5

/-- A text that ends at column `width`, or where it has to. -/
def line (width : Nat) (text : String) : String :=
  String.ofList (List.replicate (width - text.length) ' ') ++ text ++ "\n"

def outlineFrom (width : Nat) : Tree → String
  | leaf l _ => line width l.text
  | node op _ left right _ =>
    line width (toString op) ++ left.outlineFrom (width + indentWidth) ++
      right.outlineFrom (width + indentWidth)

def outlineAfter : String → List (Nat × Tree) → String
  | written, [] => written
  | written, (width, leaf l _) :: trees => outlineAfter (written ++ line width l.text) trees
  | written, (width, node op _ left right _) :: trees =>
    outlineAfter (written ++ line width (toString op))
      ((width + indentWidth, left) :: (width + indentWidth, right) :: trees)
termination_by _ trees => sizes (trees.map Prod.snd)
decreasing_by all_goals simp only [List.map_cons, sizes, size]; omega

def outline (t : Tree) : String := outlineAfter "" [(0, t)]

theorem outlineAfter_cons (written : String) (width : Nat) (t : Tree) (trees : List (Nat × Tree)) :
    outlineAfter written ((width, t) :: trees) =
      outlineAfter (written ++ t.outlineFrom width) trees := by
  induction t generalizing written width trees with
  | leaf l span => rw [outlineAfter, outlineFrom]
  | node op sign left right span ihl ihr =>
    rw [outlineAfter, ihl, ihr, outlineFrom, String.append_assoc, String.append_assoc,
      String.append_assoc]

theorem outline_eq_outlineFrom (t : Tree) : t.outline = t.outlineFrom 0 := by
  rw [outline, outlineAfter_cons, outlineAfter, String.empty_append]

end Formula.Tree
