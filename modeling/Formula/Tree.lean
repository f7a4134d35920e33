import Formula.Token

namespace Formula

inductive Tree where
  | leaf (leaf : Leaf) (span : Span)
  /-- An operator over its operands: `sign` is the span of the operator, `span` that of the whole. -/
  | node (op : Operator) (sign : Span) (left right : Tree) (span : Span)

namespace Tree

inductive Root where
  | leaf (leaf : Leaf) (span : Span)
  | operator (op : Operator) (sign span : Span)
deriving DecidableEq

def span : Tree → Span
  | leaf _ span | node _ _ _ _ span => span

def size : Tree → Nat
  | leaf _ _ => 1
  | node _ _ left right _ => left.size + right.size + 1

theorem size_pos (t : Tree) : 0 < t.size := by
  cases t <;> simp [size]

def sizes : List Tree → Nat
  | [] => 0
  | t :: trees => t.size + sizes trees

def postorder : Tree → List Root
  | leaf l span => [.leaf l span]
  | node op sign left right span => left.postorder ++ right.postorder ++ [.operator op sign span]

/-- Lists trees in front of `listed`, the tree at the head of the list next to it. -/
def listBefore : List Tree → List Root → List Root
  | [], listed => listed
  | leaf l span :: trees, listed => listBefore trees (.leaf l span :: listed)
  | node op sign left right span :: trees, listed =>
    listBefore (right :: left :: trees) (.operator op sign span :: listed)
termination_by trees => sizes trees
decreasing_by all_goals simp only [sizes, size]; omega

def roots (t : Tree) : List Root := listBefore [t] []

theorem listBefore_cons (t : Tree) (trees : List Tree) (listed : List Root) :
    listBefore (t :: trees) listed = listBefore trees (t.postorder ++ listed) := by
  induction t generalizing trees listed with
  | leaf l span => rw [listBefore]; rfl
  | node op sign left right span ihl ihr =>
    rw [listBefore, ihr, ihl]
    simp [postorder]

theorem roots_eq_postorder (t : Tree) : t.roots = t.postorder := by
  rw [roots, listBefore_cons, listBefore, List.append_nil]

/-- Reads a postorder listing, given the trees already read, last one first. -/
def ofRootsAfter : List Tree → List Root → Option Tree
  | [t], [] => some t
  | _, [] => none
  | trees, .leaf l span :: roots => ofRootsAfter (leaf l span :: trees) roots
  | right :: left :: trees, .operator op sign span :: roots =>
    ofRootsAfter (node op sign left right span :: trees) roots
  | _, .operator _ _ _ :: _ => none

def ofRoots? : List Root → Option Tree := ofRootsAfter []

theorem ofRootsAfter_postorder (t : Tree) (trees : List Tree) (roots : List Root) :
    ofRootsAfter trees (t.postorder ++ roots) = ofRootsAfter (t :: trees) roots := by
  induction t generalizing trees roots with
  | leaf l span => simp [postorder, ofRootsAfter]
  | node op sign left right span ihl ihr =>
    simp [postorder, ihl, ihr, ofRootsAfter]

theorem ofRoots?_roots (t : Tree) : ofRoots? t.roots = some t := by
  have h := ofRootsAfter_postorder t [] []
  rw [List.append_nil] at h
  rw [roots_eq_postorder, ofRoots?, h, ofRootsAfter]

theorem roots_injective {s t : Tree} (h : s.roots = t.roots) : s = t := by
  rw [← Option.some.injEq, ← ofRoots?_roots s, h, ofRoots?_roots]

instance : DecidableEq Tree := fun s t =>
  decidable_of_iff (s.roots = t.roots) ⟨roots_injective, congrArg roots⟩

end Tree

end Formula
