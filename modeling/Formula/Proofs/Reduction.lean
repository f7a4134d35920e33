import Formula.Proofs.Faults
import Formula.Tree.Reduction

namespace Formula.Tree

def toItems : Tree → List Item
  | leaf l span => [.operand l span]
  | node op sign left right _ => left.toItems ++ right.toItems ++ [.operator op sign]

def rejoin : Tree → Tree
  | leaf l span => leaf l span
  | node op sign left right _ => join op sign left.rejoin right.rejoin

theorem reduceOnto_toItems (t : Tree) (trees : List Tree) (items : List Item) :
    reduceOnto trees (t.toItems ++ items) = reduceOnto (t.rejoin :: trees) items := by
  induction t generalizing trees items with
  | leaf l span => rfl
  | node op sign left right span ihl ihr =>
    rw [toItems, List.append_assoc, List.append_assoc, ihl, ihr]
    rfl

theorem ofItems_toItems (t : Tree) : ofItems t.toItems = .ok t.rejoin := by
  have h := reduceOnto_toItems t [] []
  rw [List.append_nil] at h
  rw [ofItems, h]
  rfl

theorem reduceOnto_of_short {trees : List Tree}
    (h : ∀ right left below, trees = right :: left :: below → False) (op : Operator) (sign : Span)
    (items : List Item) :
    reduceOnto trees (.operator op sign :: items) = .error (.missingOperand op sign) := by
  rcases trees with _ | ⟨right, _ | ⟨left, trees⟩⟩
  · rfl
  · rfl
  · exact absurd rfl (h right left trees)

theorem missingOperand_of_reduceOnto {trees : List Tree} {items : List Item} {e : ParseError}
    (h : reduceOnto trees items = .error e) :
    ∃ op sign, e = .missingOperand op sign ∧ .operator op sign ∈ items := by
  induction trees, items using reduceOnto.induct with
  | case1 trees => cases h
  | case2 trees l span items ih =>
    obtain ⟨op, sign, he, hmem⟩ := ih h
    exact ⟨op, sign, he, List.mem_cons_of_mem _ hmem⟩
  | case3 right left trees op sign items ih =>
    obtain ⟨op, sign, he, hmem⟩ := ih h
    exact ⟨op, sign, he, List.mem_cons_of_mem _ hmem⟩
  | case4 trees op sign items hshort =>
    rw [reduceOnto_of_short hshort] at h
    exact ⟨op, sign, (Except.error.inj h).symm, List.mem_cons_self⟩

def stackItems (trees : List Tree) : List Item := trees.reverse.flatMap toItems

theorem stackItems_cons (t : Tree) (trees : List Tree) :
    stackItems (t :: trees) = stackItems trees ++ t.toItems := by
  simp [stackItems]

theorem stackItems_of_reduceOnto {trees result : List Tree} {items : List Item}
    (h : reduceOnto trees items = .ok result) : stackItems result = stackItems trees ++ items := by
  induction trees, items using reduceOnto.induct with
  | case1 trees =>
    obtain rfl := Except.ok.inj h
    exact (List.append_nil _).symm
  | case2 trees l span items ih =>
    rw [ih h, stackItems_cons, List.append_assoc]
    rfl
  | case3 right left trees op sign items ih =>
    rw [ih h, stackItems_cons, stackItems_cons, stackItems_cons]
    simp [join, toItems]
  | case4 trees op sign items hshort =>
    rw [reduceOnto_of_short hshort] at h
    cases h

theorem forall_mem_of_reduceOnto {trees result : List Tree} {items : List Item}
    {P : Tree → Prop} (h : reduceOnto trees items = .ok result)
    (hleaf : ∀ l span, .operand l span ∈ items → P (leaf l span))
    (hjoin : ∀ op sign left right, .operator op sign ∈ items → P left → P right →
      P (join op sign left right))
    (htrees : ∀ t ∈ trees, P t) : ∀ t ∈ result, P t := by
  induction trees, items using reduceOnto.induct with
  | case1 trees =>
    obtain rfl := Except.ok.inj h
    exact htrees
  | case2 trees l span items ih =>
    apply ih h
    · exact fun l span hmem => hleaf l span (List.mem_cons_of_mem _ hmem)
    · exact fun op sign left right hmem => hjoin op sign left right (List.mem_cons_of_mem _ hmem)
    · exact List.forall_mem_cons.mpr ⟨hleaf l span List.mem_cons_self, htrees⟩
  | case3 right left trees op sign items ih =>
    obtain ⟨hright, hrest⟩ := List.forall_mem_cons.mp htrees
    obtain ⟨hleft, hbelow⟩ := List.forall_mem_cons.mp hrest
    apply ih h
    · exact fun l span hmem => hleaf l span (List.mem_cons_of_mem _ hmem)
    · exact fun op sign left right hmem => hjoin op sign left right (List.mem_cons_of_mem _ hmem)
    · have hnode := hjoin op sign left right List.mem_cons_self hleft hright
      exact List.forall_mem_cons.mpr ⟨hnode, hbelow⟩
  | case4 trees op sign items hshort =>
    rw [reduceOnto_of_short hshort] at h
    cases h

theorem eq_of_only {trees : List Tree} {t : Tree} (h : only trees = .ok t) : trees = [t] := by
  unfold only at h
  split at h
  · cases h
  · next heq =>
    obtain rfl := Except.ok.inj h
    exact List.reverse_eq_iff.mp heq
  · cases h

theorem toItems_of_ofItems {items : List Item} {t : Tree} (h : ofItems items = .ok t) :
    t.toItems = items := by
  obtain ⟨trees, hr, ho⟩ := bind_eq_ok.mp h
  obtain rfl := eq_of_only ho
  simpa [stackItems] using stackItems_of_reduceOnto hr

theorem rejoin_of_ofItems {items : List Item} {t : Tree} (h : ofItems items = .ok t) :
    t.rejoin = t := by
  have hitems := ofItems_toItems t
  rw [toItems_of_ofItems h, h] at hitems
  exact (Except.ok.inj hitems).symm

def subtrees : Tree → List Tree
  | leaf l span => [leaf l span]
  | node op sign left right span =>
    node op sign left right span :: (left.subtrees ++ right.subtrees)

theorem of_mem_subtrees {P : Tree → Prop} {t s : Tree}
    (hP : ∀ op sign left right span, P (node op sign left right span) → P left ∧ P right) (h : P t)
    (hs : s ∈ t.subtrees) : P s := by
  induction t with
  | leaf l span =>
    obtain rfl := List.mem_singleton.mp hs
    exact h
  | node op sign left right span ihl ihr =>
    obtain ⟨hleft, hright⟩ := hP op sign left right span h
    rcases List.mem_cons.mp hs with rfl | hs
    · exact h
    · rcases List.mem_append.mp hs with hs | hs
      · exact ihl hleft hs
      · exact ihr hright hs

theorem mem_toItems_of_mem_subtrees {t s : Tree} (hs : s ∈ t.subtrees) :
    ∀ i ∈ s.toItems, i ∈ t.toItems := by
  refine of_mem_subtrees (P := fun s => ∀ i ∈ s.toItems, i ∈ t.toItems) ?_ (fun i hi => hi) hs
  intro op sign left right span h
  exact ⟨fun i hi => h i (by simp [toItems, hi]), fun i hi => h i (by simp [toItems, hi])⟩

end Formula.Tree
