import Formula.Proofs.Balance
import Formula.Proofs.Prefixes

/-!
Entries in postfix order, counted: an operand adds one tree, an operator makes one of two. The count
decides what comes of them.
-/

namespace Formula.Tree

variable {items before after : List Item} {op : Operator} {sign : Span} {trees : List Tree}

def Item.SuppliedBy (before : List Item) : Item → Prop
  | operand _ _ => True
  | operator _ _ => 2 ≤ balance before

def Supplied : List Item → Prop := Throughout Item.SuppliedBy

theorem exists_stack_of_supplied (h : Supplied items) : ∃ trees, reduceOnto [] items = .ok trees := by
  induction items using List.reverseRecOn with
  | nil => exact ⟨[], rfl⟩
  | append_singleton items i ih =>
    obtain ⟨hitems, hi⟩ := throughout_append_singleton.mp h
    obtain ⟨trees, htrees⟩ := ih hitems
    rw [reduceOnto_append, htrees]
    cases i with
    | operand l span => exact ⟨leaf l span :: trees, rfl⟩
    | operator op sign =>
      have hlen := length_of_reduceOnto htrees
      have htwo : 2 ≤ balance items := hi
      rcases trees with _ | ⟨right, _ | ⟨left, trees⟩⟩
      · simp only [List.length_nil] at hlen
        omega
      · simp only [List.length_nil, List.length_singleton] at hlen
        omega
      · exact ⟨join op sign left right :: trees, rfl⟩

theorem ofItems_of_first_short (hb : Supplied before) (hshort : balance before < 2) :
    ofItems (before ++ .operator op sign :: after) = .error (.missingOperand op sign) := by
  obtain ⟨trees, htrees⟩ := exists_stack_of_supplied hb
  have hlen := length_of_reduceOnto htrees
  have hfew : ∀ right left below, trees = right :: left :: below → False := by
    rintro right left below rfl
    simp only [List.length_cons, List.length_nil] at hlen
    omega
  rw [ofItems, reduceOnto_append, htrees]
  change reduceOnto trees (.operator op sign :: after) >>= only = _
  rw [reduceOnto_of_short hfew]
  rfl

/-- The trees that entries come to, from left to right, with the spans of a reduction. -/
structure Remaining (items : List Item) (trees : List Tree) : Prop where
  listed : trees.flatMap toItems = items
  rejoin : ∀ t ∈ trees, t.rejoin = t
  length : (trees.length : Int) = balance items

theorem remaining_of_reduceOnto (h : reduceOnto [] items = .ok trees) :
    Remaining items trees.reverse where
  listed := stackItems_of_reduceOnto h
  rejoin t ht := by
    have hrejoin : ∀ t ∈ trees, t.rejoin = t := by
      apply forall_mem_of_reduceOnto (P := fun t => t.rejoin = t) h
      · intro l span _
        rfl
      · intro op sign left right _ hleft hright
        rw [join, rejoin, hleft, hright]
        rfl
      · simp
    exact hrejoin t (List.mem_reverse.mp ht)
  length := by simpa using length_of_reduceOnto h

theorem supplied_or_exists_first_short (items : List Item) : Supplied items ∨
    ∃ before op sign after, items = before ++ .operator op sign :: after ∧ Supplied before ∧
      balance before < 2 := by
  apply (throughout_or_exists_first Item.SuppliedBy items).imp_right
  rintro ⟨before, i, after, hitems, hb, hi⟩
  cases i with
  | operand l span => exact absurd trivial hi
  | operator op sign => exact ⟨before, op, sign, after, hitems, hb, Int.not_le.mp hi⟩

theorem Supplied.cases (h : Supplied items) :
    (items = [] ∧ ofItems items = .error .emptyExpression) ∨
    (balance items = 1 ∧ ∃ t, ofItems items = .ok t) ∨
    (2 ≤ balance items ∧ ∃ first second others, Remaining items (first :: second :: others) ∧
      ofItems items = .error (.unexpectedOperand second.span)) := by
  obtain ⟨trees, htrees⟩ := exists_stack_of_supplied h
  have hremaining := remaining_of_reduceOnto htrees
  have hlen := hremaining.length
  have hof : ofItems items = only trees := by
    rw [ofItems, htrees]
    rfl
  rw [hof, only]
  generalize trees.reverse = remaining at hremaining hlen ⊢
  rcases remaining with _ | ⟨first, _ | ⟨second, others⟩⟩
  · exact .inl ⟨hremaining.listed.symm, rfl⟩
  · exact .inr (.inl ⟨hlen.symm, first, rfl⟩)
  · simp only [List.length_cons] at hlen
    exact .inr (.inr ⟨by omega, first, second, others, hremaining, rfl⟩)

structure DecidedByHeight (items : List Item) : Prop where
  missing_iff : ∀ op sign, ofItems items = .error (.missingOperand op sign) ↔
    ∃ before after, items = before ++ .operator op sign :: after ∧ Supplied before ∧
      balance before < 2
  empty_iff : Supplied items → (ofItems items = .error .emptyExpression ↔ items = [])
  tree_iff : Supplied items → ((∃ t, ofItems items = .ok t) ↔ balance items = 1)
  unexpected_iff : Supplied items →
    ((∃ span, ofItems items = .error (.unexpectedOperand span)) ↔ 2 ≤ balance items)
  /-- Of the trees that are left the second from the left is the one too many. -/
  second : ∀ span, ofItems items = .error (.unexpectedOperand span) →
    ∃ first second others, Remaining items (first :: second :: others) ∧ span = second.span
  tree : ∀ t : Tree, ofItems items = .ok t → t.toItems = items
  listed : ∀ t : Tree, t.toItems = items → ofItems items = .ok t.rejoin

/-- Whether entries make a tree, and what is wrong with those that make none, is in the numbers of
operands and operators before each place. -/
theorem decidedByHeight (items : List Item) : DecidedByHeight items where
  missing_iff op sign := by
    constructor
    · intro h
      rcases supplied_or_exists_first_short items with hs | ⟨before, op', sign', after, rfl, hb, hshort⟩
      · rcases hs.cases with ⟨-, he⟩ | ⟨-, t, ht⟩ | ⟨-, _, _, _, -, he⟩
        · cases h.symm.trans he
        · cases h.symm.trans ht
        · cases h.symm.trans he
      · cases h.symm.trans (ofItems_of_first_short hb hshort)
        exact ⟨before, after, rfl, hb, hshort⟩
    · rintro ⟨before, after, rfl, hb, hshort⟩
      exact ofItems_of_first_short hb hshort
  empty_iff hs := by
    constructor
    · intro h
      rcases hs.cases with ⟨hempty, -⟩ | ⟨-, t, ht⟩ | ⟨-, _, _, _, -, he⟩
      · exact hempty
      · cases h.symm.trans ht
      · cases h.symm.trans he
    · rintro rfl
      rfl
  tree_iff hs := by
    rcases hs.cases with ⟨rfl, he⟩ | ⟨hone, t, ht⟩ | ⟨htwo, _, _, _, -, he⟩
    · simp [he, balance]
    · simp [ht, hone]
    · simp only [he, reduceCtorEq, exists_false, false_iff]
      omega
  unexpected_iff hs := by
    rcases hs.cases with ⟨rfl, he⟩ | ⟨hone, t, ht⟩ | ⟨htwo, _, _, _, -, he⟩
    · simp [he, balance]
    · simp [ht, hone]
    · simp [he, htwo]
  second span h := by
    rcases supplied_or_exists_first_short items with hs | ⟨before, op, sign, after, rfl, hb, hshort⟩
    · rcases hs.cases with ⟨-, he⟩ | ⟨-, t, ht⟩ | ⟨-, first, second, others, hremaining, he⟩
      · cases h.symm.trans he
      · cases h.symm.trans ht
      · cases h.symm.trans he
        exact ⟨first, second, others, hremaining, rfl⟩
    · cases h.symm.trans (ofItems_of_first_short hb hshort)
  tree t h := toItems_of_ofItems h
  listed t h := h ▸ ofItems_toItems t

end Formula.Tree
