import Formula.Proofs.Descent
import Formula.Proofs.Labels
import Formula.Proofs.Nesting

/-!
How far the nodes of a tree reach in its text. An operand is placed where it is read, so that all
entries before it stand further left; an operator may stand anywhere left of where it is placed. A
node therefore reaches around its operator and its left operand, but an operator inside the right
operand may stand left of both.
-/

namespace Formula

open Formula.Tree
open Token.Kind

def Span.Within (inner outer : Span) : Prop :=
  outer.start ≤ inner.start ∧ inner.stop ≤ outer.stop

theorem Span.Within.trans {a b c : Span} (h : a.Within b) (h' : b.Within c) : a.Within c :=
  ⟨h'.1.trans h.1, h.2.trans h'.2⟩

namespace Tree

namespace Item

def Precedes (i : Item) : Item → Prop
  | operand _ span => i.span.stop ≤ span.start
  | operator _ _ => True

theorem ComesFrom.exists_token {tokens : List Token} {i : Item} (h : i.ComesFrom tokens) :
    ∃ t ∈ tokens, t.span = i.span := by
  cases i with
  | operand l span =>
    obtain ⟨t, ht, hleaf⟩ := h
    exact ⟨t, ht, (Token.text_of_leaf? hleaf).2⟩
  | operator op sign =>
    rcases h with ⟨t, ht, hop⟩ | hcall
    · exact ⟨t, ht, (Token.text_of_operator? hop).2⟩
    · obtain ⟨-, before, f, t, after, text, rfl, -, -, hf⟩ := mem_calls hcall
      exact ⟨f, by simp, hf⟩

end Item

def Forward (items : List Item) : Prop := items.Pairwise Item.Precedes

namespace Yard

variable {tokens : List Token} {items placed : List Item} {y : Yard}

theorem forward_flush (h : Forward placed.reverse) (ops : List (Operator × Span)) :
    Forward (flush ops placed).reverse := by
  rw [flush, List.reverse_append, List.reverse_reverse]
  refine List.pairwise_append.mpr ⟨h, ?_, ?_⟩
  · exact List.pairwise_map.mpr (List.pairwise_of_forall fun _ _ => trivial)
  · intro i _ j hj
    obtain ⟨o, -, rfl⟩ := List.mem_map.mp hj
    trivial

theorem forward_of_run (hrun : tokens.foldlM push .empty = .ok y)
    (ho : tokens.Pairwise fun s t => s.span.stop ≤ t.span.start) : Forward y.placed.reverse := by
  refine run_induction (motive := fun tokens y => (tokens.Pairwise fun s t =>
    s.span.stop ≤ t.span.start) → Forward y.placed.reverse) (fun _ => .nil) ?_ hrun ho
  intro before y t z hbefore ih hstep ho
  obtain ⟨ho, -, hlast⟩ := List.pairwise_append.mp ho
  have hforward := ih ho
  cases hstep with
  | operand ht =>
    -- An operand is placed at once, behind entries that all come from earlier tokens.
    change Forward (_ :: y.placed).reverse
    rw [List.reverse_cons]
    refine List.pairwise_append.mpr ⟨hforward, List.pairwise_singleton _ _, ?_⟩
    intro i hi j hj
    obtain rfl := List.mem_singleton.mp hj
    obtain ⟨s, hs, hspan⟩ := (comesFrom_of_run hbefore i (List.mem_reverse.mp hi)).exists_token
    have hle := hlast s hs t List.mem_cons_self
    rwa [hspan] at hle
  | @operator op ops => exact forward_flush hforward ops
  | call => exact hforward
  | opening => exact hforward
  | @closing ops => exact forward_flush hforward ops

theorem forward_of_items (hrun : tokens.foldlM push .empty = .ok y) (hitems : y.items = .ok items)
    (ho : tokens.Pairwise fun s t => s.span.stop ≤ t.span.start) : Forward items := by
  obtain ⟨ops, -, rfl⟩ := exists_waiting_of_drain hitems
  exact forward_flush (forward_of_run hrun ho) ops

end Yard

def SpansNest (t : Tree) : Prop :=
  ∀ op sign left right span, node op sign left right span ∈ t.subtrees →
    sign.Within span ∧ left.span.Within span ∧ right.span.Within span

theorem mem_operators_iff {t : Tree} {op : Operator} {sign : Span} :
    (op, sign) ∈ t.operators ↔ .operator op sign ∈ t.toItems := by
  rw [← filterMap_operator?_toItems, Multiset.mem_coe, List.mem_filterMap]
  constructor
  · rintro ⟨i, hi, ho⟩
    cases i with
    | operand l span => cases ho
    | operator op' sign' =>
      obtain ⟨rfl, rfl⟩ := Prod.mk.inj (Option.some.inj ho)
      exact hi
  · intro ho
    exact ⟨_, ho, rfl⟩

structure Laid (t : Tree) : Prop where
  rejoined : t.rejoin = t
  forward : Forward t.toItems
  lt : ∀ i ∈ t.toItems, i.span.start < i.span.stop

variable {t s : Tree} {op : Operator} {sign span : Span}

namespace Laid

variable {left right : Tree}

theorem of_ofString {source : String} (h : Tree.ofString source = .ok t) : t.Laid := by
  have hsplit := Reader.splits_ofString source
  obtain ⟨-, y, items, hrun, hitems, hreduce⟩ := ofString_eq_ok_iff.mp h
  refine ⟨rejoin_of_ofItems hreduce, ?_, ?_⟩
  · rw [toItems_of_ofItems hreduce]
    exact Yard.forward_of_items hrun hitems hsplit.ordered
  · intro i hi
    exact ((comesFrom_of_ofString h i hi).sound hsplit).lt

theorem span_eq (h : (node op sign left right span).Laid) :
    span = ⟨min left.span.start sign.start, max right.span.stop sign.stop⟩ := by
  have hj := h.rejoined
  rw [rejoin, join] at hj
  obtain ⟨-, -, hl, hr, hspan⟩ := Tree.node.inj hj
  rw [← hspan, hl, hr]

theorem operands (h : (node op sign left right span).Laid) : left.Laid ∧ right.Laid ∧
    ∀ i ∈ left.toItems, ∀ j ∈ right.toItems, i.Precedes j := by
  obtain ⟨hj, hf, hlt⟩ := h
  obtain ⟨-, -, hl, hr, -⟩ := Tree.node.inj hj
  rw [toItems, List.append_assoc] at hf hlt
  obtain ⟨hleft, hrest, hacross⟩ := List.pairwise_append.mp hf
  have hright := (List.pairwise_append.mp hrest).1
  refine ⟨⟨hl, hleft, ?_⟩, ⟨hr, hright, ?_⟩, ?_⟩
  · exact fun i hi => hlt i (List.mem_append_left _ hi)
  · exact fun i hi => hlt i (List.mem_append_right _ (List.mem_append_left _ hi))
  · exact fun i hi j hj => hacross i hi j (List.mem_append_left _ hj)

theorem subtree (h : t.Laid) (hs : s ∈ t.subtrees) : s.Laid :=
  of_mem_subtrees (fun _ _ _ _ _ h => ⟨h.operands.1, h.operands.2.1⟩) h hs

theorem exists_start (h : t.Laid) : ∃ i ∈ t.toItems, i.span.start = t.span.start := by
  induction t with
  | leaf l span => exact ⟨.operand l span, List.mem_singleton_self _, rfl⟩
  | node op sign left right span ihl ihr =>
    rw [toItems, h.span_eq]
    rcases Nat.le_total left.span.start sign.start with hle | hle
    · obtain ⟨i, hi, hstart⟩ := ihl h.operands.1
      exact ⟨i, by simp [hi], hstart.trans (Nat.min_eq_left hle).symm⟩
    · exact ⟨.operator op sign, by simp, (Nat.min_eq_right hle).symm⟩

theorem exists_stop (h : t.Laid) : ∃ i ∈ t.toItems, i.span.stop = t.span.stop := by
  induction t with
  | leaf l span => exact ⟨.operand l span, List.mem_singleton_self _, rfl⟩
  | node op sign left right span ihl ihr =>
    rw [toItems, h.span_eq]
    rcases Nat.le_total sign.stop right.span.stop with hle | hle
    · obtain ⟨i, hi, hstop⟩ := ihr h.operands.2.1
      exact ⟨i, by simp [hi], hstop.trans (Nat.max_eq_left hle).symm⟩
    · exact ⟨.operator op sign, by simp, (Nat.max_eq_right hle).symm⟩

theorem exists_last (h : t.Laid) :
    ∃ l span, .operand l span ∈ t.toItems ∧ span.start < t.span.stop := by
  induction t with
  | leaf l span => exact ⟨l, span, List.mem_singleton_self _, h.lt _ (List.mem_singleton_self _)⟩
  | node op sign left right span ihl ihr =>
    obtain ⟨l, s, hs, hlt⟩ := ihr h.operands.2.1
    rw [h.span_eq]
    exact ⟨l, s, by simp [toItems, hs], Nat.lt_of_lt_of_le hlt (Nat.le_max_left _ _)⟩

theorem reaches (h : (node op sign left right span).Laid) :
    sign.Within span ∧ left.span.Within span ∧ right.span.stop ≤ span.stop := by
  obtain ⟨hleft, hright, hacross⟩ := h.operands
  obtain ⟨i, hi, hstop⟩ := hleft.exists_stop
  obtain ⟨l, s, hs, hlt⟩ := hright.exists_last
  -- Whatever ends the left operand, be it an operator, was read before the last leaf of the right.
  have hle : i.span.stop ≤ s.start := hacross i hi _ hs
  have hstop' : left.span.stop ≤ right.span.stop := by omega
  rw [h.span_eq]
  refine ⟨⟨Nat.min_le_right _ _, Nat.le_max_right _ _⟩, ⟨Nat.min_le_left _ _, ?_⟩, Nat.le_max_left _ _⟩
  exact hstop'.trans (Nat.le_max_left _ _)

theorem within_of_le (h : (node op sign left right span).Laid)
    (ho : ∀ o ∈ right.operators, left.span.start ≤ o.2.start ∨ sign.start ≤ o.2.start) :
    right.span.Within span := by
  obtain ⟨hleft, hright, hacross⟩ := h.operands
  obtain ⟨i, hi, hstart⟩ := hleft.exists_start
  obtain ⟨j, hj, hstart'⟩ := hright.exists_start
  have hle : left.span.start ≤ right.span.start ∨ sign.start ≤ right.span.start := by
    rw [← hstart']
    cases j with
    | operand l s =>
      have hlt := hleft.lt i hi
      have hstop : i.span.stop ≤ s.start := hacross i hi _ hj
      left
      change left.span.start ≤ s.start
      omega
    | operator op s =>
      exact ho _ (mem_operators_iff.mpr hj)
  have hstop := h.reaches.2.2
  rw [h.span_eq] at hstop ⊢
  exact ⟨min_le_iff.mpr hle, hstop⟩

end Laid

theorem SpansNest.operands {left right : Tree} (h : (node op sign left right span).SpansNest) :
    left.SpansNest ∧ right.SpansNest :=
  ⟨fun op' sign' l r span' hs => h op' sign' l r span' (by simp [subtrees, hs]),
    fun op' sign' l r span' hs => h op' sign' l r span' (by simp [subtrees, hs])⟩

theorem SpansNest.subtree (h : t.SpansNest) (hs : s ∈ t.subtrees) : s.SpansNest :=
  of_mem_subtrees (fun _ _ _ _ _ h => h.operands) h hs

theorem SpansNest.within (h : t.SpansNest) : ∀ i ∈ t.toItems, i.span.Within t.span := by
  induction t with
  | leaf l span =>
    intro i hi
    obtain rfl := List.mem_singleton.mp hi
    exact ⟨Nat.le_refl _, Nat.le_refl _⟩
  | node op sign left right span ihl ihr =>
    obtain ⟨hsign, hleft, hright⟩ := h op sign left right span List.mem_cons_self
    intro i hi
    rcases List.mem_append.mp hi with hi | hi
    · rcases List.mem_append.mp hi with hi | hi
      · exact (ihl h.operands.1 i hi).trans hleft
      · exact (ihr h.operands.2 i hi).trans hright
    · obtain rfl := List.mem_singleton.mp hi
      exact hsign

theorem Laid.spansNest_iff (h : t.Laid) : t.SpansNest ↔
    ∀ op sign left right span, node op sign left right span ∈ t.subtrees →
      ∀ o ∈ right.operators, left.span.start ≤ o.2.start ∨ sign.start ≤ o.2.start := by
  constructor
  · intro hnest op sign left right span hs o ho
    have hright := (hnest.subtree hs).operands.2
    have hstart := (hnest op sign left right span hs).2.2.1
    rw [(h.subtree hs).span_eq] at hstart
    have hle := (hright.within _ (mem_operators_iff.mp ho)).1
    exact min_le_iff.mp (hstart.trans hle)
  · intro ho op sign left right span hs
    have hnode := h.subtree hs
    obtain ⟨hsign, hleft, -⟩ := hnode.reaches
    exact ⟨hsign, hleft, hnode.within_of_le (ho op sign left right span hs)⟩

end Tree

namespace Derives

variable {n : Nat} {tokens : List Token} {tree s : Tree}

theorem exists_part (h : Derives n tokens tree) (hs : s ∈ tree.subtrees) :
    ∃ m part, Derives m part s ∧ part <:+: tokens := by
  induction h with
  | @operation n a b t op left right hl ht hr ihl ihr =>
    rcases List.mem_cons.mp hs with rfl | hs
    · exact ⟨_, _, .operation hl ht hr, List.infix_rfl⟩
    · rcases List.mem_append.mp hs with hs | hs
      · obtain ⟨m, part, hpart, hinfix⟩ := ihl hs
        exact ⟨m, part, hpart, hinfix.trans ⟨[], t :: b, rfl⟩⟩
      · obtain ⟨m, part, hpart, hinfix⟩ := ihr hs
        exact ⟨m, part, hpart, hinfix.trans ⟨a ++ [t], [], by simp⟩⟩
  | tighter h ih => exact ih hs
  | number ht =>
    obtain rfl := List.mem_singleton.mp hs
    exact ⟨_, _, .number ht, List.infix_rfl⟩
  | name ht =>
    obtain rfl := List.mem_singleton.mp hs
    exact ⟨_, _, .name ht, List.infix_rfl⟩
  | @call f o c text a tree hf ho h hc ih =>
    rcases List.mem_cons.mp hs with rfl | hs
    · exact ⟨_, _, .call hf ho h hc, List.infix_rfl⟩
    · rcases List.mem_append.mp hs with hs | hs
      · obtain rfl := List.mem_singleton.mp hs
        exact ⟨_, _, .name hf, ⟨[], o :: (a ++ [c]), rfl⟩⟩
      · obtain ⟨m, part, hpart, hinfix⟩ := ih hs
        exact ⟨m, part, hpart, hinfix.trans ⟨[f, o], [c], by simp⟩⟩
  | @group o c a tree ho h hc ih =>
    obtain ⟨m, part, hpart, hinfix⟩ := ih hs
    exact ⟨m, part, hpart, hinfix.trans ⟨[o], [c], rfl⟩⟩

theorem start_le_start (h : Derives n tokens tree)
    (ho : tokens.Pairwise fun s t => s.span.start ≤ t.span.start) {op : Operator} {sign span : Span}
    {left right : Tree} (htree : tree = node op sign left right span) :
    left.span.start ≤ right.span.start := by
  induction h with
  | @operation n a b t op left right hl ht hr ihl ihr =>
    obtain ⟨-, -, rfl, rfl, -⟩ := Tree.node.inj htree
    obtain ⟨first, hf, hfs⟩ := hl.exists_first
    obtain ⟨second, hs, hss⟩ := hr.exists_first
    rw [hl.span_eq, hr.span_eq, ← hfs, ← hss]
    exact (List.pairwise_append.mp ho).2.2 first hf second (List.mem_cons_of_mem _ hs)
  | tighter h ih => exact ih ho htree
  | number ht => cases htree
  | name ht => cases htree
  | @call f o c text a tree hf hopen h hc ih =>
    obtain ⟨-, -, rfl, rfl, -⟩ := Tree.node.inj htree
    obtain ⟨second, hs, hss⟩ := h.exists_first
    rw [h.span_eq, ← hss]
    exact (List.pairwise_cons.mp ho).1 second (by simp [hs])
  | group hopen h hc ih =>
    exact ih (List.pairwise_append.mp (List.pairwise_cons.mp ho).2).1 htree

end Derives

namespace Tree

variable {source : String} {t : Tree}

theorem derives_of_isChain (h : Tree.ofString source = .ok t)
    (hj : (Reader.ofString source).tokens.1.IsChain fun s t => ¬ Juxtaposed s.kind t.kind) :
    Derives 0 (Reader.ofString source).tokens.1 t := by
  have hsplit := Reader.splits_ofString source
  obtain ⟨hnest, hwell⟩ := wellPlaced_of_ofString h
  obtain ⟨tree, hd⟩ := exists_derives_of_wellPlaced (hwell hj) hnest
  obtain rfl := eq_rejoin_of_derives h hd
  rwa [hd.rejoin_eq hsplit.nonempty hsplit.ordered]

theorem spansNest_of_isChain (h : Tree.ofString source = .ok t)
    (hj : (Reader.ofString source).tokens.1.IsChain fun s t => ¬ Juxtaposed s.kind t.kind) :
    t.SpansNest := by
  have hsplit := Reader.splits_ofString source
  have horder : (Reader.ofString source).tokens.1.Pairwise fun s t => s.span.start ≤ t.span.start :=
    hsplit.ordered.imp_of_mem fun hs _ hle => (hsplit.nonempty _ hs).le.trans hle
  intro op sign left right span hs
  obtain ⟨hsign, hleft, hstop⟩ := ((Laid.of_ofString h).subtree hs).reaches
  obtain ⟨n, part, hpart, hinfix⟩ := (derives_of_isChain h hj).exists_part hs
  have hle := hpart.start_le_start (horder.sublist hinfix.sublist) rfl
  exact ⟨hsign, hleft, hleft.1.trans hle, hstop⟩

/-- A node reaches around its operator and its left operand and to the end of its right one. It
reaches around the right one as well, in all of a tree, exactly if no operator in a right operand
stands left of both the left operand and the operator between; where no operand stands right behind
another one, none does. -/
theorem spansNest_iff_of_ofString (h : Tree.ofString source = .ok t) :
    (∀ op sign left right span, node op sign left right span ∈ t.subtrees →
      sign.Within span ∧ left.span.Within span ∧ right.span.stop ≤ span.stop) ∧
    (t.SpansNest ↔ ∀ op sign left right span, node op sign left right span ∈ t.subtrees →
      ∀ o ∈ right.operators, left.span.start ≤ o.2.start ∨ sign.start ≤ o.2.start) ∧
    (((Reader.ofString source).tokens.1.IsChain fun s t => ¬ Juxtaposed s.kind t.kind) →
      t.SpansNest) := by
  have hlaid := Laid.of_ofString h
  refine ⟨?_, hlaid.spansNest_iff, spansNest_of_isChain h⟩
  intro op sign left right span hs
  exact (hlaid.subtree hs).reaches

theorem spansNest_iff_of_ofString_power :
    let source := " cos(x)-2^pi"
    let t := node (.arithmetic .sub) ⟨7, 8⟩
      (node .call ⟨1, 4⟩ (leaf (.name "cos") ⟨1, 4⟩) (leaf (.name "x") ⟨5, 6⟩) ⟨1, 6⟩)
      (node (.arithmetic .pow) ⟨9, 10⟩ (leaf (.number "2") ⟨8, 9⟩) (leaf (.name "pi") ⟨10, 12⟩) ⟨8, 12⟩)
      ⟨1, 12⟩
    Tree.ofString source = .ok t ∧
      ((Reader.ofString source).tokens.1.IsChain fun s t => ¬ Juxtaposed s.kind t.kind) ∧
      t.SpansNest := by
  intro source t
  have h : Tree.ofString source = .ok t := by decide +kernel
  have hj : (Reader.ofString source).tokens.1.IsChain fun s t => ¬ Juxtaposed s.kind t.kind := by
    decide +kernel
  exact ⟨h, hj, (spansNest_iff_of_ofString h).2.2 hj⟩

theorem ofString_operator_ahead :
    let source := "*1 2 3-"
    let product := node (.arithmetic .mul) ⟨0, 1⟩ (leaf (.number "2") ⟨3, 4⟩)
      (leaf (.number "3") ⟨5, 6⟩) ⟨0, 6⟩
    let t := node (.arithmetic .sub) ⟨6, 7⟩ (leaf (.number "1") ⟨1, 2⟩) product ⟨1, 7⟩
    Tree.ofString source = .ok t ∧ ¬ t.SpansNest := by
  intro source product t
  refine ⟨by decide +kernel, fun h => ?_⟩
  have hright := (h (.arithmetic .sub) ⟨6, 7⟩ _ product ⟨1, 7⟩ List.mem_cons_self).2.2
  exact absurd hright.1 (by decide)

end Tree

end Formula
