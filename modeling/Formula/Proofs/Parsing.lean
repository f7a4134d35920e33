import Formula.Proofs.Grammar
import Formula.Proofs.Segmentation
import Formula.Proofs.Stream
import Formula.Proofs.Yard

namespace Formula

open Formula.Tree

namespace Tree.Yard

/-- Reading `tokens` adds `items` to those placed, apart from operators at their end that are still
on the stack, above what was there; these are of precedence `n` or tighter. -/
def Adds (n : Nat) (y : Yard) (tokens : List Token) (items : List Item) : Prop :=
  ∃ ops placed last, (∀ o ∈ ops, n ≤ o.1.precedence) ∧
    tokens.foldlM push y = .ok ⟨placed, waiting ops ++ y.pending, last⟩ ∧
    flush ops placed = items.reverse ++ y.placed

variable {n : Nat} {y : Yard} {t : Token} {a b : List Token} {items : List Item}

theorem Adds.tighter (h : Adds (n + 1) y a items) : Adds n y a items := by
  obtain ⟨ops, placed, last, hops, hrun, hflush⟩ := h
  exact ⟨ops, placed, last, fun o ho => Nat.le_of_succ_le (hops o ho), hrun, hflush⟩

theorem adds_operand {l : Leaf} (ht : t.role = .operand l) : Adds n y [t] [.operand l t.span] :=
  ⟨[], .operand l t.span :: y.placed, some t, by simp, foldlM_push_cons (push_operand ht y) [], rfl⟩

theorem Adds.operation {op : Operator} {left right : List Item} (hl : Adds n y a left)
    (hy : Loose n y.pending) (ht : t.role = .operator op) (hp : op.precedence = n)
    (hr : Adds (n + 1) ⟨left.reverse ++ y.placed, .operator op t.span :: y.pending, some t⟩ b right) :
    Adds n y (a ++ t :: b) (left ++ right ++ [.operator op t.span]) := by
  obtain ⟨ops, placed, last, hops, hrun, hflush⟩ := hl
  obtain ⟨ops', placed', last', hops', hrun', hflush'⟩ := hr
  -- The operators that the left operand left behind give way, those below it stay.
  have hunwind : unwind op.precedence (waiting ops ++ y.pending) placed =
      (y.pending, left.reverse ++ y.placed) := by
    rw [hp, unwind_waiting hops, hflush, unwind_of_loose hy]
  have hpush : push ⟨placed, waiting ops ++ y.pending, last⟩ t = .ok _ := push_operator ht hunwind
  refine ⟨ops' ++ [(op, t.span)], placed', last', ?_, ?_, ?_⟩
  · intro o ho
    rcases List.mem_append.mp ho with ho | ho
    · exact Nat.le_of_succ_le (hops' o ho)
    · obtain rfl := List.mem_singleton.mp ho
      exact hp.ge
  · rw [foldlM_push_append hrun, foldlM_push_cons hpush, hrun']
    simp [waiting]
  · rw [flush_append, hflush']
    simp [flush]

theorem Adds.closed {span : Span} {pending : List Pending} {c : Token} (h : Adds n y a items)
    (hy : y.pending = .paren span :: pending) (hc : c.role = .closing) :
    (a ++ [c]).foldlM push y = .ok ⟨items.reverse ++ y.placed, pending, some c⟩ := by
  obtain ⟨ops, placed, last, hops, hrun, hflush⟩ := h
  have hclose : close (waiting ops ++ y.pending) placed =
      some (pending, items.reverse ++ y.placed) := by
    rw [close_waiting, hflush, hy]
    rfl
  have hpush : push ⟨placed, waiting ops ++ y.pending, last⟩ c = .ok _ := push_closing hc hclose
  rw [foldlM_push_append hrun]
  exact foldlM_push_cons hpush []

theorem adds_group {o c : Token} (hy : y.Free) (ho : o.role = .opening) (hc : c.role = .closing)
    (h : Adds 0 ⟨y.placed, .paren o.span :: y.pending, some o⟩ a items) :
    Adds n y (o :: (a ++ [c])) items := by
  refine ⟨[], items.reverse ++ y.placed, some c, by simp, ?_, rfl⟩
  rw [foldlM_push_cons (push_opening ho hy)]
  exact h.closed rfl hc

theorem adds_call {f o c : Token} {text : String} (hn : n ≤ 4) (hf : f.kind = .identifier text)
    (ho : o.role = .opening) (hc : c.role = .closing)
    (h : Adds 0 ⟨.operand (.name text) f.span :: y.placed,
      .paren o.span :: .operator .call f.span :: y.pending, some o⟩ a items) :
    Adds n y (f :: o :: (a ++ [c]))
      (.operand (.name text) f.span :: (items ++ [.operator .call f.span])) := by
  have hrole : f.role = .operand (.name text) := by
    rw [Token.role, hf]
    rfl
  -- The closing parenthesis leaves the operator of the call on the stack.
  refine ⟨[(.call, f.span)], items.reverse ++ .operand (.name text) f.span :: y.placed, some c,
    ?_, ?_, ?_⟩
  · intro o ho
    obtain rfl := List.mem_singleton.mp ho
    exact hn
  · rw [foldlM_push_cons (push_operand hrole y), foldlM_push_cons (push_opening_of_name ho rfl hf)]
    exact h.closed rfl hc
  · simp [flush]

/-- Reading `tokens` adds `items` wherever an operand of level `n` may come next. -/
def Contributes (n : Nat) (tokens : List Token) (items : List Item) : Prop :=
  ∀ y : Yard, y.Free → Loose n y.pending → Adds n y tokens items

theorem Contributes.tighter (h : Contributes (n + 1) a items) : Contributes n a items :=
  fun y hf hl => (h y hf hl.succ).tighter

theorem contributes_operand {l : Leaf} (ht : t.role = .operand l) :
    Contributes n [t] [.operand l t.span] :=
  fun _ _ _ => adds_operand ht

theorem Contributes.operation {op : Operator} {left right : List Item} (hl : Contributes n a left)
    (ht : Sign n t.kind op) (hr : Contributes (n + 1) b right) :
    Contributes n (a ++ t :: b) (left ++ right ++ [.operator op t.span]) := by
  intro y hf hy
  obtain ⟨hrole, hprec⟩ := ht.role_eq
  apply (hl y hf hy).operation hy hrole hprec
  apply hr
  · apply free_of_role
    intro l hl
    rw [Token.role, hrole] at hl
    cases hl
  · apply loose_operator
    omega

theorem Contributes.call {f o c : Token} {text : String} (h : Contributes 0 a items)
    (hf : f.kind = .identifier text) (ho : o.kind = .openParen) (hc : c.kind = .closeParen) :
    Contributes 4 (f :: o :: (a ++ [c]))
      (.operand (.name text) f.span :: (items ++ [.operator .call f.span])) := by
  intro y _ _
  have hopen : o.role = .opening := congrArg Token.Kind.role ho
  apply adds_call (Nat.le_refl 4) hf hopen (congrArg Token.Kind.role hc)
  exact h _ (free_of_role (by simp [hopen]) _ _) (loose_paren 0 _ _)

theorem Contributes.group {o c : Token} (h : Contributes 0 a items) (ho : o.kind = .openParen)
    (hc : c.kind = .closeParen) : Contributes n (o :: (a ++ [c])) items := by
  intro y hf _
  have hopen : o.role = .opening := congrArg Token.Kind.role ho
  apply adds_group hf hopen (congrArg Token.Kind.role hc)
  exact h _ (free_of_role (by simp [hopen]) _ _) (loose_paren 0 _ _)

theorem Contributes.exists_items (h : Contributes n a items) :
    ∃ y, a.foldlM push .empty = .ok y ∧ y.items = .ok items := by
  obtain ⟨ops, placed, last, -, hrun, hflush⟩ :=
    h .empty (fun t ht => by cases ht) (fun op sign hop => by cases hop)
  refine ⟨_, hrun, ?_⟩
  rw [Yard.items, drain_waiting, hflush]
  simp [Yard.empty, drain]

end Tree.Yard

open Formula.Tree.Yard

theorem Derives.contributes {n : Nat} {tokens : List Token} {tree : Tree}
    (h : Derives n tokens tree) : Contributes n tokens tree.toItems := by
  induction h with
  | operation hl ht hr ihl ihr => exact ihl.operation ht ihr
  | tighter h ih => exact ih.tighter
  | number ht => exact contributes_operand (congrArg Token.Kind.role ht)
  | name ht => exact contributes_operand (congrArg Token.Kind.role ht)
  | call hf ho h hc ih =>
    have hcall := ih.call hf ho hc
    simpa only [spanning, toItems, List.cons_append, List.nil_append] using hcall
  | group ho h hc ih => exact ih.group ho hc

theorem Derives.exists_items {tokens : List Token} {tree : Tree} (h : Derives 0 tokens tree) :
    ∃ y, tokens.foldlM push .empty = .ok y ∧ y.items = .ok tree.toItems :=
  h.contributes.exists_items

theorem Tree.ofString_of_derives {source : String} {tree : Tree}
    (h : Derives 0 (Reader.ofString source).tokens.1 tree)
    (hf : (Reader.ofString source).tokens.2.1 = none) : Tree.ofString source = .ok tree := by
  have hsplit := (Reader.splits_tokens source.toList 0).1
  obtain ⟨y, hrun, hitems⟩ := h.exists_items
  refine ofString_eq_ok_iff.mpr ⟨hf, _, _, hrun, hitems, ?_⟩
  rw [ofItems_toItems, h.rejoin_eq hsplit.nonempty hsplit.ordered]

theorem Tree.ofString_of_derives_assignment :
    let source := "1-x-sin(x)^2=( y)"
    let tree := node .assign ⟨12, 13⟩
      (node (.arithmetic .sub) ⟨3, 4⟩
        (node (.arithmetic .sub) ⟨1, 2⟩ (leaf (.number "1") ⟨0, 1⟩) (leaf (.name "x") ⟨2, 3⟩) ⟨0, 3⟩)
        (node (.arithmetic .pow) ⟨10, 11⟩
          (node .call ⟨4, 7⟩ (leaf (.name "sin") ⟨4, 7⟩) (leaf (.name "x") ⟨8, 9⟩) ⟨4, 9⟩)
          (leaf (.number "2") ⟨11, 12⟩) ⟨4, 12⟩) ⟨0, 12⟩)
      (leaf (.name "y") ⟨15, 16⟩) ⟨0, 16⟩
    Derives 0 (Reader.ofString source).tokens.1 tree ∧
      (Reader.ofString source).tokens.2.1 = none ∧ Tree.ofString source = .ok tree := by
  intro source tree
  have htokens : (Reader.ofString source).tokens.1 =
      [⟨.number "1", ⟨0, 1⟩⟩, ⟨.minus, ⟨1, 2⟩⟩, ⟨.identifier "x", ⟨2, 3⟩⟩, ⟨.minus, ⟨3, 4⟩⟩,
        ⟨.identifier "sin", ⟨4, 7⟩⟩, ⟨.openParen, ⟨7, 8⟩⟩, ⟨.identifier "x", ⟨8, 9⟩⟩,
        ⟨.closeParen, ⟨9, 10⟩⟩, ⟨.caret, ⟨10, 11⟩⟩, ⟨.number "2", ⟨11, 12⟩⟩, ⟨.equals, ⟨12, 13⟩⟩,
        ⟨.openParen, ⟨13, 14⟩⟩, ⟨.identifier "y", ⟨15, 16⟩⟩, ⟨.closeParen, ⟨16, 17⟩⟩] := by
    decide +kernel
  have hfault : (Reader.ofString source).tokens.2.1 = none := by decide +kernel
  have h : Derives 0 (Reader.ofString source).tokens.1 tree := by
    rw [htokens]
    have hone : Derives 1 [⟨.number "1", ⟨0, 1⟩⟩] _ := (Derives.number rfl).looser (by decide)
    have hx : Derives 2 [⟨.identifier "x", ⟨2, 3⟩⟩] _ := (Derives.name rfl).looser (by decide)
    have harg : Derives 0 [⟨.identifier "x", ⟨8, 9⟩⟩] _ := (Derives.name rfl).looser (by decide)
    have hcall : Derives 3 [⟨.identifier "sin", ⟨4, 7⟩⟩, ⟨.openParen, ⟨7, 8⟩⟩,
      ⟨.identifier "x", ⟨8, 9⟩⟩, ⟨.closeParen, ⟨9, 10⟩⟩] _ := (Derives.call rfl rfl harg rfl).tighter
    have hpow := Derives.operation (t := ⟨.caret, ⟨10, 11⟩⟩) hcall .pow
      (.number (t := ⟨.number "2", ⟨11, 12⟩⟩) rfl)
    have hsub := Derives.operation (t := ⟨.minus, ⟨1, 2⟩⟩) hone .sub hx
    have hleft := Derives.operation (t := ⟨.minus, ⟨3, 4⟩⟩) hsub .sub hpow.tighter
    have hy : Derives 0 [⟨.identifier "y", ⟨15, 16⟩⟩] _ := (Derives.name rfl).looser (by decide)
    have hright : Derives 1 [⟨.openParen, ⟨13, 14⟩⟩, ⟨.identifier "y", ⟨15, 16⟩⟩,
      ⟨.closeParen, ⟨16, 17⟩⟩] _ := (Derives.group rfl hy rfl).looser (by decide)
    exact Derives.operation (t := ⟨.equals, ⟨12, 13⟩⟩) hleft.tighter .assign hright
  exact ⟨h, hfault, ofString_of_derives h hfault⟩

end Formula
