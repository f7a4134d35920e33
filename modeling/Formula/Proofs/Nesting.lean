import Formula.Proofs.Parentheses
import Formula.Proofs.Parsing
import Formula.Proofs.StackDepth

namespace Formula

open Formula.Tree

namespace Tree

theorem callee_rejoin (sign : Span) (t : Tree) : callee sign t.rejoin = callee sign t := by
  cases t <;> rfl

theorem code_rejoin (t : Tree) : t.rejoin.code = t.code := by
  induction t with
  | leaf l span => rfl
  | node op sign left right span ihl ihr =>
    rw [rejoin, join]
    cases op with
    | assign => rfl
    | arithmetic op => rw [code, code, ihl, ihr]
    | call => rw [code, code, callee_rejoin, ihr]

theorem eq_rejoin_of_derives {source : String} {t tree : Tree} (h : Tree.ofString source = .ok t)
    (hd : Derives 0 (Reader.ofString source).tokens.1 tree) : t = tree.rejoin := by
  obtain ⟨-, y, items, hrun, hitems, ht⟩ := ofString_eq_ok_iff.mp h
  obtain ⟨y', hrun', hitems'⟩ := hd.exists_items
  obtain rfl := Except.ok.inj (hrun.symm.trans hrun')
  obtain rfl := Except.ok.inj (hitems.symm.trans hitems')
  exact Except.ok.inj (ht.symm.trans (ofItems_toItems tree))

end Tree

def Nested (d : Nat) (tokens : List Token) : Prop :=
  ∀ before after, tokens = before ++ after → openParens before ≤ d

variable {n d : Nat} {a b : List Token} {t : Token}

theorem Sign.eq_assign_or_arithmetic {kind : Token.Kind} {op : Operator} (h : Sign n kind op) :
    kind.nesting = 0 ∧ (op = .assign ∨ 0 < n ∧ ∃ o, op = .arithmetic o) := by
  cases h with
  | assign => exact ⟨rfl, .inl rfl⟩
  | _ => exact ⟨rfl, .inr ⟨by decide, _, rfl⟩⟩

theorem Derives.openParens_eq_zero {tree : Tree} (h : Derives n a tree) : openParens a = 0 := by
  induction h with
  | operation hl ht hr ihl ihr =>
    rw [openParens_append, openParens_cons, ht.eq_assign_or_arithmetic.1, ihl, ihr]
    rfl
  | tighter h ih => exact ih
  | number ht =>
    rw [openParens_cons, ht]
    rfl
  | name ht =>
    rw [openParens_cons, ht]
    rfl
  | call hf ho h hc ih =>
    rw [openParens_cons, openParens_cons, openParens_append, openParens_cons, hf, ho, hc, ih]
    rfl
  | group ho h hc ih =>
    rw [openParens_cons, openParens_append, openParens_cons, ho, hc, ih]
    rfl

theorem Nested.left (h : Nested d (a ++ b)) : Nested d a := by
  intro before after hs
  exact h before (after ++ b) (by rw [hs, List.append_assoc])

theorem Nested.behind {e : Nat} (h : Nested d (a ++ b)) (ha : openParens a = (d : Int) - e) :
    Nested e b := by
  intro before after hs
  have hle := h (a ++ before) after (by rw [hs, List.append_assoc])
  rw [openParens_append] at hle
  omega

theorem Nested.inner (h : Nested d (a ++ b)) (ha : openParens a = 1) :
    ∃ e, d = e + 1 ∧ Nested e b := by
  have hpos := h a b rfl
  exact ⟨d - 1, by omega, h.behind (by omega)⟩

/-- A tighter level leaves one operand fewer waiting, a pair of parentheses lets all levels wait
again. -/
theorem Derives.stackHeight_le {tree : Tree} {code : List Instruction} (h : Derives n a tree)
    (hc : tree.code = .ok code) (hd : Nested d a) : tree.stackHeight + max n 1 ≤ 3 * d + 5 := by
  induction h generalizing d code with
  | @operation n a b t op left right hl ht hr ihl ihr =>
    obtain ⟨hzero, rfl | ⟨hn, op, rfl⟩⟩ := ht.eq_assign_or_arithmetic
    · -- An assignment has no code, so the level of `=` adds nothing.
      cases hc
    · obtain ⟨first, hfirst, hc⟩ := bind_eq_ok.mp hc
      obtain ⟨second, hsecond, -⟩ := bind_eq_ok.mp hc
      have hleft := ihl hfirst hd.left
      have hbefore : openParens (a ++ [t]) = 0 := by
        rw [openParens_append, openParens_cons, hl.openParens_eq_zero, hzero]
        rfl
      rw [List.append_cons] at hd
      have hb : Nested d b := hd.behind (by omega)
      have hright := ihr hsecond hb
      rw [spanning, stackHeight]
      · omega
      · intro h
        cases h
  | tighter h ih =>
    have htree := ih hc hd
    omega
  | number ht =>
    simp only [stackHeight]
    omega
  | name ht =>
    simp only [stackHeight]
    omega
  | @call f o c text a tree hf ho h hclose ih =>
    obtain ⟨g, -, hc⟩ := bind_eq_ok.mp hc
    obtain ⟨code, hcode, -⟩ := bind_eq_ok.mp hc
    obtain ⟨e, rfl, he⟩ := Nested.inner (a := [f, o]) (b := a ++ [c]) hd (by
      simp [openParens, hf, ho, Token.Kind.nesting])
    have htree := ih hcode he.left
    rw [spanning, stackHeight]
    omega
  | @group o c a tree ho h hclose ih =>
    obtain ⟨e, rfl, he⟩ := Nested.inner (a := [o]) (b := a ++ [c]) hd (by
      simp [openParens, ho, Token.Kind.nesting])
    have htree := ih hc he.left
    omega

/-- The stack of an infix expression grows with the nesting of its parentheses, not with its
length. -/
theorem Program.maxStack_le_of_nested {source : String} {p : Program}
    (h : Program.ofString source = .ok p)
    (hd : ∃ tree, Derives 0 (Reader.ofString source).tokens.1 tree)
    (hn : Nested d (Reader.ofString source).tokens.1) : p.maxStack ≤ 3 * d + 4 := by
  obtain ⟨t, ht, hp⟩ := ofString_eq_ok_iff.mp h
  obtain ⟨tree, htree⟩ := hd
  rw [Tree.eq_rejoin_of_derives ht htree, build_eq_code, code_rejoin] at hp
  obtain ⟨code, hcode, rfl⟩ := map_eq_ok.mp hp
  have hheight := htree.stackHeight_le hcode hn
  rw [maxStack_ofCode hcode]
  omega

theorem Program.maxStack_le_of_nested_tight :
    let source := "x+x*x^(x+x*x^x)"
    let p : Program := ⟨[.loadX, .loadX, .loadX, .loadX, .loadX, .loadX, .loadX, .arithmetic .pow,
      .arithmetic .mul, .arithmetic .add, .arithmetic .pow, .arithmetic .mul, .arithmetic .add], 7⟩
    Program.ofString source = .ok p ∧ (∃ tree, Derives 0 (Reader.ofString source).tokens.1 tree) ∧
      Nested 1 (Reader.ofString source).tokens.1 ∧ p.maxStack ≤ 3 * 1 + 4 := by
  intro source p
  let x (i : Nat) : Tree := leaf (.name "x") ⟨i, i + 1⟩
  let sum (i : Nat) (right : Tree) : Tree := node (.arithmetic .add) ⟨i + 1, i + 2⟩ (x i)
    (node (.arithmetic .mul) ⟨i + 3, i + 4⟩ (x (i + 2))
      (node (.arithmetic .pow) ⟨i + 5, i + 6⟩ (x (i + 4)) right ⟨i + 4, 14⟩) ⟨i + 2, 14⟩) ⟨i, 14⟩
  have ht : Tree.ofString source = .ok (sum 0 (sum 7 (x 13))) := by decide +kernel
  have hp : Program.ofString source = .ok p := by
    rw [Program.ofString, ht]
    exact congrArg (Except.mapError CompileError.build) (build_eq_code _)
  let name (i : Nat) : Token := ⟨.identifier "x", ⟨i, i + 1⟩⟩
  let terms (i : Nat) (after : List Token) : List Token := [name i, ⟨.plus, ⟨i + 1, i + 2⟩⟩,
    name (i + 2), ⟨.star, ⟨i + 3, i + 4⟩⟩, name (i + 4), ⟨.caret, ⟨i + 5, i + 6⟩⟩] ++ after
  have htokens : (Reader.ofString source).tokens.1 =
      terms 0 (⟨.openParen, ⟨6, 7⟩⟩ :: (terms 7 [name 13] ++ [⟨.closeParen, ⟨14, 15⟩⟩])) := by
    decide +kernel
  have hname (i : Nat) : Derives 4 [name i] (x i) := .name rfl
  have hterms (i : Nat) {after : List Token} {right : Tree} (h : Derives 4 after right) :
      ∃ tree, Derives 1 (terms i after) tree :=
    ⟨_, .operation ((hname i).looser (by decide)) .add
      (.operation ((hname (i + 2)).looser (by decide)) .mul
        (.operation (hname (i + 4)).tighter .pow h))⟩
  have hd : ∃ tree, Derives 0 (Reader.ofString source).tokens.1 tree := by
    obtain ⟨inner, hinner⟩ := hterms 7 (hname 13)
    obtain ⟨tree, htree⟩ := hterms 0 (.group (o := ⟨.openParen, ⟨6, 7⟩⟩)
      (c := ⟨.closeParen, ⟨14, 15⟩⟩) rfl hinner.tighter rfl)
    rw [htokens]
    exact ⟨tree, htree.tighter⟩
  have hn : Nested 1 (Reader.ofString source).tokens.1 := by
    have htake : ∀ n < 16, openParens ((Reader.ofString source).tokens.1.take n) ≤ 1 := by
      rw [htokens]
      decide
    have hlength : (Reader.ofString source).tokens.1.length = 15 := by rw [htokens]; rfl
    intro before after hs
    have hlt : before.length < 16 := by
      rw [hs, List.length_append] at hlength
      omega
    have hbefore := htake before.length hlt
    rwa [hs, List.take_left] at hbefore
  exact ⟨hp, hd, hn, maxStack_le_of_nested hp hd hn⟩

end Formula
