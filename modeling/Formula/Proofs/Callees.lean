import Formula.Proofs.Extents

/-!
The name that a call is about and the name that it is written with. A call is looked up by the name
that its left operand is; a fault shows the name in front of the parenthesis.
-/

namespace Formula

open Formula.Tree
open Token.Kind

theorem Sign.ne_call {n : Nat} {kind : Token.Kind} {op : Operator} (h : Sign n kind op) :
    op ≠ .call :=
  ne_call_of_role h.role_eq.1

theorem Derives.eq_name_of_call {n : Nat} {tokens : List Token} {tree left right : Tree}
    {sign span : Span} (h : Derives n tokens tree) (htree : tree = node .call sign left right span) :
    ∃ text, left = leaf (.name text) sign := by
  induction h with
  | operation hl ht hr ihl ihr =>
    exact absurd (Tree.node.inj htree).1 ht.ne_call
  | tighter h ih => exact ih htree
  | number ht => cases htree
  | name ht => cases htree
  | @call f o c text a tree hf ho h hc ih =>
    obtain ⟨-, rfl, rfl, -⟩ := Tree.node.inj htree
    exact ⟨text, rfl⟩
  | group ho h hc ih => exact ih htree

/-- A function is unknown by a name that the text has, the left operand of a call; where no operand
stands right behind another one, that is the name shown. -/
theorem Program.unknownFunction_of_ofString {source name : String} {sign : Span}
    (h : Program.ofString source = .error (.build (.unknownFunction name sign))) :
    ∃ t right span whole after, Tree.ofString source = .ok t ∧
      node .call sign (leaf (.name name) span) right whole ∈ t.subtrees ∧
      span.Covers source.toList name.toList after ∧
      (((Reader.ofString source).tokens.1.IsChain fun s t => ¬ Juxtaposed s.kind t.kind) →
        sign.Covers source.toList name.toList after) := by
  obtain ⟨t, s, ht, hmem, hraises⟩ := Program.exists_raises_of_ofString h
  cases hraises with
  | @unknownFunction _ whole span _ right =>
    have hitem : .operand (.name name) span ∈ t.toItems :=
      mem_toItems_of_mem_subtrees hmem _ (by simp [toItems])
    obtain ⟨slice, after, -, hcovers, rfl⟩ :=
      (comesFrom_of_ofString ht _ hitem).exists_covers (Reader.splits_ofString source)
    refine ⟨t, right, span, whole, after, ht, hmem, hcovers, fun hj => ?_⟩
    obtain ⟨n, part, hpart, -⟩ := (derives_of_isChain ht hj).exists_part hmem
    obtain ⟨text, hleft⟩ := hpart.eq_name_of_call rfl
    obtain ⟨-, rfl⟩ := Tree.leaf.inj hleft
    exact hcovers

theorem Program.unknownFunction_of_ofString_tangent :
    let source := "pi+ tan(x)"
    Program.ofString source = .error (.build (.unknownFunction "tan" ⟨4, 7⟩)) ∧
      ((Reader.ofString source).tokens.1.IsChain fun s t => ¬ Juxtaposed s.kind t.kind) ∧
      ∃ t right span whole after, Tree.ofString source = .ok t ∧
        node .call ⟨4, 7⟩ (leaf (.name "tan") span) right whole ∈ t.subtrees ∧
        span.Covers source.toList "tan".toList after ∧
        Span.Covers source.toList ⟨4, 7⟩ "tan".toList after := by
  intro source
  have h : Program.ofString source = .error (.build (.unknownFunction "tan" ⟨4, 7⟩)) := by
    apply Program.ofString_eq_error_iff.mpr
    refine .inr ⟨node (.arithmetic .add) ⟨2, 3⟩ (leaf (.name "pi") ⟨0, 2⟩) (node .call ⟨4, 7⟩
      (leaf (.name "tan") ⟨4, 7⟩) (leaf (.name "x") ⟨8, 9⟩) ⟨4, 9⟩) ⟨0, 9⟩, _, by decide +kernel, ?_, rfl⟩
    rw [build_eq_code]
    rfl
  have hj : (Reader.ofString source).tokens.1.IsChain fun s t => ¬ Juxtaposed s.kind t.kind := by
    decide +kernel
  obtain ⟨t, right, span, whole, after, ht, hmem, hcovers, hshown⟩ := unknownFunction_of_ofString h
  exact ⟨h, hj, t, right, span, whole, after, ht, hmem, hcovers, hshown hj⟩

/-- A call without an argument takes the operand before it for its function, and its own name for the
argument. -/
theorem Program.ofString_call_behind :
    let source := "x sin()"
    let shown : Span := ⟨2, 5⟩
    Program.ofString source = .error (.build (.unknownFunction "x" shown)) ∧
      shown.Covers source.toList "sin".toList "()".toList ∧
      ¬ ∃ after, shown.Covers source.toList "x".toList after := by
  intro source shown
  refine ⟨?_, ⟨"x ".toList, by decide +kernel, by decide +kernel⟩, ?_⟩
  · apply Program.ofString_eq_error_iff.mpr
    refine .inr ⟨node .call shown (leaf (.name "x") ⟨0, 1⟩) (leaf (.name "sin") shown) ⟨0, 5⟩, _,
      by decide +kernel, ?_, rfl⟩
    rw [build_eq_code]
    rfl
  · rintro ⟨after, before, -, hspan⟩
    obtain ⟨hstart, hstop⟩ := Span.mk.inj hspan
    have hsize : Text.byteSize "x".toList = 1 := by decide +kernel
    rw [Text.byteSize_append, ← hstart, hsize] at hstop
    cases hstop

end Formula
