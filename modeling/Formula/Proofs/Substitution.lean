import Formula.Proofs.Framing
import Formula.Proofs.Meaning
import Formula.Proofs.Nesting
import Formula.Proofs.Spelling

namespace Formula

open Formula.Tree Formula.Tree.Yard
open Text (byteSize byteSize_cons)

def Token.Kind.substitute (inserted : List Token.Kind) (kind : Token.Kind) : List Token.Kind :=
  if kind = .identifier "x" then .openParen :: (inserted ++ [.closeParen]) else [kind]

namespace Text

/-- The text from byte `offset` on, with `inserted` for each of the tokens that is the variable. -/
def substituteFrom (tokens : List Token) (inserted : List Char) : Nat → List Char → List Char
  | _, [] => []
  | offset, c :: rest =>
    let stop := offset + c.utf8Size
    (if ⟨.identifier "x", ⟨offset, stop⟩⟩ ∈ tokens then inserted else [c]) ++
      substituteFrom tokens inserted stop rest

def substitute (source inserted : String) : String :=
  String.ofList (substituteFrom (Reader.ofString source).tokens.1
    ('(' :: (inserted.toList ++ [')'])) 0 source.toList)

variable {tokens read : List Token} {inserted : List Char} {offset : Nat} {rest : List Char}

theorem substituteFrom_append {text : List Char} (h : ∀ t ∈ tokens, t.kind = .identifier "x" →
      t.span.start < offset ∨ offset + byteSize text ≤ t.span.start) (rest : List Char) :
    substituteFrom tokens inserted offset (text ++ rest) =
      text ++ substituteFrom tokens inserted (offset + byteSize text) rest := by
  induction text generalizing offset with
  | nil => rfl
  | cons c text ih =>
    have hpos := c.utf8Size_pos
    rw [byteSize_cons] at h ⊢
    have hc : ⟨.identifier "x", ⟨offset, offset + c.utf8Size⟩⟩ ∉ tokens := by
      intro hmem
      have := h _ hmem rfl
      simp only at this
      omega
    rw [List.cons_append, substituteFrom, if_neg hc, ih, ← Nat.add_assoc]
    · rfl
    · intro t ht hx
      have := h t ht hx
      omega

theorem head?_substituteFrom (inserted : List Char) (rest : List Char) :
    ∀ c ∈ (substituteFrom tokens ('(' :: inserted) offset rest).head?,
      c ∈ rest.head? ∨ ¬ c.isAlphanum := by
  intro c hc
  cases rest with
  | nil => cases hc
  | cons d rest =>
    rw [substituteFrom] at hc
    split at hc
    · obtain rfl := Option.mem_some_iff.mp hc
      exact .inr (by decide)
    · exact .inl hc

theorem spells_substituteFrom {kinds : List Token.Kind} (hi : Spells kinds inserted)
    (before : List Token) (h : Reader.Splits rest offset read none)
    (hb : ∀ t ∈ before, t.span.start < offset) :
    Spells ((read.map Token.kind).flatMap (Token.Kind.substitute kinds))
      (substituteFrom (before ++ read) ('(' :: (inserted ++ [')'])) offset rest) := by
  -- The tokens in `before` lie left of `offset`, so that only those in `read` can be met again.
  generalize hf : (none : Option LexError) = fault at h
  induction h generalizing before with
  | done offset => exact .done
  | @blank c rest offset read fault hc h ih =>
    change Spells _ (substituteFrom _ _ offset ([c] ++ rest))
    rw [substituteFrom_append]
    · refine .blank hc (ih before (fun t ht => ?_) hf)
      exact Nat.lt_add_right _ (hb t ht)
    · intro t ht _
      rcases List.mem_append.mp ht with ht | ht
      · exact .inl (hb t ht)
      · exact .inr (h.offset_le t ht)
  | @token kind rest offset read fault hk h ih =>
    have hpos := Reader.Splits.byteSize_pos (Reader.text_ne_nil hk)
    have hrest := ih (before ++ [⟨kind, ⟨offset, offset + byteSize kind.text.toList⟩⟩]) (by
      intro t ht
      rcases List.mem_append.mp ht with ht | ht
      · exact Nat.lt_add_right _ (hb t ht)
      · obtain rfl := List.mem_singleton.mp ht
        exact Nat.lt_add_of_pos_right hpos) hf
    rw [List.append_assoc, List.singleton_append] at hrest
    rw [List.map_cons, List.flatMap_cons, Token.Kind.substitute]
    by_cases hx : kind = .identifier "x"
    · rw [if_pos hx]
      subst hx
      have hsize : byteSize (Token.Kind.identifier "x").text.toList = 'x'.utf8Size := by decide
      rw [hsize] at hrest ⊢
      change Spells _ (substituteFrom _ _ offset ('x' :: rest))
      rw [substituteFrom, if_pos (List.mem_append_right before List.mem_cons_self)]
      simpa using hi.parenthesized hrest
    · rw [if_neg hx, substituteFrom_append]
      · exact .token (hk.of_head (head?_substituteFrom _ rest)) hrest
      · intro t ht htx
        rcases List.mem_append.mp ht with ht | ht
        · exact .inl (hb t ht)
        · rcases List.mem_cons.mp ht with rfl | ht
          · exact absurd htx hx
          · exact .inr (h.offset_le t ht)
  | stray hc => cases hf

end Text

def Tree.substitute (inserted : Tree) : Tree → Tree
  | leaf l span => if l = .name "x" then inserted else leaf l span
  | node op sign left right span =>
    node op sign (substitute inserted left) (substitute inserted right) span

theorem Leaf.value_of_ne {l : Leaf} (h : l ≠ .name "x") (v w : Float) : l.value v = l.value w := by
  unfold value
  split
  · exact absurd rfl h
  · rfl
  · rfl
  · rfl
  · rfl

namespace Tree

variable {t inserted : Tree} {code inner : List Instruction}

theorem substitute_of_callee {sign : Span} {left : Tree} {f : NamedFunction}
    (h : callee sign left = .ok f) (inserted : Tree) : substitute inserted left = left := by
  obtain ⟨text, span, rfl, hf⟩ := exists_name_of_callee h
  have hx : text ≠ "x" := by
    rintro rfl
    cases hf
  simp [substitute, hx]

theorem exists_code_substitute (h : t.code = .ok code) (hi : inserted.code = .ok inner) :
    ∃ result, (substitute inserted t).code = .ok result := by
  induction t, code, h using code_induction with
  | load l span i h hl =>
    rw [substitute]
    split
    · exact ⟨inner, hi⟩
    · exact ⟨[i], h⟩
  | arithmetic op sign left right span first second hl hr h ihl ihr =>
    obtain ⟨a, ha⟩ := ihl
    obtain ⟨b, hb⟩ := ihr
    refine ⟨a ++ b ++ [.arithmetic op], ?_⟩
    rw [substitute, Tree.code, ha, hb]
    rfl
  | call sign left right span f code hr h hf ihr =>
    obtain ⟨b, hb⟩ := ihr
    refine ⟨b ++ [.call f], ?_⟩
    rw [substitute, substitute_of_callee hf, Tree.code, hf, hb]
    rfl

theorem value_substitute (h : t.code = .ok code) {v w : Float} (hi : inserted.value v = some w) :
    (substitute inserted t).value v = t.value w := by
  induction t, code, h using code_induction with
  | load l span i h hl =>
    rw [substitute]
    split
    · next hx =>
      rw [hi, hx]
      rfl
    · next hx => exact l.value_of_ne hx v w
  | arithmetic op sign left right span first second hl hr h ihl ihr =>
    rw [substitute, value, value, ihl, ihr]
  | call sign left right span f code hr h hf ihr =>
    rw [substitute, substitute_of_callee hf, value, value, ihr]

end Tree

theorem Derives.contributes_substitute {n : Nat} {tokens : List Token} {tree inserted : Tree}
    {code : List Instruction} {kinds : List Token.Kind} (h : Derives n tokens tree)
    (hc : tree.code = .ok code)
    (hi : Contributes 0 (kinds.map Token.Kind.atOrigin) inserted.toItems) :
    Contributes n
      (((tokens.map Token.kind).flatMap (Token.Kind.substitute kinds)).map Token.Kind.atOrigin)
      (Tree.substitute inserted (tree.place .origin)).toItems := by
  induction h generalizing code with
  | @operation n a b t op left right hl ht hr ihl ihr =>
    obtain ⟨-, rfl | ⟨-, op, rfl⟩⟩ := ht.eq_assign_or_arithmetic
    · cases hc
    · obtain ⟨first, hfirst, hc⟩ := bind_eq_ok.mp hc
      obtain ⟨second, hsecond, -⟩ := bind_eq_ok.mp hc
      have hop : t.kind ≠ .identifier "x" := by
        intro hx
        rw [hx] at ht
        cases ht
      have hwhole := (ihl hfirst).operation (t := t.kind.atOrigin) ht (ihr hsecond)
      simpa [Token.Kind.substitute, hop, spanning, Tree.place, Tree.substitute, toItems] using hwhole
  | tighter h ih => exact (ih hc).tighter
  | @number t text ht =>
    have hoperand : Contributes 4 [t.kind.atOrigin] _ :=
      contributes_operand (congrArg Token.Kind.role ht)
    simpa [Token.Kind.substitute, ht, Tree.place, Tree.substitute, toItems] using hoperand
  | @name t text ht =>
    have hoperand : Contributes 4 [t.kind.atOrigin] _ :=
      contributes_operand (congrArg Token.Kind.role ht)
    have hgroup : Contributes 4 (_ :: (_ ++ [_])) _ :=
      hi.group (o := Token.Kind.openParen.atOrigin) (c := Token.Kind.closeParen.atOrigin) rfl rfl
    by_cases hx : text = "x"
    · simpa [Token.Kind.substitute, ht, hx, Tree.place, Tree.substitute] using hgroup
    · simpa [Token.Kind.substitute, ht, hx, Tree.place, Tree.substitute, toItems] using hoperand
  | @call f o c text a tree hf ho h hclose ih =>
    obtain ⟨g, hg, hc⟩ := bind_eq_ok.mp hc
    obtain ⟨code, hcode, -⟩ := bind_eq_ok.mp hc
    -- The variable is no function: the name of a call that has code stays a name.
    have hx : text ≠ "x" := by
      rintro rfl
      cases hg
    have hcall := (ih hcode).call (f := f.kind.atOrigin) (o := o.kind.atOrigin)
      (c := c.kind.atOrigin) hf ho hclose
    simpa [Token.Kind.substitute, hf, ho, hclose, hx, spanning, Tree.place, Tree.substitute, toItems]
      using hcall
  | @group o c a tree ho h hclose ih =>
    have hgroup := (ih hc).group (n := 4) (o := o.kind.atOrigin) (c := c.kind.atOrigin) ho hclose
    simpa [Token.Kind.substitute, ho, hclose] using hgroup

theorem Program.evaluate_substitute {source inserted : String} {p q : Program}
    (hp : Program.ofString source = .ok p)
    (hd : ∃ tree, Derives 0 (Reader.ofString source).tokens.1 tree)
    (hq : Program.ofString inserted = .ok q) :
    ∃ r, Program.ofString (Text.substitute source inserted) = .ok r ∧
      ∀ v, r.evaluate v = p.evaluate (q.evaluate v) := by
  obtain ⟨tree, ht, hbuild⟩ := ofString_eq_ok_iff.mp hp
  obtain ⟨derived, hderived⟩ := hd
  rw [eq_rejoin_of_derives ht hderived, build_eq_code, code_rejoin] at hbuild
  obtain ⟨code, hcode, rfl⟩ := map_eq_ok.mp hbuild
  have hspells := (splits_of_ofString hq).spells rfl
  obtain ⟨u, hu, hbuild⟩ := (ofString_eq_ok_iff_of_spells hspells).mp hq
  rw [build_eq_code] at hbuild
  obtain ⟨inner, hinner, rfl⟩ := map_eq_ok.mp hbuild
  have hplace : (derived.place .origin).code = .ok code := by
    rw [code_place, hcode]
    rfl
  obtain ⟨result, hresult⟩ := exists_code_substitute hplace hinner
  refine ⟨.ofCode result, ?_, fun v => ?_⟩
  · have htext := Text.spells_substituteFrom hspells [] (splits_of_ofString hp) (by simp)
    rw [List.nil_append] at htext
    have htokens := (hderived.contributes_substitute hcode (contributes_of_ofTokens hu)).ofTokens_eq
    apply (ofString_eq_ok_iff_of_spells (by rwa [Text.substitute, String.toList_ofList])).mpr
    refine ⟨_, htokens, ?_⟩
    rw [build_eq_code, code_rejoin, hresult]
    rfl
  · have hinserted := value_eq_evaluate_ofCode hinner v
    have hwhole := value_eq_evaluate_ofCode hresult v
    rw [value_substitute hplace hinserted, value_eq_evaluate_ofCode hplace] at hwhole
    exact (Option.some.inj hwhole).symm

theorem Program.evaluate_substitute_postfix :
    let source := "cos(x) *x"
    let inserted := "x pi+"
    let p : Program := ⟨[.loadX, .call .cos, .loadX, .arithmetic .mul], 2⟩
    let q : Program := ⟨[.loadX, .loadConstant NamedConstant.pi.value, .arithmetic .add], 2⟩
    Program.ofString source = .ok p ∧
      (∃ tree, Derives 0 (Reader.ofString source).tokens.1 tree) ∧
      Program.ofString inserted = .ok q ∧
      Text.substitute source inserted = "cos((x pi+)) *(x pi+)" ∧
      ∃ r, Program.ofString (Text.substitute source inserted) = .ok r ∧
        ∀ v, r.evaluate v = p.evaluate (q.evaluate v) := by
  intro source inserted p q
  have ht : Tree.ofString source = .ok (node (.arithmetic .mul) ⟨7, 8⟩
      (node .call ⟨0, 3⟩ (leaf (.name "cos") ⟨0, 3⟩) (leaf (.name "x") ⟨4, 5⟩) ⟨0, 5⟩)
      (leaf (.name "x") ⟨8, 9⟩) ⟨0, 9⟩) := by decide +kernel
  have hp : Program.ofString source = .ok p := by
    rw [Program.ofString, ht]
    exact congrArg (Except.mapError CompileError.build) (build_eq_code _)
  have hu : Tree.ofString inserted = .ok (node (.arithmetic .add) ⟨4, 5⟩
      (leaf (.name "x") ⟨0, 1⟩) (leaf (.name "pi") ⟨2, 4⟩) ⟨0, 5⟩) := by decide +kernel
  have hq : Program.ofString inserted = .ok q := by
    rw [Program.ofString, hu]
    exact congrArg (Except.mapError CompileError.build) (build_eq_code _)
  have htokens : (Reader.ofString source).tokens.1 =
      [⟨.identifier "cos", ⟨0, 3⟩⟩, ⟨.openParen, ⟨3, 4⟩⟩, ⟨.identifier "x", ⟨4, 5⟩⟩,
        ⟨.closeParen, ⟨5, 6⟩⟩, ⟨.star, ⟨7, 8⟩⟩, ⟨.identifier "x", ⟨8, 9⟩⟩] := by
    decide +kernel
  have hd : ∃ tree, Derives 0 (Reader.ofString source).tokens.1 tree := by
    rw [htokens]
    have harg : Derives 0 [⟨.identifier "x", ⟨4, 5⟩⟩] _ := (Derives.name rfl).looser (by decide)
    have hcall : Derives 2 [⟨.identifier "cos", ⟨0, 3⟩⟩, ⟨.openParen, ⟨3, 4⟩⟩,
      ⟨.identifier "x", ⟨4, 5⟩⟩, ⟨.closeParen, ⟨5, 6⟩⟩] _ :=
      (Derives.call rfl rfl harg rfl).looser (by decide)
    have hx : Derives 3 [⟨.identifier "x", ⟨8, 9⟩⟩] _ := (Derives.name rfl).tighter
    exact ⟨_, (Derives.operation (t := ⟨.star, ⟨7, 8⟩⟩) hcall .mul hx).looser (by decide)⟩
  have htext : Text.substitute source inserted = "cos((x pi+)) *(x pi+)" := by
    rw [Text.substitute, htokens]
    decide +kernel
  exact ⟨hp, hd, hq, htext, evaluate_substitute hp hd hq⟩

end Formula
