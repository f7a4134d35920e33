import Formula.Proofs.Framing
import Formula.Proofs.Labels
import Formula.Proofs.Resumption
import Formula.Proofs.Writing

/-!
Parentheses make an operand of any text that has a tree, be it an infix expression or not: the text
keeps its tree, moved to where it stands, as a group, as an operand and as the argument of a call.
-/

namespace Formula

open Formula.Tree Formula.Tree.Yard
open Text (byteSize byteSize_nil byteSize_cons byteSize_append)

namespace Reader.Splits

variable {a rest : List Char} {offset : Nat} {tokens read : List Token} {fault : Option LexError}

theorem append (h : Splits a offset tokens none)
    (hr : Splits rest (offset + byteSize a) read fault) (hb : ∀ c ∈ rest.head?, ¬ c.isAlphanum) :
    Splits (a ++ rest) offset (tokens ++ read) fault := by
  generalize hf : (none : Option LexError) = stop at h
  induction h with
  | done offset => exact hr
  | @blank c a offset tokens stop hc h ih =>
    rw [byteSize_cons, ← Nat.add_assoc] at hr
    exact .blank hc (ih hr hf)
  | @token kind a offset tokens stop hk h ih =>
    rw [byteSize_append, ← Nat.add_assoc] at hr
    rw [List.append_assoc]
    refine .token (hk.of_head fun c hc => ?_) (ih hr hf)
    cases a with
    | nil => exact .inr (hb c hc)
    | cons d a => exact .inl hc
  | stray hc => cases hf

theorem symbol {c : Char} {kind : Token.Kind} (hc : Token.Kind.ofSymbol? c = some kind)
    (h : Splits rest (offset + 1) read fault) :
    Splits (c :: rest) offset (⟨kind, ⟨offset, offset + 1⟩⟩ :: read) fault := by
  have htext : kind.text.toList = [c] := by
    rw [Token.Kind.text_of_ofSymbol? hc, String.toList_singleton]
  have hsize : byteSize [c] = 1 := by
    unfold Token.Kind.ofSymbol? at hc
    split at hc <;> first | rfl | cases hc
  rw [← hsize, ← htext] at h
  have htoken := token (standsBefore_of_ofSymbol? hc rest.head?) h
  rwa [htext, hsize] at htoken

end Reader.Splits

def parenthesized (offset : Nat) (source : String) : List Token :=
  ⟨.openParen, ⟨offset, offset + 1⟩⟩ ::
    ((Reader.ofString source).tokens.1.map (Token.place (.shift (offset + 1))) ++
      [⟨.closeParen, ⟨offset + 1 + byteSize source.toList, offset + 1 + byteSize source.toList + 1⟩⟩])

namespace Tree

variable {source a b : String} {s t : Tree}

theorem splits_parenthesized (h : Tree.ofString source = .ok t) {rest : List Char} (offset : Nat)
    {read : List Token} {fault : Option LexError}
    (hr : Reader.Splits rest (offset + 1 + byteSize source.toList + 1) read fault) :
    Reader.Splits ('(' :: (source.toList ++ ')' :: rest)) offset
      (parenthesized offset source ++ read) fault := by
  have hsource := Reader.splits_ofString source
  rw [(ofString_eq_ok_iff.mp h).1] at hsource
  have hinner := hsource.shift (offset + 1)
  have hwhole := hinner.append (.symbol (c := ')') rfl hr) (by simp)
  rw [parenthesized, List.cons_append, List.append_assoc]
  exact .symbol rfl hwhole

theorem rejoin_place (π : Placement) (t : Tree) : (t.place π).rejoin = t.rejoin.place π := by
  induction t with
  | leaf l span => rfl
  | node op sign left right span ihl ihr => rw [place, rejoin, rejoin, ihl, ihr, join_place]

theorem contributes_place (h : Tree.ofString source = .ok t) (π : Placement) :
    Contributes 0 ((Reader.ofString source).tokens.1.map (Token.place π)) (t.place π).toItems := by
  have htokens : ofTokens (Reader.ofString source).tokens.1 none = .ok t := by
    rw [← h, ofString_eq, (ofString_eq_ok_iff.mp h).1]
    rfl
  have hplaced := ofTokens_place π (Reader.ofString source).tokens.1 none
  rw [htokens] at hplaced
  exact contributes_of_ofTokens hplaced

theorem contributes_parenthesized (h : Tree.ofString source = .ok t) (n offset : Nat) :
    Contributes n (parenthesized offset source) (t.place (.shift (offset + 1))).toItems :=
  (contributes_place h _).group rfl rfl

theorem ofString_of_contributes {n : Nat} {tokens : List Token}
    (hs : Reader.Splits source.toList 0 tokens none) (h : Contributes n tokens t.toItems) :
    Tree.ofString source = .ok t.rejoin := by
  obtain ⟨htokens, hfault⟩ := hs.tokens_eq
  rw [ofString_eq, Reader.ofString, htokens, hfault]
  exact h.ofTokens_eq

theorem rejoin_place_of_ofString (h : Tree.ofString source = .ok t) (π : Placement) :
    (t.place π).rejoin = t.place π := by
  obtain ⟨-, y, items, -, -, hreduce⟩ := ofString_eq_ok_iff.mp h
  rw [rejoin_place, rejoin_of_ofItems hreduce]

theorem exists_sign_of_ne_call {op : Operator} (h : op ≠ .call) :
    ∃ n kind, Sign n kind op ∧ Token.Kind.ofSymbol? op.symbol = some kind := by
  cases op with
  | assign => exact ⟨_, _, .assign, rfl⟩
  | call => exact absurd rfl h
  | arithmetic op =>
    cases op with
    | add => exact ⟨_, _, .add, rfl⟩
    | sub => exact ⟨_, _, .sub, rfl⟩
    | mul => exact ⟨_, _, .mul, rfl⟩
    | div => exact ⟨_, _, .div, rfl⟩
    | pow => exact ⟨_, _, .pow, rfl⟩

theorem ofString_group (ha : Tree.ofString a = .ok s) :
    Tree.ofString ("(" ++ a ++ ")") = .ok (s.place (.shift 1)) := by
  have hsplit := splits_parenthesized ha 0 (.done _)
  rw [List.append_nil] at hsplit
  rw [ofString_of_contributes (by simpa using hsplit) (contributes_parenthesized ha 0 0),
    rejoin_place_of_ofString ha]

theorem ofString_operation (ha : Tree.ofString a = .ok s) (hb : Tree.ofString b = .ok t)
    {op : Operator} (hop : op ≠ .call) :
    Tree.ofString ("(" ++ a ++ ")" ++ toString op ++ "(" ++ b ++ ")") =
      .ok (node op ⟨byteSize a.toList + 2, byteSize a.toList + 3⟩ (s.place (.shift 1))
        (t.place (.shift (byteSize a.toList + 4)))
        ⟨1 + s.span.start, byteSize a.toList + 4 + t.span.stop⟩) := by
  obtain ⟨n, kind, hsign, hsymbol⟩ := exists_sign_of_ne_call hop
  let sign : Token := ⟨kind, ⟨byteSize a.toList + 2, byteSize a.toList + 3⟩⟩
  have hright := splits_parenthesized hb (byteSize a.toList + 3) (.done _)
  rw [List.append_nil] at hright
  have htext : ("(" ++ a ++ ")" ++ toString op ++ "(" ++ b ++ ")").toList =
      '(' :: (a.toList ++ ')' :: op.symbol :: '(' :: (b.toList ++ [')'])) := by
    simp [toString]
  have hsplit : Reader.Splits ("(" ++ a ++ ")" ++ toString op ++ "(" ++ b ++ ")").toList 0
      (parenthesized 0 a ++ sign :: parenthesized (byteSize a.toList + 3) b) none := by
    have hoffset : 0 + 1 + byteSize a.toList + 1 = byteSize a.toList + 2 := by omega
    rw [htext]
    apply splits_parenthesized ha
    rw [hoffset]
    exact .symbol hsymbol hright
  have hcontributes := (contributes_parenthesized ha n 0).operation (t := sign) hsign
    (contributes_parenthesized hb (n + 1) (byteSize a.toList + 3))
  have hs := (sound_of_ofString ha).start.le
  have ht := (sound_of_ofString hb).lt
  rw [ofString_of_contributes (t := node op sign.span _ _ ⟨0, 0⟩) hsplit hcontributes, rejoin,
    rejoin_place_of_ofString ha, rejoin_place_of_ofString hb, join, span_place, span_place]
  congr 3
  · exact Nat.min_eq_left (by simp only [Span.place, Placement.shift, sign]; omega)
  · exact Nat.max_eq_left (by simp only [Span.place, Placement.shift, sign]; omega)

theorem ofString_call (ha : Tree.ofString a = .ok s) {f : String}
    (hf : (Token.Kind.identifier f).WellFormed) :
    Tree.ofString (f ++ "(" ++ a ++ ")") =
      .ok (node .call ⟨0, byteSize f.toList⟩ (leaf (.name f) ⟨0, byteSize f.toList⟩)
        (s.place (.shift (byteSize f.toList + 1))) ⟨0, byteSize f.toList + 1 + s.span.stop⟩) := by
  let name : Token := ⟨.identifier f, ⟨0, 0 + byteSize f.toList⟩⟩
  have hargument := splits_parenthesized ha (0 + byteSize f.toList) (.done _)
  rw [List.append_nil] at hargument
  have htext : (f ++ "(" ++ a ++ ")").toList = f.toList ++ '(' :: (a.toList ++ [')']) := by simp
  have hstands : (Token.Kind.identifier f).StandsBefore (some '(') :=
    (hf.standsBefore_iff (l := .openParen) trivial).mpr rfl
  have hsplit : Reader.Splits (f ++ "(" ++ a ++ ")").toList 0
      (name :: parenthesized (0 + byteSize f.toList) a) none := by
    rw [htext]
    exact @Reader.Splits.token (.identifier f) _ _ _ _ hstands hargument
  have hcontributes : Contributes 4 (name :: parenthesized (0 + byteSize f.toList) a)
      (node .call name.span (leaf (.name f) name.span)
        (s.place (.shift (0 + byteSize f.toList + 1))) ⟨0, 0⟩).toItems := by
    have hcall : Contributes 4 (name :: parenthesized (0 + byteSize f.toList) a) _ :=
      (contributes_place ha _).call rfl rfl rfl
    simpa only [toItems, List.cons_append, List.nil_append] using hcall
  have hs := (sound_of_ofString ha).lt
  rw [ofString_of_contributes hsplit hcontributes, rejoin, rejoin, rejoin_place_of_ofString ha, join,
    span_place]
  simp only [name, Nat.zero_add]
  congr 3
  exact Nat.max_eq_left (by simp only [Span.place, Placement.shift, Tree.span]; omega)

/-- Texts that have a tree can be put together with parentheses, whatever they are made of: the
trees stay as they are, and there is one node more for an operator or a call. -/
theorem ofString_parenthesized (ha : Tree.ofString a = .ok s) (hb : Tree.ofString b = .ok t)
    {op : Operator} (hop : op ≠ .call) {f : String} (hf : (Token.Kind.identifier f).WellFormed) :
    Tree.ofString ("(" ++ a ++ ")") = .ok (s.place (.shift 1)) ∧
      Tree.ofString ("(" ++ a ++ ")" ++ toString op ++ "(" ++ b ++ ")") =
        .ok (node op ⟨byteSize a.toList + 2, byteSize a.toList + 3⟩ (s.place (.shift 1))
          (t.place (.shift (byteSize a.toList + 4)))
          ⟨1 + s.span.start, byteSize a.toList + 4 + t.span.stop⟩) ∧
      Tree.ofString (f ++ "(" ++ a ++ ")") =
        .ok (node .call ⟨0, byteSize f.toList⟩ (leaf (.name f) ⟨0, byteSize f.toList⟩)
          (s.place (.shift (byteSize f.toList + 1))) ⟨0, byteSize f.toList + 1 + s.span.stop⟩) :=
  ⟨ofString_group ha, ofString_operation ha hb hop, ofString_call ha hf⟩

theorem ofString_parenthesized_postfix :
    let a := "\u2003x pi-"
    let b := "* 2 ex"
    let s := node (.arithmetic .sub) ⟨7, 8⟩ (leaf (.name "x") ⟨3, 4⟩) (leaf (.name "pi") ⟨5, 7⟩) ⟨3, 8⟩
    let t := node (.arithmetic .mul) ⟨0, 1⟩ (leaf (.number "2") ⟨2, 3⟩) (leaf (.name "ex") ⟨4, 6⟩) ⟨0, 6⟩
    (Tree.ofString a = .ok s ∧ Tree.ofString b = .ok t ∧ Operator.assign ≠ .call ∧
      (Token.Kind.identifier "f1").WellFormed) ∧
    Tree.ofString ("(" ++ a ++ ")") = .ok (s.place (.shift 1)) ∧
      Tree.ofString ("(" ++ a ++ ")" ++ toString Operator.assign ++ "(" ++ b ++ ")") =
        .ok (node .assign ⟨10, 11⟩ (s.place (.shift 1)) (t.place (.shift 12)) ⟨4, 18⟩) ∧
      Tree.ofString ("f1" ++ "(" ++ a ++ ")") =
        .ok (node .call ⟨0, 2⟩ (leaf (.name "f1") ⟨0, 2⟩) (s.place (.shift 3)) ⟨0, 11⟩) := by
  intro a b s t
  have ha : Tree.ofString a = .ok s := by decide +kernel
  have hb : Tree.ofString b = .ok t := by decide +kernel
  have hop : Operator.assign ≠ .call := by decide
  have hf : (Token.Kind.identifier "f1").WellFormed :=
    ⟨'f', ['1'], rfl, by decide, List.forall_mem_singleton.mpr (by decide)⟩
  have hsize : byteSize a.toList = 8 := by decide +kernel
  have hname : byteSize "f1".toList = 2 := by decide +kernel
  have h := ofString_parenthesized ha hb hop hf
  rw [hsize, hname] at h
  exact ⟨⟨ha, hb, hop, hf⟩, h⟩

end Tree

end Formula
