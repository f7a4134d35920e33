import Formula.Proofs.Adjacency

namespace Formula

open Formula.Tree
open Token.Kind

theorem Sign.not_operand {n : Nat} {kind : Token.Kind} {op : Operator} (h : Sign n kind op) :
    kind.startsOperand = false ∧ ended (some kind) = false := by
  cases h <;> exact ⟨rfl, rfl⟩

theorem isChain_cons_of_not_ended {t : Token} {tokens : List Token} (ht : ended (some t.kind) = false)
    (h : tokens.IsChain fun s t => ¬ Juxtaposed s.kind t.kind) :
    (t :: tokens).IsChain fun s t => ¬ Juxtaposed s.kind t.kind := by
  refine List.isChain_cons.mpr ⟨fun s hs hj => ?_, h⟩
  rw [ended_of_juxtaposed hj] at ht
  cases ht

theorem isChain_append_cons {t : Token} {a b : List Token} (ht : t.kind.startsOperand = false)
    (ha : a.IsChain fun s t => ¬ Juxtaposed s.kind t.kind)
    (hb : (t :: b).IsChain fun s t => ¬ Juxtaposed s.kind t.kind) :
    (a ++ t :: b).IsChain fun s t => ¬ Juxtaposed s.kind t.kind := by
  refine List.isChain_append.mpr ⟨ha, hb, fun s hs k hk hj => ?_⟩
  obtain rfl := Option.some.inj hk
  rw [startsOperand_of_juxtaposed hj] at ht
  cases ht

theorem Derives.isChain {n : Nat} {tokens : List Token} {tree : Tree} (h : Derives n tokens tree) :
    tokens.IsChain fun s t => ¬ Juxtaposed s.kind t.kind := by
  induction h with
  | @operation n a b t op left right hl ht hr ihl ihr =>
    obtain ⟨hs, he⟩ := ht.not_operand
    exact isChain_append_cons hs ihl (isChain_cons_of_not_ended he ihr)
  | tighter h ih => exact ih
  | number ht => exact .singleton _
  | name ht => exact .singleton _
  | @call f o c text a tree hf ho h hc ih =>
    refine List.isChain_cons.mpr ⟨?_, isChain_cons_of_not_ended (by rw [ho]; rfl)
      (isChain_append_cons (by rw [hc]; rfl) ih (.singleton _))⟩
    intro s hs
    obtain rfl := Option.some.inj hs
    simp [hf, ho, Juxtaposed]
  | @group o c a tree ho h hc ih =>
    exact isChain_cons_of_not_ended (by rw [ho]; rfl)
      (isChain_append_cons (by rw [hc]; rfl) ih (.singleton _))

/-- What may stand behind an operand: the end, an operator or a closing parenthesis. -/
def Stops (rest : List Token) : Prop :=
  ∀ t after, rest = t :: after → t.kind.startsOperand = false ∧ WellPlaced (some t.kind) after

def OperandFirst (depth : Nat) (tokens : List Token) : Prop :=
  ∃ p rest tree, tokens = p ++ rest ∧ rest.length < tokens.length ∧ Derives 4 p tree ∧ Stops rest ∧
    rest.foldlM Token.nest depth = some 0

/-- An expression stands first, up to the end or a parenthesis that closes one of the `depth` open
ones. -/
def ExpressionFirst (depth : Nat) (tokens : List Token) : Prop :=
  ∃ a rest tree, tokens = a ++ rest ∧ Derives 0 a tree ∧ (rest = [] ∧ depth = 0 ∨
    ∃ c after d, rest = c :: after ∧ c.kind = .closeParen ∧ depth = d + 1 ∧ Stops after ∧
      after.foldlM Token.nest d = some 0)

theorem startsOperand_of_follows {last : Option Token.Kind} {kind : Token.Kind}
    (h : follows last kind) : (∃ text, last = some (.identifier text) ∧ kind = .openParen) ∨
      kind.startsOperand = !ended last := by
  unfold follows at h
  split at h
  · exact .inl ⟨_, rfl, rfl⟩
  · exact .inr (Bool.eq_not.mpr (bne_iff_ne.mp h))

theorem stops_of_wellPlaced {last : Token.Kind} {rest : List Token} (hl : ended (some last))
    (hcall : ∀ text, last = .identifier text → ∀ o ∈ rest.head?, o.kind ≠ .openParen)
    (hw : WellPlaced (some last) rest) : Stops rest := by
  rintro t after rfl
  obtain ⟨hf, hafter⟩ := hw
  refine ⟨?_, hafter⟩
  rcases startsOperand_of_follows hf with ⟨text, ht, ho⟩ | hs
  · exact absurd ho (hcall text (Option.some.inj ht) t rfl)
  · rw [hs, hl]
    rfl

theorem exists_sign {kind : Token.Kind} (hs : kind.startsOperand = false)
    (hc : kind ≠ .closeParen) : ∃ n op, Sign n kind op := by
  cases kind with
  | equals => exact ⟨_, _, .assign⟩
  | plus => exact ⟨_, _, .add⟩
  | minus => exact ⟨_, _, .sub⟩
  | star => exact ⟨_, _, .mul⟩
  | slash => exact ⟨_, _, .div⟩
  | caret => exact ⟨_, _, .pow⟩
  | closeParen => exact absurd rfl hc
  | _ => cases hs

variable {depth : Nat} {tokens : List Token}

theorem ExpressionFirst.enclosed (h : ExpressionFirst (depth + 1) tokens) :
    ∃ a c after tree, tokens = a ++ c :: after ∧ Derives 0 a tree ∧ c.kind = .closeParen ∧
      Stops after ∧ after.foldlM Token.nest depth = some 0 := by
  obtain ⟨a, rest, tree, rfl, ha, ⟨-, hd⟩ | ⟨c, after, d, rfl, hc, hd, hs, hn⟩⟩ := h
  · cases hd
  · obtain rfl := Nat.succ.inj hd
    exact ⟨a, c, after, tree, rfl, ha, hc, hs, hn⟩

theorem ExpressionFirst.call {f o : Token} {text : String} (h : ExpressionFirst (depth + 1) tokens)
    (hf : f.kind = .identifier text) (ho : o.kind = .openParen) :
    OperandFirst depth (f :: o :: tokens) := by
  obtain ⟨a, c, rest, tree, rfl, ha, hc, hstops, hd⟩ := h.enclosed
  refine ⟨f :: o :: (a ++ [c]), rest, _, by simp, ?_, .call hf ho ha hc, hstops, hd⟩
  simp only [List.length_cons, List.length_append]
  omega

theorem ExpressionFirst.group {o : Token} (h : ExpressionFirst (depth + 1) tokens)
    (ho : o.kind = .openParen) : OperandFirst depth (o :: tokens) := by
  obtain ⟨a, c, rest, tree, rfl, ha, hc, hstops, hd⟩ := h.enclosed
  refine ⟨o :: (a ++ [c]), rest, _, by simp, ?_, .group ho ha hc, hstops, hd⟩
  simp only [List.length_cons, List.length_append]
  omega

theorem WellPlaced.startsOperand {last : Option Token.Kind} {t : Token}
    (hw : WellPlaced last (t :: tokens)) (hl : ended last = false) : t.kind.startsOperand := by
  rcases startsOperand_of_follows hw.1 with ⟨text, ht, -⟩ | hs
  · rw [ht] at hl
    cases hl
  · rw [hs, hl]
    rfl

theorem operandFirst_of_wellPlaced {last : Option Token.Kind} (hl : ended last = false)
    (hw : WellPlaced last tokens) (hd : tokens.foldlM Token.nest depth = some 0)
    (ih : ∀ {after}, after.length < tokens.length → WellPlaced (some .openParen) after →
      after.foldlM Token.nest (depth + 1) = some 0 → ExpressionFirst (depth + 1) after) :
    OperandFirst depth tokens := by
  cases tokens with
  | nil => exact absurd hw (by simp [WellPlaced, hl])
  | cons t rest =>
    have hs := hw.startsOperand hl
    have hrest := hw.2
    rw [foldlM_nest_cons] at hd
    cases hk : t.kind with
    | number text =>
      rw [hk] at hrest hd
      have hstops := stops_of_wellPlaced rfl (fun text h => by cases h) hrest
      exact ⟨[t], rest, _, rfl, by simp, .number hk, hstops, hd⟩
    | identifier text =>
      rw [hk] at hrest hd
      by_cases hcall : ∃ o after, rest = o :: after ∧ o.kind = .openParen
      · obtain ⟨o, after, rfl, ho⟩ := hcall
        have hafter := hrest.2
        change (o :: after).foldlM Token.nest depth = some 0 at hd
        rw [foldlM_nest_open ho] at hd
        rw [ho] at hafter
        have hlt : after.length < (t :: o :: after).length := by
          simp only [List.length_cons]
          omega
        exact (ih hlt hafter hd).call hk ho
      · have hstops : Stops rest := by
          apply stops_of_wellPlaced rfl _ hrest
          intro text' h o ho hopen
          obtain ⟨after, rfl⟩ := List.head?_eq_some_iff.mp ho
          exact hcall ⟨o, after, rfl, hopen⟩
        exact ⟨[t], rest, _, rfl, by simp, .name hk, hstops, hd⟩
    | openParen =>
      rw [hk] at hrest hd
      exact (ih (Nat.lt_succ_self _) hrest hd).group hk
    | _ => rw [hk] at hs; cases hs

theorem OperandFirst.expressionFirst (h : OperandFirst depth tokens)
    (ih : ∀ {t after}, ended (some t) = false → after.length < tokens.length →
      WellPlaced (some t) after → after.foldlM Token.nest depth = some 0 →
      ExpressionFirst depth after) : ExpressionFirst depth tokens := by
  obtain ⟨p, rest, left, rfl, hlen, hp, hstops, hd⟩ := h
  cases rest with
  | nil =>
    obtain rfl := Option.some.inj hd
    exact ⟨p, [], left, rfl, hp.looser (Nat.zero_le 4), .inl ⟨rfl, rfl⟩⟩
  | cons t after =>
    obtain ⟨hs, hafter⟩ := hstops t after rfl
    rw [foldlM_nest_cons] at hd
    by_cases hc : t.kind = .closeParen
    · rw [hc] at hafter hd
      have hstops' := stops_of_wellPlaced rfl (fun text h => by cases h) hafter
      cases depth with
      | zero => cases hd
      | succ d =>
        exact ⟨p, t :: after, left, rfl, hp.looser (Nat.zero_le 4),
          .inr ⟨t, after, d, rfl, hc, rfl, hstops', hd⟩⟩
    · -- The operand and its operator go in front of the expression behind them.
      obtain ⟨n, op, ht⟩ := exists_sign hs hc
      rw [(of_role_operator ht.role_eq.1 none depth).2] at hd
      have hlt : after.length < (p ++ t :: after).length := by
        simp only [List.length_append, List.length_cons]
        omega
      obtain ⟨a, rest, tree, rfl, ha, hrest⟩ := ih ht.not_operand.2 hlt hafter hd
      obtain ⟨tree', h⟩ := Derives.exists_prepend hp ht ha
      rw [Nat.zero_min] at h
      exact ⟨p ++ t :: a, rest, tree', by simp, h, hrest⟩

theorem expressionFirst_of_wellPlaced {last : Option Token.Kind} (hl : ended last = false)
    (hw : WellPlaced last tokens) (hd : tokens.foldlM Token.nest depth = some 0) :
    ExpressionFirst depth tokens := by
  induction hn : tokens.length using Nat.strongRecOn generalizing tokens last depth with
  | ind n ih =>
    refine (operandFirst_of_wellPlaced hl hw hd ?_).expressionFirst ?_
    · intro after hlt hw hd
      exact ih _ (hn ▸ hlt) rfl hw hd rfl
    · intro t after hl hlt hw hd
      exact ih _ (hn ▸ hlt) hl hw hd rfl

theorem exists_derives_of_wellPlaced {tokens : List Token} (hw : WellPlaced none tokens)
    (hd : tokens.foldlM Token.nest 0 = some 0) : ∃ tree, Derives 0 tokens tree := by
  obtain ⟨a, rest, tree, rfl, ha, ⟨rfl, -⟩ | ⟨c, after, d, -, -, hd, -⟩⟩ :=
    expressionFirst_of_wellPlaced rfl hw hd
  · exact ⟨tree, by rwa [List.append_nil]⟩
  · cases hd

/-- Among the texts that have a program, the infix expressions are those in which no operand stands
right behind another one. -/
theorem Program.derives_iff_of_ofString {source : String} {p : Program}
    (h : Program.ofString source = .ok p) :
    (∃ tree, Derives 0 (Reader.ofString source).tokens.1 tree) ↔
      (Reader.ofString source).tokens.1.IsChain fun s t => ¬ Juxtaposed s.kind t.kind := by
  obtain ⟨t, ht, -⟩ := Program.ofString_eq_ok_iff.mp h
  obtain ⟨hnest, hwell⟩ := Tree.wellPlaced_of_ofString ht
  constructor
  · rintro ⟨tree, hd⟩
    exact hd.isChain
  · intro hj
    exact exists_derives_of_wellPlaced (hwell hj) hnest

theorem Program.derives_iff_of_ofString_difference :
    let source := "sin(x)-pi"
    let p : Program := ⟨[.loadX, .call .sin, .loadConstant NamedConstant.pi.value, .arithmetic .sub], 2⟩
    Program.ofString source = .ok p ∧ ((∃ tree, Derives 0 (Reader.ofString source).tokens.1 tree) ↔
      (Reader.ofString source).tokens.1.IsChain fun s t => ¬ Juxtaposed s.kind t.kind) := by
  intro source p
  have ht : Tree.ofString source = .ok (node (.arithmetic .sub) ⟨6, 7⟩
      (node .call ⟨0, 3⟩ (leaf (.name "sin") ⟨0, 3⟩) (leaf (.name "x") ⟨4, 5⟩) ⟨0, 5⟩)
      (leaf (.name "pi") ⟨7, 9⟩) ⟨0, 9⟩) := by decide +kernel
  have h : Program.ofString source = .ok p := by
    rw [Program.ofString, ht]
    exact congrArg (Except.mapError CompileError.build) (build_eq_code _)
  exact ⟨h, derives_iff_of_ofString h⟩

theorem Program.ofString_operator_behind :
    let source := "x pi +"
    Program.ofString source =
        .ok ⟨[.loadX, .loadConstant NamedConstant.pi.value, .arithmetic .add], 2⟩ ∧
      ¬ ∃ tree, Derives 0 (Reader.ofString source).tokens.1 tree := by
  intro source
  have ht : Tree.ofString source = .ok (node (.arithmetic .add) ⟨5, 6⟩ (leaf (.name "x") ⟨0, 1⟩)
      (leaf (.name "pi") ⟨2, 4⟩) ⟨0, 6⟩) := by decide +kernel
  constructor
  · rw [Program.ofString, ht]
    exact congrArg (Except.mapError CompileError.build) (build_eq_code _)
  rintro ⟨tree, h⟩
  have htokens : (Reader.ofString source).tokens.1 =
      [⟨.identifier "x", ⟨0, 1⟩⟩, ⟨.identifier "pi", ⟨2, 4⟩⟩, ⟨.plus, ⟨5, 6⟩⟩] := by decide +kernel
  have hchain := h.isChain
  rw [htokens] at hchain
  exact absurd hchain (by decide)

end Formula
