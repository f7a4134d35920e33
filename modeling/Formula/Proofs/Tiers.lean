import Formula.Proofs.Unclosed
import Formula.Proofs.Verdict

namespace Formula

theorem Operator.precedence_lt_call {op : Operator} (h : op ≠ .call) :
    op.precedence < call.precedence := by
  cases op with
  | assign => decide
  | arithmetic op => cases op <;> decide
  | call => exact absurd rfl h

namespace Tree.Yard

/-- From bottom to top: operators that are no calls, each of higher precedence than the one below
it, then calls. -/
def Rising (piece : List Pending) : Prop :=
  ∃ (binary : List (Operator × Span)) (names : List Span),
    piece = waiting binary ++ names.map (.operator .call) ∧ (∀ o ∈ binary, o.1 ≠ .call) ∧
      binary.Pairwise fun a b => a.1.precedence < b.1.precedence

def Tiered (pending : List Pending) : Prop :=
  ∀ piece ∈ pending.splitOnP Pending.isParen, Rising piece.reverse

variable {piece pending top : List Pending} {below : List (List Pending)} {op : Operator}
  {sign span : Span} {y z : Yard} {t : Token} {tokens : List Token}

theorem rising_nil : Rising [] := ⟨[], [], rfl, by simp, .nil⟩

theorem Rising.call (h : Rising piece) (name : Span) : Rising (piece ++ [.operator .call name]) := by
  obtain ⟨binary, names, rfl, hb, hr⟩ := h
  exact ⟨binary, names ++ [name], by simp, hb, hr⟩

theorem Rising.of_append_singleton {p : Pending} (h : Rising (piece ++ [p])) : Rising piece := by
  obtain ⟨binary, names, hpiece, hb, hr⟩ := h
  rcases names.eq_nil_or_concat with rfl | ⟨names, name, rfl⟩
  · rcases binary.eq_nil_or_concat with rfl | ⟨binary, top, rfl⟩
    · simp [waiting] at hpiece
    · simp only [List.concat_eq_append, waiting, List.map_append, List.map_nil, List.append_nil]
        at hpiece hb hr
      obtain ⟨rfl, -⟩ := List.append_inj' hpiece rfl
      refine ⟨binary, [], (List.append_nil _).symm, ?_, (List.pairwise_append.mp hr).1⟩
      exact fun o ho => hb o (List.mem_append_left _ ho)
  · rw [List.concat_eq_append, List.map_append, ← List.append_assoc] at hpiece
    obtain ⟨rfl, -⟩ := List.append_inj' hpiece rfl
    exact ⟨binary, names, rfl, hb, hr⟩

theorem lt_of_getLast_lt {binary : List (Operator × Span)} {n : Nat}
    (hr : binary.Pairwise fun a b => a.1.precedence < b.1.precedence)
    (htop : ∀ o, binary.getLast? = some o → o.1.precedence < n) :
    ∀ o ∈ binary, o.1.precedence < n := by
  rcases binary.eq_nil_or_concat with rfl | ⟨lower, top, rfl⟩
  · simp
  · rw [List.concat_eq_append] at hr htop ⊢
    obtain ⟨-, -, hlower⟩ := List.pairwise_append.mp hr
    have hlast : top.1.precedence < n := htop top List.getLast?_concat
    refine List.forall_mem_append.mpr ⟨?_, List.forall_mem_singleton.mpr hlast⟩
    intro o ho
    exact (hlower o ho top List.mem_cons_self).trans hlast

theorem Rising.operator (h : Rising piece.reverse) (hop : op ≠ .call)
    (hl : Loose op.precedence piece) (sign : Span) :
    Rising (piece.reverse ++ [.operator op sign]) := by
  obtain ⟨binary, names, hpiece, hb, hr⟩ := h
  have htop : ∀ o s, piece.reverse.getLast? = some (.operator o s) →
      o.precedence < op.precedence := by
    rw [List.getLast?_reverse]
    exact hl
  rw [hpiece] at htop ⊢
  rcases names.eq_nil_or_concat with rfl | ⟨names, name, rfl⟩
  · rw [List.map_nil, List.append_nil] at htop ⊢
    have hlt : ∀ o ∈ binary, o.1.precedence < op.precedence := by
      apply lt_of_getLast_lt hr
      intro o ho
      exact htop o.1 o.2 (by simp [waiting, ho])
    refine ⟨binary ++ [(op, sign)], [], by simp [waiting], ?_, ?_⟩
    · exact List.forall_mem_append.mpr ⟨hb, List.forall_mem_singleton.mpr hop⟩
    · refine List.pairwise_append.mpr ⟨hr, List.pairwise_singleton _ _, ?_⟩
      intro a ha
      exact List.forall_mem_singleton.mpr (hlt a ha)
  · -- A call on top would bind tighter than the operator.
    have hcall : Operator.call.precedence < op.precedence := htop .call name (by simp)
    exact absurd hcall (Operator.precedence_lt_call hop).asymm

theorem exists_top (pending : List Pending) :
    ∃ top below, pending.splitOnP Pending.isParen = top :: below :=
  List.exists_cons_of_ne_nil (List.splitOnP_ne_nil _ _)

theorem splitOnP_operator (h : pending.splitOnP Pending.isParen = top :: below) (op : Operator)
    (sign : Span) :
    (.operator op sign :: pending).splitOnP Pending.isParen = (.operator op sign :: top) :: below := by
  rw [List.splitOnP_cons_eq_if_modifyHead, h]
  rfl

theorem splitOnP_paren (span : Span) (pending : List Pending) :
    (.paren span :: pending).splitOnP Pending.isParen = [] :: pending.splitOnP Pending.isParen := by
  rw [List.splitOnP_cons_eq_if_modifyHead]
  rfl

theorem loose_top {n : Nat} (h : pending.splitOnP Pending.isParen = top :: below)
    (hl : Loose n pending) : Loose n top := by
  cases pending with
  | nil =>
    rw [List.splitOnP_nil] at h
    obtain ⟨rfl, -⟩ := List.cons.inj h
    exact hl
  | cons p pending =>
    cases p with
    | operator op sign =>
      obtain ⟨rest, others, hrest⟩ := exists_top pending
      rw [splitOnP_operator hrest] at h
      obtain ⟨rfl, -⟩ := List.cons.inj h
      exact hl
    | paren span =>
      rw [splitOnP_paren] at h
      obtain ⟨rfl, -⟩ := List.cons.inj h
      intro op sign h
      cases h

theorem tiered_nil : Tiered [] := by
  rw [Tiered, List.splitOnP_nil, List.forall_mem_singleton]
  exact rising_nil

theorem tiered_paren_iff : Tiered (.paren span :: pending) ↔ Tiered pending := by
  rw [Tiered, splitOnP_paren, List.forall_mem_cons]
  exact and_iff_right rising_nil

theorem tiered_iff (h : pending.splitOnP Pending.isParen = top :: below) :
    Tiered pending ↔ Rising top.reverse ∧ ∀ piece ∈ below, Rising piece.reverse := by
  rw [Tiered, h, List.forall_mem_cons]

theorem tiered_operator_iff (h : pending.splitOnP Pending.isParen = top :: below) :
    Tiered (.operator op sign :: pending) ↔
      Rising (top.reverse ++ [.operator op sign]) ∧ ∀ piece ∈ below, Rising piece.reverse := by
  rw [tiered_iff (splitOnP_operator h op sign), List.reverse_cons]

theorem Tiered.call (h : Tiered pending) (name : Span) :
    Tiered (.operator .call name :: pending) := by
  obtain ⟨top, below, hsplit⟩ := exists_top pending
  obtain ⟨htop, hbelow⟩ := (tiered_iff hsplit).mp h
  exact (tiered_operator_iff hsplit).mpr ⟨htop.call name, hbelow⟩

theorem Tiered.operator (h : Tiered pending) (hop : op ≠ .call) (hl : Loose op.precedence pending)
    (sign : Span) : Tiered (.operator op sign :: pending) := by
  obtain ⟨top, below, hsplit⟩ := exists_top pending
  obtain ⟨htop, hbelow⟩ := (tiered_iff hsplit).mp h
  exact (tiered_operator_iff hsplit).mpr ⟨htop.operator hop (loose_top hsplit hl) sign, hbelow⟩

theorem Tiered.of_operator (h : Tiered (.operator op sign :: pending)) : Tiered pending := by
  obtain ⟨top, below, hsplit⟩ := exists_top pending
  obtain ⟨htop, hbelow⟩ := (tiered_operator_iff hsplit).mp h
  exact (tiered_iff hsplit).mpr ⟨htop.of_append_singleton, hbelow⟩

theorem Tiered.of_waiting {ops : List (Operator × Span)} (h : Tiered (waiting ops ++ pending)) :
    Tiered pending := by
  induction ops with
  | nil => exact h
  | cons o ops ih => exact ih h.of_operator

theorem Step.tiered (h : Step y t z) (hy : Tiered y.pending) : Tiered z.pending := by
  cases h with
  | operand => exact hy
  | operator ht hpending hops hl =>
    -- Operators leave from the top only, and what is left there binds looser than the one to come.
    rw [hpending] at hy
    exact hy.of_waiting.operator (Token.Kind.ne_call_of_role ht) hl t.span
  | @call f => exact tiered_paren_iff.mpr (hy.call f.span)
  | opening => exact tiered_paren_iff.mpr hy
  | closing ht hpending =>
    rw [hpending] at hy
    exact tiered_paren_iff.mp hy.of_waiting

theorem tiered_of_run (hrun : tokens.foldlM push .empty = .ok y) : Tiered y.pending :=
  run_induction (motive := fun _ y => Tiered y.pending) tiered_nil (fun _ hy hs => hs.tiered hy) hrun

theorem parens_of_run (hrun : tokens.foldlM push .empty = .ok y) :
    (parens y.pending).reverse = (unclosed tokens).map Token.span := by
  obtain ⟨-, stack, hopens, hparens⟩ := tracks_of_run hrun
  rw [hparens, hopens.unclosed_eq, List.map_reverse]

end Tree.Yard

namespace Reader

open Formula.Tree Formula.Tree.Yard

variable {r : Reader} {before after : List Token} {y : Yard}

/-- Behind every token that has been read, the stack holds the parentheses not closed so far, in
the order of the text, and between them operators of rising precedence with calls on top. -/
theorem stack_of_read (hread : r.tokens.1 = before ++ after)
    (hrun : before.foldlM Yard.push .empty = .ok y) :
    (∃ s : Reader, r.fill .empty = s.fill y ∧ s.tokens.1 = after) ∧
      (∀ piece ∈ y.pending.splitOnP Pending.isParen, Rising piece.reverse) ∧
      (parens y.pending).reverse = (unclosed before).map Token.span := by
  refine ⟨exists_fill_of_tokens hread hrun, ?_, ?_⟩
  · exact tiered_of_run hrun
  · exact parens_of_run hrun

theorem stack_of_read_calls :
    let r := Reader.ofString "y=1+sin(x)cos(2*(3)^(x)"
    let before := r.tokens.1.take 18
    let after := r.tokens.1.drop 18
    let y : Yard := {
      placed := [.operand (.name "x") ⟨21, 22⟩, .operand (.number "3") ⟨17, 18⟩,
        .operand (.number "2") ⟨14, 15⟩, .operand (.name "cos") ⟨10, 13⟩,
        .operand (.name "x") ⟨8, 9⟩, .operand (.name "sin") ⟨4, 7⟩, .operand (.number "1") ⟨2, 3⟩,
        .operand (.name "y") ⟨0, 1⟩]
      pending := [.paren ⟨20, 21⟩, .operator (.arithmetic .pow) ⟨19, 20⟩,
        .operator (.arithmetic .mul) ⟨15, 16⟩, .paren ⟨13, 14⟩, .operator .call ⟨10, 13⟩,
        .operator .call ⟨4, 7⟩, .operator (.arithmetic .add) ⟨3, 4⟩, .operator .assign ⟨1, 2⟩]
      previous := some ⟨.identifier "x", ⟨21, 22⟩⟩ }
    r.tokens.1 = before ++ after ∧ before.foldlM Yard.push .empty = .ok y ∧
      (∃ s : Reader, r.fill .empty = s.fill y ∧ s.tokens.1 = after) ∧
      (∀ piece ∈ y.pending.splitOnP Pending.isParen, Rising piece.reverse) ∧
      (parens y.pending).reverse = (unclosed before).map Token.span := by
  intro r before after y
  have hread : r.tokens.1 = before ++ after := (List.take_append_drop 18 r.tokens.1).symm
  have hrun : before.foldlM Yard.push .empty = .ok y := by decide +kernel
  exact ⟨hread, hrun, stack_of_read hread hrun⟩

end Reader

end Formula
