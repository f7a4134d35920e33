import Formula.Proofs.Conservation
import Formula.Proofs.Segmentation

/-!
Where the parts of an expression stand in its text: a span covers characters of the text, and every
entry of an expression in postfix order keeps the span of a token.
-/

namespace Formula

open Text (byteSize isBlank byteSize_nil byteSize_append)
open Formula.Tree

/-- The span covers the characters `slice` of a text, and those behind them are `after`. -/
def Span.Covers (text : List Char) (s : Span) (slice after : List Char) : Prop :=
  ∃ before, text = before ++ slice ++ after ∧ s = ⟨byteSize before, byteSize (before ++ slice)⟩

theorem Reader.splits_ofString (source : String) : Splits source.toList 0
    (ofString source).tokens.1 (ofString source).tokens.2.1 :=
  (splits_tokens source.toList 0).1

namespace Reader.Splits

variable {text rest : List Char} {offset : Nat} {tokens before after : List Token} {s t : Token}
  {fault : Option LexError}

theorem exists_gap (h : Splits rest offset (t :: after) fault) : ∃ gap left,
    rest = gap ++ (t.kind.text.toList ++ left) ∧ (∀ c ∈ gap, isBlank c) ∧
      t.span = ⟨offset + byteSize gap, offset + byteSize (gap ++ t.kind.text.toList)⟩ ∧
      t.kind.StandsBefore left.head? ∧ Splits left t.span.stop after fault := by
  generalize htokens : t :: after = tokens at h
  induction h with
  | done offset => cases htokens
  | @blank c rest offset tokens fault hc h ih =>
    obtain ⟨gap, left, hrest, hgap, hspan, hstands, hleft⟩ := ih htokens
    refine ⟨c :: gap, left, by rw [hrest, List.cons_append], ?_, ?_, hstands, hleft⟩
    · exact List.forall_mem_cons.mpr ⟨hc, hgap⟩
    · rw [hspan, List.cons_append, Text.byteSize_cons, Text.byteSize_cons, Nat.add_assoc,
        Nat.add_assoc]
  | @token kind rest offset tokens fault hk h ih =>
    obtain ⟨rfl, rfl⟩ := List.cons.inj htokens
    exact ⟨[], rest, rfl, by simp, rfl, hk, h⟩
  | stray hc => cases htokens

theorem exists_split (h : Splits rest offset (before ++ t :: after) fault) : ∃ read left,
    rest = read ++ (t.kind.text.toList ++ left) ∧
      t.span = ⟨offset + byteSize read, offset + byteSize (read ++ t.kind.text.toList)⟩ ∧
      t.kind.StandsBefore left.head? ∧ Splits left t.span.stop after fault := by
  induction before generalizing rest offset with
  | nil =>
    obtain ⟨gap, left, hrest, -, hspan, hstands, hleft⟩ := h.exists_gap
    exact ⟨gap, left, hrest, hspan, hstands, hleft⟩
  | cons s before ih =>
    obtain ⟨gap, next, hrest, -, hs, -, hnext⟩ := h.exists_gap
    obtain ⟨read, left, hread, hspan, hstands, hleft⟩ := ih hnext
    refine ⟨gap ++ s.kind.text.toList ++ read, left, by simp [hrest, hread], ?_, hstands, hleft⟩
    rw [hspan, hs]
    simp only [byteSize_append, Nat.add_assoc]

theorem exists_covers (h : Splits text 0 tokens fault) (ht : t ∈ tokens) :
    ∃ left, t.span.Covers text t.kind.text.toList left ∧ t.kind.StandsBefore left.head? := by
  obtain ⟨read, left, htext, hspan, hstands⟩ := h.written t ht
  exact ⟨left, ⟨read, htext, by simpa only [Nat.zero_add] using hspan⟩, hstands⟩

theorem exists_covers_neighbours (h : Splits text 0 (before ++ s :: t :: after) fault) :
    ∃ gap left, (∀ c ∈ gap, isBlank c) ∧
      s.span.Covers text s.kind.text.toList (gap ++ (t.kind.text.toList ++ left)) ∧
      Span.Covers text ⟨s.span.start, t.span.stop⟩
        (s.kind.text.toList ++ (gap ++ t.kind.text.toList)) left := by
  obtain ⟨read, next, htext, hs, -, hnext⟩ := h.exists_split
  obtain ⟨gap, left, rfl, hgap, ht, -⟩ := hnext.exists_gap
  rw [Nat.zero_add, Nat.zero_add] at hs
  refine ⟨gap, left, hgap, ⟨read, by simp [htext], hs⟩, read, by simp [htext], ?_⟩
  rw [ht, hs]
  simp only [byteSize_append, Nat.add_assoc]

end Reader.Splits

theorem mem_calls {tokens : List Token} {op : Operator} {sign : Span}
    (h : (op, sign) ∈ calls tokens) : op = .call ∧ ∃ before f t after text,
      tokens = before ++ f :: t :: after ∧ f.kind = .identifier text ∧ t.kind = .openParen ∧
        f.span = sign := by
  induction tokens with
  | nil => cases h
  | cons s tokens ih =>
    cases tokens with
    | nil => cases h
    | cons t tokens =>
      rcases List.mem_append.mp h with hcall | htokens
      · unfold Token.call? at hcall
        split at hcall
        · next text hs ht =>
          obtain ⟨rfl, rfl⟩ := Prod.mk.inj (List.mem_singleton.mp hcall)
          exact ⟨rfl, [], s, t, tokens, text, rfl, hs, ht, rfl⟩
        · cases hcall
      · obtain ⟨hop, before, f, u, after, text, hsplit, hf⟩ := ih htokens
        exact ⟨hop, s :: before, f, u, after, text, by rw [hsplit]; rfl, hf⟩

def Leaf.kind : Leaf → Token.Kind
  | name text => .identifier text
  | number text => .number text

namespace Tree

namespace Item

def span : Item → Span
  | operand _ span | operator _ span => span

def ComesFrom (tokens : List Token) : Item → Prop
  | operand l span => ∃ t ∈ tokens, t.leaf? = some (l, span)
  | operator op sign => (∃ t ∈ tokens, t.operator? = some (op, sign)) ∨ (op, sign) ∈ calls tokens

end Item

variable {tokens : List Token} {items : List Item} {y : Yard}

namespace Yard

theorem comesFrom_of_conserved (hleaves : y.leaves = tokens.filterMap Token.leaf?)
    (hoperators : y.operators = tokens.filterMap Token.operator? + calls tokens) :
    ∀ i ∈ y.placed, i.ComesFrom tokens := by
  intro i hi
  cases i with
  | operand l span =>
    have hplaced : (l, span) ∈ y.leaves :=
      List.mem_reverse.mpr (List.mem_filterMap.mpr ⟨_, hi, rfl⟩)
    rw [hleaves] at hplaced
    exact List.mem_filterMap.mp hplaced
  | operator op sign =>
    have hplaced : (op, sign) ∈ y.operators :=
      Multiset.mem_add.mpr (.inl (List.mem_filterMap.mpr ⟨_, hi, rfl⟩))
    rw [hoperators] at hplaced
    exact (Multiset.mem_add.mp hplaced).imp_left List.mem_filterMap.mp

theorem conserved_of_run (hrun : tokens.foldlM push .empty = .ok y) :
    y.leaves = tokens.filterMap Token.leaf? ∧
      y.operators = tokens.filterMap Token.operator? + calls tokens := by
  have hempty : Yard.empty.operators = 0 := rfl
  obtain ⟨hleaves, hoperators⟩ := foldlM_push_conserves hrun
  rw [hempty, zero_add] at hoperators
  exact ⟨hleaves, hoperators⟩

theorem comesFrom_of_run (hrun : tokens.foldlM push .empty = .ok y) :
    ∀ i ∈ y.placed, i.ComesFrom tokens := by
  obtain ⟨hleaves, hoperators⟩ := conserved_of_run hrun
  exact comesFrom_of_conserved hleaves hoperators

theorem comesFrom_of_items (hrun : tokens.foldlM push .empty = .ok y)
    (hitems : y.items = .ok items) : ∀ i ∈ items, i.ComesFrom tokens := by
  obtain ⟨hleaves, hoperators⟩ := conserved_of_run hrun
  obtain ⟨ops, hops, rfl⟩ := exists_waiting_of_drain hitems
  obtain ⟨placed, pending, last⟩ := y
  obtain rfl : pending = waiting ops ++ [] := hops.trans (List.append_nil _).symm
  rw [← leaves_flush ops [] last] at hleaves
  rw [operators_waiting ops last last] at hoperators
  intro i hi
  exact comesFrom_of_conserved hleaves hoperators i (List.mem_reverse.mp hi)

end Yard

theorem comesFrom_of_ofString {source : String} {t : Tree} (h : Tree.ofString source = .ok t) :
    ∀ i ∈ t.toItems, i.ComesFrom (Reader.ofString source).tokens.1 := by
  obtain ⟨-, y, items, hrun, hitems, hreduce⟩ := ofString_eq_ok_iff.mp h
  rw [toItems_of_ofItems hreduce]
  exact Yard.comesFrom_of_items hrun hitems

theorem exists_standsBefore_of_ofString {source : String} {t : Tree}
    (h : Tree.ofString source = .ok t) {l : Leaf} {span : Span} (hl : .operand l span ∈ t.toItems) :
    ∃ next, l.kind.StandsBefore next := by
  obtain ⟨s, hs, hleaf⟩ := comesFrom_of_ofString h _ hl
  obtain ⟨after, -, hstands⟩ := (Reader.splits_ofString source).exists_covers hs
  obtain ⟨kind, place⟩ := s
  refine ⟨after.head?, ?_⟩
  cases kind <;> cases hleaf <;> exact hstands

end Tree

end Formula
