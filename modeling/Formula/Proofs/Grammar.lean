import Formula.Proofs.Reduction
import Mathlib.Data.List.Pairwise

namespace Formula

namespace Tree

def firstStart : Tree → Nat
  | leaf _ span => span.start
  | node _ _ left _ _ => left.firstStart

def lastStop : Tree → Nat
  | leaf _ span => span.stop
  | node _ _ _ right _ => right.lastStop

def spanning (op : Operator) (sign : Span) (left right : Tree) : Tree :=
  node op sign left right ⟨left.firstStart, right.lastStop⟩

end Tree

open Formula.Tree

inductive Sign : Nat → Token.Kind → Operator → Prop
  | assign : Sign 0 .equals .assign
  | add : Sign 1 .plus (.arithmetic .add)
  | sub : Sign 1 .minus (.arithmetic .sub)
  | mul : Sign 2 .star (.arithmetic .mul)
  | div : Sign 2 .slash (.arithmetic .div)
  | pow : Sign 3 .caret (.arithmetic .pow)

/-- The derivations of infix expressions, with the tokens that they derive and the trees that they
stand for: `E n ::= E n op (E (n + 1)) | E (n + 1)`, where `op` is an operator of level `n`, and
`E 4 ::= number | name | name '(' (E 0) ')' | '(' (E 0) ')'`. -/
inductive Derives : Nat → List Token → Tree → Prop
  | operation {n : Nat} {a b : List Token} {t : Token} {op : Operator} {left right : Tree}
      (hl : Derives n a left) (ht : Sign n t.kind op) (hr : Derives (n + 1) b right) :
      Derives n (a ++ t :: b) (spanning op t.span left right)
  | tighter {n : Nat} {a : List Token} {tree : Tree} (h : Derives (n + 1) a tree) : Derives n a tree
  | number {t : Token} {text : String} (ht : t.kind = .number text) :
      Derives 4 [t] (leaf (.number text) t.span)
  | name {t : Token} {text : String} (ht : t.kind = .identifier text) :
      Derives 4 [t] (leaf (.name text) t.span)
  | call {f o c : Token} {text : String} {a : List Token} {tree : Tree}
      (hf : f.kind = .identifier text) (ho : o.kind = .openParen) (h : Derives 0 a tree)
      (hc : c.kind = .closeParen) :
      Derives 4 (f :: o :: (a ++ [c])) (spanning .call f.span (leaf (.name text) f.span) tree)
  | group {o c : Token} {a : List Token} {tree : Tree} (ho : o.kind = .openParen)
      (h : Derives 0 a tree) (hc : c.kind = .closeParen) : Derives 4 (o :: (a ++ [c])) tree

theorem Sign.role_eq {n : Nat} {kind : Token.Kind} {op : Operator} (h : Sign n kind op) :
    kind.role = .operator op ∧ op.precedence = n := by
  cases h <;> exact ⟨rfl, rfl⟩

theorem Sign.lt {n : Nat} {kind : Token.Kind} {op : Operator} (h : Sign n kind op) : n < 4 := by
  cases h <;> decide

namespace Derives

variable {n : Nat} {tokens : List Token} {tree : Tree}

theorem exists_first (h : Derives n tokens tree) : ∃ t ∈ tokens, t.span.start = tree.firstStart := by
  induction h with
  | @operation n a b t op left right hl ht hr ihl ihr =>
    obtain ⟨s, hs, he⟩ := ihl
    exact ⟨s, List.mem_append_left _ hs, he⟩
  | tighter h ih => exact ih
  | @number t text ht => exact ⟨t, by simp, rfl⟩
  | @name t text ht => exact ⟨t, by simp, rfl⟩
  | @call f o c text a tree hf ho h hc ih => exact ⟨f, by simp, rfl⟩
  | group ho h hc ih =>
    obtain ⟨s, hs, he⟩ := ih
    exact ⟨s, by simp [hs], he⟩

theorem exists_last (h : Derives n tokens tree) : ∃ t ∈ tokens, t.span.stop = tree.lastStop := by
  induction h with
  | @operation n a b t op left right hl ht hr ihl ihr =>
    obtain ⟨s, hs, he⟩ := ihr
    exact ⟨s, by simp [hs], he⟩
  | tighter h ih => exact ih
  | @number t text ht => exact ⟨t, by simp, rfl⟩
  | @name t text ht => exact ⟨t, by simp, rfl⟩
  | call hf ho h hc ih =>
    obtain ⟨s, hs, he⟩ := ih
    exact ⟨s, by simp [hs], he⟩
  | group ho h hc ih =>
    obtain ⟨s, hs, he⟩ := ih
    exact ⟨s, by simp [hs], he⟩

theorem span_eq (h : Derives n tokens tree) : tree.span = ⟨tree.firstStart, tree.lastStop⟩ := by
  induction h with
  | operation hl ht hr ihl ihr => rfl
  | tighter h ih => exact ih
  | number ht => rfl
  | name ht => rfl
  | call hf ho h hc ih => rfl
  | group ho h hc ih => exact ih

theorem rejoin_eq (h : Derives n tokens tree) (hn : ∀ t ∈ tokens, t.span.start < t.span.stop)
    (ho : tokens.Pairwise fun s t => s.span.stop ≤ t.span.start) : tree.rejoin = tree := by
  induction h with
  | @operation n a b t op left right hl ht hr ihl ihr =>
    obtain ⟨ha, htb, hat⟩ := List.pairwise_append.mp ho
    obtain ⟨ht', hb⟩ := List.pairwise_cons.mp htb
    have hleft := ihl (fun s hs => hn s (by simp [hs])) ha
    have hright := ihr (fun s hs => hn s (by simp [hs])) hb
    obtain ⟨first, hf, hfs⟩ := hl.exists_first
    obtain ⟨last, hm, hls⟩ := hr.exists_last
    have h1 := hat first hf t (by simp)
    have h2 := ht' last hm
    have h3 := hn first (by simp [hf])
    have h4 := hn last (by simp [hm])
    rw [spanning, rejoin, hleft, hright, join, hl.span_eq, hr.span_eq]
    congr 2
    · change min left.firstStart t.span.start = left.firstStart
      omega
    · change max right.lastStop t.span.stop = right.lastStop
      omega
  | tighter h ih => exact ih hn ho
  | number ht => rfl
  | name ht => rfl
  | @call f o c text a tree hf ho' h hc ih =>
    obtain ⟨hf', ho⟩ := List.pairwise_cons.mp ho
    obtain ⟨-, ho⟩ := List.pairwise_cons.mp ho
    obtain ⟨ha, -, -⟩ := List.pairwise_append.mp ho
    have htree := ih (fun s hs => hn s (by simp [hs])) ha
    obtain ⟨last, hm, hls⟩ := h.exists_last
    have h1 := hf' last (by simp [hm])
    have h2 := hn last (by simp [hm])
    rw [spanning, rejoin, rejoin, htree, join, h.span_eq]
    congr 2
    · exact Nat.min_self _
    · change max tree.lastStop f.span.stop = tree.lastStop
      omega
  | group ho' h hc ih =>
    obtain ⟨-, ho⟩ := List.pairwise_cons.mp ho
    obtain ⟨ha, -, -⟩ := List.pairwise_append.mp ho
    exact ih (fun s hs => hn s (by simp [hs])) ha

theorem looser {m : Nat} (h : Derives m tokens tree) (hn : n ≤ m) : Derives n tokens tree := by
  induction hn with
  | refl => exact h
  | step hle ih => exact ih h.tighter

theorem exists_prepend {k : Nat} {p : List Token} {t : Token} {op : Operator} {left : Tree}
    (hp : Derives 4 p left) (ht : Sign k t.kind op) (h : Derives n tokens tree) :
    ∃ tree, Derives (min n k) (p ++ t :: tokens) tree := by
  have hk := ht.lt
  have hfirst {m : Nat} {b : List Token} {right : Tree} (hkm : k < m) (hr : Derives m b right) :
      ∃ tree, Derives (min m k) (p ++ t :: b) tree := by
    rw [Nat.min_eq_right (Nat.le_of_lt hkm)]
    exact ⟨_, .operation (hp.looser (Nat.le_of_lt hk)) ht (hr.looser hkm)⟩
  induction h with
  | @operation n a b s op' l r hl hs hr ihl ihr =>
    -- A looser operator takes the whole as its right operand; any other goes into the left one.
    by_cases hkn : k < n
    · exact hfirst hkn (.operation hl hs hr)
    · rw [Nat.min_eq_left (Nat.le_of_not_lt hkn)] at ihl ⊢
      obtain ⟨tree, h⟩ := ihl
      rw [← List.cons_append, ← List.append_assoc]
      exact ⟨_, .operation h hs hr⟩
  | tighter h ih =>
    obtain ⟨tree, h⟩ := ih
    exact ⟨tree, h.looser (by omega)⟩
  | number ht => exact hfirst hk (.number ht)
  | name ht => exact hfirst hk (.name ht)
  | call hf ho h hc ih => exact hfirst hk (.call hf ho h hc)
  | group ho h hc ih => exact hfirst hk (.group ho h hc)

end Derives

end Formula
