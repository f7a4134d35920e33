import Formula.Tree.Parser

namespace Formula.Tree.Yard

def waiting (ops : List (Operator × Span)) : List Pending := ops.map fun o => .operator o.1 o.2

def flush (ops : List (Operator × Span)) (placed : List Item) : List Item :=
  (ops.map fun o => Item.operator o.1 o.2).reverse ++ placed

theorem flush_cons (o : Operator × Span) (ops : List (Operator × Span)) (placed : List Item) :
    flush (o :: ops) placed = flush ops (.operator o.1 o.2 :: placed) := by
  simp [flush]

theorem flush_append (a b : List (Operator × Span)) (placed : List Item) :
    flush (a ++ b) placed = flush b (flush a placed) := by
  simp [flush]

theorem close_waiting (ops : List (Operator × Span)) (pending : List Pending) (placed : List Item) :
    close (waiting ops ++ pending) placed = close pending (flush ops placed) := by
  induction ops generalizing placed with
  | nil => rfl
  | cons o ops ih =>
    rw [flush_cons, ← ih]
    rfl

theorem drain_waiting (ops : List (Operator × Span)) (pending : List Pending) (placed : List Item) :
    drain (waiting ops ++ pending) placed = drain pending (flush ops placed) := by
  induction ops generalizing placed with
  | nil => rfl
  | cons o ops ih =>
    rw [flush_cons, ← ih]
    rfl

theorem unwind_waiting {n : Nat} {ops : List (Operator × Span)} (h : ∀ o ∈ ops, n ≤ o.1.precedence)
    (pending : List Pending) (placed : List Item) :
    unwind n (waiting ops ++ pending) placed = unwind n pending (flush ops placed) := by
  induction ops generalizing placed with
  | nil => rfl
  | cons o ops ih =>
    have ho : n ≤ o.1.precedence := h o (by simp)
    rw [flush_cons, ← ih (fun o ho => h o (by simp [ho]))]
    simp [waiting, unwind, ho]

theorem exists_waiting_of_close {pending pending' : List Pending} {placed placed' : List Item}
    (h : close pending placed = some (pending', placed')) :
    ∃ ops span, pending = waiting ops ++ .paren span :: pending' ∧ placed' = flush ops placed := by
  induction pending generalizing placed with
  | nil => cases h
  | cons p pending ih =>
    cases p with
    | operator op sign =>
      obtain ⟨ops, span, rfl, rfl⟩ := ih h
      exact ⟨(op, sign) :: ops, span, rfl, (flush_cons (op, sign) ops placed).symm⟩
    | paren span =>
      obtain ⟨rfl, rfl⟩ := Prod.mk.inj (Option.some.inj h)
      exact ⟨[], span, rfl, rfl⟩

theorem exists_waiting_of_drain {pending : List Pending} {placed items : List Item}
    (h : drain pending placed = .ok items) :
    ∃ ops, pending = waiting ops ∧ items = (flush ops placed).reverse := by
  induction pending generalizing placed with
  | nil =>
    obtain rfl := Except.ok.inj h
    exact ⟨[], rfl, rfl⟩
  | cons p pending ih =>
    cases p with
    | operator op sign =>
      obtain ⟨ops, rfl, rfl⟩ := ih h
      exact ⟨(op, sign) :: ops, rfl, congrArg _ (flush_cons (op, sign) ops placed).symm⟩
    | paren span => cases h

/-- The stack ends, at a parenthesis or an operator that binds looser than those of level `n`. -/
def Loose (n : Nat) (pending : List Pending) : Prop :=
  ∀ op sign, pending.head? = some (.operator op sign) → op.precedence < n

theorem loose_paren (n : Nat) (span : Span) (pending : List Pending) :
    Loose n (.paren span :: pending) := by
  intro op sign h
  cases h

theorem loose_operator {n : Nat} {op : Operator} (h : op.precedence < n) (sign : Span)
    (pending : List Pending) : Loose n (.operator op sign :: pending) := by
  intro op' sign' h'
  cases h'
  exact h

theorem Loose.succ {n : Nat} {pending : List Pending} (h : Loose n pending) :
    Loose (n + 1) pending := by
  intro op sign hop
  exact Nat.lt_succ_of_lt (h op sign hop)

theorem unwind_of_loose {n : Nat} {pending : List Pending} (h : Loose n pending)
    (placed : List Item) : unwind n pending placed = (pending, placed) := by
  cases pending with
  | nil => rfl
  | cons p pending =>
    cases p with
    | paren span => rfl
    | operator op sign =>
      have hlt : op.precedence < n := h op sign rfl
      rw [unwind, if_neg (by omega)]

theorem push_operand {t : Token} {l : Leaf} (ht : t.role = .operand l) (y : Yard) :
    y.push t = .ok ⟨.operand l t.span :: y.placed, y.pending, some t⟩ := by
  simp [push, ht]

theorem push_operator {t : Token} {op : Operator} (ht : t.role = .operator op) {y : Yard}
    {pending : List Pending} {placed : List Item}
    (h : unwind op.precedence y.pending y.placed = (pending, placed)) :
    y.push t = .ok ⟨placed, .operator op t.span :: pending, some t⟩ := by
  simp [push, ht, h]

theorem push_closing {t : Token} (ht : t.role = .closing) {y : Yard}
    {pending : List Pending} {placed : List Item}
    (h : close y.pending y.placed = some (pending, placed)) :
    y.push t = .ok ⟨placed, pending, some t⟩ := by
  simp [push, ht, h]

theorem foldlM_push_cons {t : Token} {y z : Yard} (h : y.push t = .ok z) (tokens : List Token) :
    (t :: tokens).foldlM push y = tokens.foldlM push z := by
  rw [List.foldlM_cons, h]
  rfl

theorem foldlM_push_append {y z : Yard} {a : List Token} (h : a.foldlM push y = .ok z)
    (b : List Token) : (a ++ b).foldlM push y = b.foldlM push z := by
  rw [List.foldlM_append, h]
  rfl

/-- An operand may come next: a parenthesis would not turn the token before it into a call. -/
def Free (y : Yard) : Prop := ∀ t ∈ y.previous, ∀ l, t.role ≠ .operand l

theorem free_of_role {t : Token} (ht : ∀ l, t.role ≠ .operand l) (placed : List Item)
    (pending : List Pending) : Free ⟨placed, pending, some t⟩ := by
  intro s hs
  obtain rfl := Option.mem_some_iff.mp hs
  exact ht

theorem push_opening {t : Token} (ht : t.role = .opening) {y : Yard} (hy : y.Free) :
    y.push t = .ok ⟨y.placed, .paren t.span :: y.pending, some t⟩ := by
  have he : enter y.pending t.span y.previous = .ok (.paren t.span :: y.pending) := by
    unfold enter
    split
    · next text name hp => exact absurd rfl (hy _ hp (.name text))
    · next text number hp => exact absurd rfl (hy _ hp (.number text))
    · rfl
  simp [push, ht, he]

theorem push_opening_of_name {t f : Token} {text : String} (ht : t.role = .opening) {y : Yard}
    (hy : y.previous = some f) (hf : f.kind = .identifier text) :
    y.push t = .ok ⟨y.placed, .paren t.span :: .operator .call f.span :: y.pending, some t⟩ := by
  obtain ⟨kind, name⟩ := f
  obtain rfl : kind = .identifier text := hf
  simp [push, ht, hy, enter]

end Formula.Tree.Yard
