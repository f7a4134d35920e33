import Formula.Program.Build
import Formula.Proofs.Faults

namespace Formula

inductive Leaf.Loads : Leaf → Instruction → Prop
  | x : Loads (.name "x") .loadX
  | constant {text : String} {c : NamedConstant} (hx : text ≠ "x")
      (hc : NamedConstant.ofName? text = some c) : Loads (.name text) (.loadConstant c.value)
  | number {text : String} {value : Float} (hv : Decimal.read text = .ok value) :
      Loads (.number text) (.loadConstant value)

theorem Leaf.loads_of_load {l : Leaf} {span : Span} {i : Instruction} (h : l.load span = .ok i) :
    l.Loads i := by
  cases l with
  | name text =>
    rw [load] at h
    by_cases hx : text = "x"
    · rw [if_pos hx] at h
      obtain rfl := Except.ok.inj h
      rw [hx]
      exact .x
    · rw [if_neg hx] at h
      split at h
      · next c hc =>
        obtain rfl := Except.ok.inj h
        exact .constant hx hc
      · cases h
  | number text =>
    rw [load] at h
    split at h
    · next value hv =>
      obtain rfl := Except.ok.inj h
      exact .number hv
    · cases h

namespace Tree

theorem exists_name_of_callee {sign : Span} {left : Tree} {f : NamedFunction}
    (h : callee sign left = .ok f) :
    ∃ text span, left = leaf (.name text) span ∧ NamedFunction.ofName? text = some f := by
  unfold callee at h
  split at h
  · next text span =>
    split at h
    · next g hg =>
      obtain rfl := Except.ok.inj h
      exact ⟨text, span, rfl, hg⟩
    · cases h
  · cases h

/-- Induction over the trees that have code, with the code; the left operand of a call has none. -/
@[elab_as_elim]
theorem code_induction {motive : (t : Tree) → (code : List Instruction) → t.code = .ok code → Prop}
    (load : ∀ l span i h, l.load span = .ok i → motive (leaf l span) [i] h)
    (arithmetic : ∀ op sign left right span first second (hl : left.code = .ok first)
      (hr : right.code = .ok second) h, motive left first hl → motive right second hr →
      motive (node (.arithmetic op) sign left right span) (first ++ second ++ [.arithmetic op]) h)
    (call : ∀ sign left right span f code (hr : right.code = .ok code) h,
      callee sign left = .ok f → motive right code hr →
      motive (node .call sign left right span) (code ++ [.call f]) h)
    (t : Tree) (code : List Instruction) (h : t.code = .ok code) : motive t code h := by
  induction t generalizing code with
  | leaf l span =>
    obtain ⟨i, hi, hc⟩ := bind_eq_ok.mp h
    obtain rfl := pure_eq_ok.mp hc
    exact load l span i h hi
  | node op sign left right span ihl ihr =>
    cases op with
    | assign => cases h
    | arithmetic op =>
      obtain ⟨first, hl, hc⟩ := bind_eq_ok.mp h
      obtain ⟨second, hr, hc⟩ := bind_eq_ok.mp hc
      obtain rfl := pure_eq_ok.mp hc
      exact arithmetic op sign left right span first second hl hr h (ihl _ hl) (ihr _ hr)
    | call =>
      obtain ⟨f, hf, hc⟩ := bind_eq_ok.mp h
      obtain ⟨code, hr, hc⟩ := bind_eq_ok.mp hc
      obtain rfl := pure_eq_ok.mp hc
      exact call sign left right span f code hr h hf (ihr _ hr)

/-- What a tree compiles to, by recursion on the tree: its code, or the fault met first when the
operands are taken from left to right. The left operand of a call is looked at, but not compiled. -/
inductive Yields : Tree → Except BuildError (List Instruction) → Prop
  | loadX {span : Span} : Yields (leaf (.name "x") span) (.ok [.loadX])
  | pi {span : Span} :
      Yields (leaf (.name "pi") span) (.ok [.loadConstant (Float.ofBits 0x400921FB54442D18)])
  | e {span : Span} :
      Yields (leaf (.name "e") span) (.ok [.loadConstant (Float.ofBits 0x4005BF0A8B145769)])
  | unknownSymbol {text : String} {span : Span} (hx : text ≠ "x")
      (hc : text ≠ "pi" ∧ text ≠ "e") :
      Yields (leaf (.name text) span) (.error (.unknownSymbol text span))
  | number {text : String} {span : Span} {value : Float} (h : Decimal.read text = .ok value) :
      Yields (leaf (.number text) span) (.ok [.loadConstant value])
  | invalidNumber {text : String} {span : Span} (h : ∀ value, Decimal.read text ≠ .ok value) :
      Yields (leaf (.number text) span) (.error (.invalidNumber text span))
  | assign {sign span : Span} {left right : Tree} :
      Yields (node .assign sign left right span) (.error (.unsupported .assign sign))
  | unnamed {sign span : Span} {left right : Tree} (h : ∀ text s, left ≠ leaf (.name text) s) :
      Yields (node .call sign left right span) (.error (.unsupported .call sign))
  | unknownFunction {sign span s : Span} {text : String} {right : Tree}
      (h : text ≠ "sin" ∧ text ≠ "cos") :
      Yields (node .call sign (leaf (.name text) s) right span) (.error (.unknownFunction text sign))
  | call {sign span s : Span} {text : String} {f : NamedFunction} {right : Tree}
      {code : List Instruction} (h : text = "sin" ∧ f = .sin ∨ text = "cos" ∧ f = .cos)
      (hr : Yields right (.ok code)) :
      Yields (node .call sign (leaf (.name text) s) right span) (.ok (code ++ [.call f]))
  | argument {sign span s : Span} {text : String} {right : Tree} {fault : BuildError}
      (h : text = "sin" ∨ text = "cos") (hr : Yields right (.error fault)) :
      Yields (node .call sign (leaf (.name text) s) right span) (.error fault)
  | arithmetic {op : Arithmetic} {sign span : Span} {left right : Tree}
      {first second : List Instruction} (hl : Yields left (.ok first))
      (hr : Yields right (.ok second)) :
      Yields (node (.arithmetic op) sign left right span)
        (.ok (first ++ second ++ [.arithmetic op]))
  | leftOperand {op : Arithmetic} {sign span : Span} {left right : Tree} {fault : BuildError}
      (hl : Yields left (.error fault)) :
      Yields (node (.arithmetic op) sign left right span) (.error fault)
  | rightOperand {op : Arithmetic} {sign span : Span} {left right : Tree}
      {first : List Instruction} {fault : BuildError} (hl : Yields left (.ok first))
      (hr : Yields right (.error fault)) :
      Yields (node (.arithmetic op) sign left right span) (.error fault)

theorem yields_leaf (l : Leaf) (span : Span) : Yields (leaf l span) (leaf l span).code := by
  rw [code]
  cases l with
  | name text =>
    rw [Leaf.load]
    by_cases hx : text = "x"
    · subst hx
      exact .loadX
    · rw [if_neg hx]
      cases hc : NamedConstant.ofName? text with
      | some c =>
        obtain ⟨rfl, rfl⟩ | ⟨rfl, rfl⟩ := NamedConstant.ofName?_eq_some_iff.mp hc
        · exact .pi
        · exact .e
      | none => exact .unknownSymbol hx (NamedConstant.ofName?_eq_none_iff.mp hc)
  | number text =>
    rw [Leaf.load]
    cases hv : Decimal.read text with
    | ok value => exact .number hv
    | error fault => exact .invalidNumber (by simp [hv])

theorem callee_name (sign : Span) (text : String) (s : Span) :
    callee sign (leaf (.name text) s) =
      ((NamedFunction.ofName? text).elim (.error (.unknownFunction text sign)) .ok) := by
  rw [callee]
  cases NamedFunction.ofName? text <;> rfl

theorem callee_unnamed {left : Tree} (h : ∀ text s, left ≠ leaf (.name text) s) (sign : Span) :
    callee sign left = .error (.unsupported .call sign) := by
  unfold callee
  split
  · next text s => exact absurd rfl (h text s)
  · rfl

theorem yields_code (t : Tree) : t.Yields t.code := by
  induction t with
  | leaf l span => exact yields_leaf l span
  | node op sign left right span ihl ihr =>
    cases op with
    | assign => exact .assign
    | arithmetic op =>
      rw [code]
      cases hl : left.code with
      | error fault =>
        rw [hl] at ihl
        exact .leftOperand ihl
      | ok first =>
        rw [hl] at ihl
        cases hr : right.code with
        | error fault =>
          rw [hr] at ihr
          exact .rightOperand ihl ihr
        | ok second =>
          rw [hr] at ihr
          exact .arithmetic ihl ihr
    | call =>
      rw [code]
      by_cases hnamed : ∃ text s, left = leaf (.name text) s
      · obtain ⟨text, s, rfl⟩ := hnamed
        rw [callee_name]
        cases hf : NamedFunction.ofName? text with
        | none => exact .unknownFunction (NamedFunction.ofName?_eq_none_iff.mp hf)
        | some f =>
          have hname := NamedFunction.ofName?_eq_some_iff.mp hf
          cases hr : right.code with
          | error fault =>
            rw [hr] at ihr
            exact .argument (hname.imp And.left And.left) ihr
          | ok code =>
            rw [hr] at ihr
            exact .call hname ihr
      · have hno : ∀ text s, left ≠ leaf (.name text) s := fun text s h => hnamed ⟨text, s, h⟩
        rw [callee_unnamed hno]
        exact .unnamed hno

theorem Yields.code_eq {t : Tree} {r : Except BuildError (List Instruction)} (h : t.Yields r) :
    t.code = r := by
  induction h with
  | loadX | pi | e => rfl
  | unknownSymbol hx hc =>
    rw [code, Leaf.load, if_neg hx, NamedConstant.ofName?_eq_none_iff.mpr hc]
    rfl
  | number h =>
    rw [code, Leaf.load, h]
    rfl
  | @invalidNumber text span h =>
    rw [code, Leaf.load]
    cases hv : Decimal.read text with
    | ok value => exact absurd hv (h value)
    | error fault => rfl
  | assign => rfl
  | unnamed h =>
    rw [code, callee_unnamed h]
    rfl
  | unknownFunction h =>
    rw [code, callee_name, NamedFunction.ofName?_eq_none_iff.mpr h]
    rfl
  | call h hr ih =>
    rw [code, callee_name, NamedFunction.ofName?_eq_some_iff.mpr h, ih]
    rfl
  | @argument sign span s text right fault h hr ih =>
    rw [code, callee_name]
    cases hf : NamedFunction.ofName? text with
    | none =>
      obtain ⟨hsin, hcos⟩ := NamedFunction.ofName?_eq_none_iff.mp hf
      exact absurd h (not_or.mpr ⟨hsin, hcos⟩)
    | some f =>
      rw [ih]
      rfl
  | arithmetic hl hr ihl ihr =>
    rw [code, ihl, ihr]
    rfl
  | leftOperand hl ihl =>
    rw [code, ihl]
    rfl
  | rightOperand hl hr ihl ihr =>
    rw [code, ihl, ihr]
    rfl

namespace Task

/-- The loop is over after `n` turns, with a result. -/
inductive Finishes : Nat → List Task → List Instruction → Except BuildError (List Instruction) → Prop
  | done (emitted : List Instruction) : Finishes 0 [] emitted (.ok emitted.reverse)
  | fault {task : Task} {tasks : List Task} {emitted : List Instruction} {e : BuildError}
      (h : turn task tasks emitted = .error e) : Finishes 1 (task :: tasks) emitted (.error e)
  | turn {n : Nat} {task : Task} {tasks rest : List Task} {emitted emitted' : List Instruction}
      {r : Except BuildError (List Instruction)} (h : turn task tasks emitted = .ok (rest, emitted'))
      (hr : Finishes n rest emitted' r) : Finishes (n + 1) (task :: tasks) emitted r

theorem weight_cons_pos (task : Task) (tasks : List Task) : 0 < weight (task :: tasks) := by
  cases task with
  | visit t =>
    have ht := t.size_pos
    simp only [weight]
    omega
  | emit i =>
    simp only [weight]
    omega

theorem exists_finishes (tasks : List Task) (emitted : List Instruction) :
    ∃ n ≤ weight tasks, Finishes n tasks emitted (perform tasks emitted) := by
  -- Every turn takes from the weight of what is left to do.
  induction hw : weight tasks using Nat.strongRecOn generalizing tasks emitted with
  | ind w ih =>
    subst hw
    cases tasks with
    | nil =>
      rw [perform_nil]
      exact ⟨0, Nat.zero_le _, .done emitted⟩
    | cons task tasks =>
      rw [perform_cons]
      cases hturn : turn task tasks emitted with
      | error e => exact ⟨1, weight_cons_pos task tasks, .fault hturn⟩
      | ok s =>
        have hlt := weight_lt_of_turn hturn
        obtain ⟨n, hle, hn⟩ := ih _ hlt s.1 s.2 rfl
        exact ⟨n + 1, by omega, .turn hturn hn⟩

end Task

/-- The loop over pending work ends, after two turns for every node at most, and gives what recursion
on the tree does, the fault included. -/
theorem build_yields (t : Tree) : ∃ r, (∀ s, t.Yields s ↔ s = r) ∧
    Task.perform [.visit t] [] = r ∧ (∃ n ≤ 2 * t.size, Task.Finishes n [.visit t] [] r) ∧
      t.build.map Program.code = r := by
  have hperform : Task.perform [.visit t] [] = t.code := by
    rw [Task.perform_visit]
    cases t.code with
    | error e => rfl
    | ok code => simp [Task.perform_nil, bind, Except.bind]
  refine ⟨t.code, fun s => ⟨fun h => h.code_eq.symm, fun h => h ▸ yields_code t⟩, hperform, ?_, ?_⟩
  · rw [← hperform]
    exact Task.exists_finishes [.visit t] []
  · rw [build_eq_code]
    cases t.code <;> rfl

end Tree

end Formula
