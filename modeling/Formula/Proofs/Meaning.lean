import Formula.Proofs.Compilation

namespace Formula

def Leaf.value (x : Float) : Leaf → Option Float
  | name "x" => some x
  | name "pi" => some (Float.ofBits 0x400921FB54442D18)
  | name "e" => some (Float.ofBits 0x4005BF0A8B145769)
  | name _ => none
  | number text => (Decimal.read text).toOption

theorem Leaf.run_load {l : Leaf} {span : Span} {i : Instruction} (h : l.load span = .ok i)
    (x : Float) : ∃ v, l.value x = some v ∧ ∀ stack, i.run x stack = v :: stack := by
  cases loads_of_load h with
  | x => exact ⟨x, rfl, fun stack => rfl⟩
  | @constant text c hx hc =>
    refine ⟨c.value, ?_, fun stack => rfl⟩
    rcases NamedConstant.ofName?_eq_some_iff.mp hc with ⟨rfl, rfl⟩ | ⟨rfl, rfl⟩ <;> rfl
  | @number text v hv => exact ⟨v, by rw [value, hv]; rfl, fun stack => rfl⟩

namespace Tree

def function? : Tree → Option (Float → Float)
  | leaf (.name "sin") _ => some Float.sin
  | leaf (.name "cos") _ => some Float.cos
  | _ => none

def value (x : Float) : Tree → Option Float
  | leaf l _ => l.value x
  | node (.arithmetic op) _ left right _ => do
    let a ← left.value x
    let b ← right.value x
    return match op with
      | .add => a + b
      | .sub => a - b
      | .mul => a * b
      | .div => a / b
      | .pow => Float.pow a b
  | node .call _ left right _ => do
    let f ← left.function?
    let a ← right.value x
    return f a
  | node .assign _ _ _ _ => none

theorem function?_of_callee {sign : Span} {left : Tree} {f : NamedFunction}
    (h : callee sign left = .ok f) : left.function? = some f.apply := by
  obtain ⟨text, span, rfl, hf⟩ := exists_name_of_callee h
  rcases NamedFunction.ofName?_eq_some_iff.mp hf with ⟨rfl, rfl⟩ | ⟨rfl, rfl⟩ <;> rfl

theorem run_code {t : Tree} {code : List Instruction} (h : t.code = .ok code) (x : Float) :
    ∃ v, t.value x = some v ∧ ∀ stack, code.foldl (fun stack i => i.run x stack) stack = v :: stack := by
  induction t, code, h using code_induction with
  | load l span i h hi =>
    obtain ⟨v, hv, hrun⟩ := Leaf.run_load hi x
    exact ⟨v, hv, hrun⟩
  | arithmetic op sign left right span first second hl hr h ihl ihr =>
    obtain ⟨a, ha, hfirst⟩ := ihl
    obtain ⟨b, hb, hsecond⟩ := ihr
    refine ⟨op.apply a b, ?_, fun stack => ?_⟩
    · simp only [value, ha, hb]
      cases op <;> rfl
    · rw [List.foldl_append, List.foldl_append, hfirst, hsecond]
      rfl
  | call sign left right span f code hr h hf ihr =>
    obtain ⟨a, ha, hrun⟩ := ihr
    refine ⟨f.apply a, ?_, fun stack => ?_⟩
    · simp only [value, function?_of_callee hf, ha]
      rfl
    · rw [List.foldl_append, hrun]
      rfl

theorem value_eq_evaluate_ofCode {t : Tree} {code : List Instruction} (h : t.code = .ok code)
    (x : Float) : t.value x = some ((Program.ofCode code).evaluate x) := by
  obtain ⟨v, hv, hrun⟩ := run_code h x
  rw [hv, Program.evaluate, Program.ofCode, hrun]

theorem evaluate_build {t : Tree} {p : Program} (h : t.build = .ok p) (x : Float) :
    t.value x = some (p.evaluate x) := by
  rw [build_eq_code] at h
  obtain ⟨code, hc, rfl⟩ := map_eq_ok.mp h
  exact value_eq_evaluate_ofCode hc x

theorem evaluate_build_cos_sub_pow :
    let t := node (.arithmetic .sub) ⟨7, 3⟩
      (node .call ⟨0, 0⟩ (leaf (.name "cos") ⟨9, 9⟩) (leaf (.number "-inf") ⟨1, 0⟩) ⟨0, 0⟩)
      (node (.arithmetic .pow) ⟨4, 5⟩ (leaf (.name "x") ⟨2, 2⟩) (leaf (.name "pi") ⟨3, 3⟩) ⟨0, 9⟩)
      ⟨8, 1⟩
    let p : Program := ⟨[.loadConstant (Binary64.toFloat true Binary64.infinity), .call .cos, .loadX,
      .loadConstant (Float.ofBits 0x400921FB54442D18), .arithmetic .pow, .arithmetic .sub], 3⟩
    t.build = .ok p ∧ t.value 2 = some (p.evaluate 2) := by
  intro t p
  have h : t.build = .ok p := (build_eq_code t).trans rfl
  exact ⟨h, evaluate_build h 2⟩

end Tree

end Formula
