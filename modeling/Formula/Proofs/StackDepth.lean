import Formula.Proofs.Meaning
import Mathlib.Algebra.BigOperators.Group.List.Basic
import Mathlib.Algebra.Order.Ring.Int
import Mathlib.Order.Bounds.Defs

namespace Formula

namespace Instruction

def operands : Instruction → Nat
  | loadX | loadConstant _ => 0
  | arithmetic _ => 2
  | call _ => 1

def runAll (x : Float) (stack : List Float) (code : List Instruction) : List Float :=
  code.foldl (fun stack i => i.run x stack) stack

def netEffect (code : List Instruction) : Int := (code.map effect).sum

/-- From a stack of `height` values on, every instruction finds its operands. -/
def Fed : Int → List Instruction → Prop
  | _, [] => True
  | height, i :: code => i.operands ≤ height ∧ Fed (height + i.effect) code

variable {x : Float} {height greatest : Int} {i : Instruction} {code : List Instruction}

theorem netEffect_nil : netEffect [] = 0 := rfl

theorem netEffect_cons (i : Instruction) (code : List Instruction) :
    netEffect (i :: code) = i.effect + netEffect code := by
  simp [netEffect]

theorem netEffect_append (a b : List Instruction) :
    netEffect (a ++ b) = netEffect a + netEffect b := by
  simp [netEffect]

theorem length_run {stack : List Float} (h : i.operands ≤ stack.length) (x : Float) :
    ((i.run x stack).length : Int) = stack.length + i.effect := by
  cases i with
  | loadX => simp [run, effect]
  | loadConstant value => simp [run, effect]
  | arithmetic op =>
    match stack, h with
    | b :: a :: stack, _ => simp [run, effect]
  | call f =>
    match stack, h with
    | a :: stack, _ => simp [run, effect]

theorem length_runAll {stack : List Float} (h : Fed stack.length code) (x : Float) :
    ((runAll x stack code).length : Int) = stack.length + netEffect code := by
  induction code generalizing stack with
  | nil => simp [runAll, netEffect]
  | cons i code ih =>
    obtain ⟨hi, hcode⟩ := h
    have hrun := length_run (Int.ofNat_le.mp hi) x
    have hrest := ih (hrun ▸ hcode)
    rw [netEffect_cons, ← Int.add_assoc, ← hrun, ← hrest]
    rfl

theorem fed_append_iff {a b : List Instruction} :
    Fed height (a ++ b) ↔ Fed height a ∧ Fed (height + netEffect a) b := by
  induction a generalizing height with
  | nil => simp [Fed, netEffect]
  | cons i a ih =>
    rw [List.cons_append, Fed, Fed, ih, netEffect_cons, Int.add_assoc, and_assoc]

theorem Fed.length_runAll {a b : List Instruction} (h : Fed 0 (a ++ b)) (x : Float) :
    ((runAll x [] a).length : Int) = netEffect a := by
  have ha : Fed ([] : List Float).length a := (fed_append_iff.mp h).1
  have hrun := Instruction.length_runAll ha x
  simpa using hrun

theorem Fed.operands_le {a b : List Instruction} (h : Fed 0 (a ++ i :: b)) (x : Float) :
    i.operands ≤ (runAll x [] a).length := by
  have hlength := h.length_runAll x
  have hi := (fed_append_iff.mp h).2.1
  omega

theorem peakFrom_append (height greatest : Int) (a b : List Instruction) :
    peakFrom height greatest (a ++ b) =
      peakFrom (height + netEffect a) (peakFrom height greatest a) b := by
  induction a generalizing height greatest with
  | nil => simp [peakFrom, netEffect]
  | cons i a ih => rw [List.cons_append, peakFrom, peakFrom, ih, netEffect_cons, Int.add_assoc]

theorem le_peakFrom (height greatest : Int) (code : List Instruction) :
    greatest ≤ peakFrom height greatest code := by
  induction code generalizing height greatest with
  | nil => exact le_rfl
  | cons i code ih =>
    have hrest := ih (height + i.effect) (max greatest (height + i.effect))
    rw [peakFrom]
    omega

theorem netEffect_le_peakFrom (h : height ≤ greatest) (code : List Instruction) :
    height + netEffect code ≤ peakFrom height greatest code := by
  induction code generalizing height greatest with
  | nil => simpa [peakFrom, netEffect] using h
  | cons i code ih =>
    rw [netEffect_cons, peakFrom, ← Int.add_assoc]
    apply ih
    omega

theorem exists_peak (height greatest : Int) (code : List Instruction) :
    peakFrom height greatest code = greatest ∨ ∃ before i after, code = before ++ i :: after ∧
      peakFrom height greatest code = height + netEffect (before ++ [i]) := by
  induction code generalizing height greatest with
  | nil => exact .inl rfl
  | cons i code ih =>
    rw [peakFrom]
    rcases ih (height + i.effect) (max greatest (height + i.effect)) with
      hg | ⟨before, j, after, rfl, hp⟩
    · rw [hg]
      by_cases hle : height + i.effect ≤ greatest
      · exact .inl (max_eq_left hle)
      · refine .inr ⟨[], i, code, rfl, ?_⟩
        rw [List.nil_append, netEffect_cons, netEffect_nil]
        omega
    · refine .inr ⟨i :: before, j, after, rfl, ?_⟩
      rw [hp, List.cons_append, netEffect_cons, Int.add_assoc]

theorem netEffect_le_peakFrom_append (a b : List Instruction) :
    netEffect a ≤ peakFrom 0 0 (a ++ b) := by
  have ha := netEffect_le_peakFrom (le_refl 0) a
  have hb := le_peakFrom (0 + netEffect a) (peakFrom 0 0 a) b
  rw [peakFrom_append]
  omega

theorem isGreatest_netEffect {peak : Nat} (hp : peakFrom 0 0 code = peak) (h : 0 < peak) :
    IsGreatest {height | ∃ before i after, code = before ++ i :: after ∧
      height = netEffect (before ++ [i])} (peak : Int) := by
  constructor
  · rcases exists_peak 0 0 code with hz | ⟨before, i, after, hcode, hi⟩
    · omega
    · exact ⟨before, i, after, hcode, by omega⟩
  · rintro height ⟨before, i, after, rfl, rfl⟩
    have hle := netEffect_le_peakFrom_append (before ++ [i]) after
    rwa [← List.append_cons, hp] at hle

theorem isGreatest_length {peak : Nat} (hf : Fed 0 code) (hp : peakFrom 0 0 code = peak)
    (h : 0 < peak) (x : Float) : IsGreatest {height | ∃ before after, code = before ++ after ∧
      height = (runAll x [] before).length} peak := by
  constructor
  · obtain ⟨before, i, after, hcode, hi⟩ := (isGreatest_netEffect hp h).1
    rw [List.append_cons] at hcode
    rw [hcode] at hf
    have hlength := hf.length_runAll x
    exact ⟨before ++ [i], after, hcode, by omega⟩
  · rintro height ⟨before, after, rfl, rfl⟩
    have hlength := hf.length_runAll x
    have hle := netEffect_le_peakFrom_append before after
    omega

end Instruction

open Instruction

theorem Leaf.of_load {l : Leaf} {span : Span} {i : Instruction} (h : l.load span = .ok i) :
    i.operands = 0 ∧ i.effect = 1 := by
  cases loads_of_load h <;> exact ⟨rfl, rfl⟩

namespace Tree

/-- The height that the stack reaches over a tree: an operation keeps the value of its left operand
while the right one is worked out, a call has only its argument. -/
def stackHeight : Tree → Nat
  | leaf _ _ => 1
  | node .call _ _ right _ => right.stackHeight
  | node _ _ left right _ => max left.stackHeight (right.stackHeight + 1)

theorem stackHeight_pos (t : Tree) : 1 ≤ t.stackHeight := by
  induction t with
  | leaf l span => exact le_rfl
  | node op sign left right span ihl ihr =>
    cases op with
    | call => exact ihr
    | assign => exact ihl.trans (Nat.le_max_left _ _)
    | arithmetic op => exact ihl.trans (Nat.le_max_left _ _)

variable {t : Tree} {code : List Instruction}

theorem netEffect_code (h : t.code = .ok code) : netEffect code = 1 := by
  induction t, code, h using code_induction with
  | load l span i h hi => simp [netEffect, (Leaf.of_load hi).2]
  | arithmetic op sign left right span first second hl hr h ihl ihr =>
    rw [netEffect_append, netEffect_append, ihl, ihr]
    rfl
  | call sign left right span f code hr h hf ihr =>
    rw [netEffect_append, ihr]
    rfl

theorem fed_code (h : t.code = .ok code) {height : Int} (hh : 0 ≤ height) : Fed height code := by
  induction t, code, h using code_induction generalizing height with
  | load l span i h hi =>
    refine ⟨?_, trivial⟩
    rw [(Leaf.of_load hi).1]
    exact hh
  | arithmetic op sign left right span first second hl hr h ihl ihr =>
    rw [fed_append_iff, fed_append_iff, netEffect_append, netEffect_code hl, netEffect_code hr]
    refine ⟨⟨ihl hh, ihr (by omega)⟩, ?_, trivial⟩
    simp only [operands]
    omega
  | call sign left right span f code hr h hf ihr =>
    rw [fed_append_iff, netEffect_code hr]
    refine ⟨ihr hh, ?_, trivial⟩
    simp only [operands]
    omega

theorem peakFrom_code (h : t.code = .ok code) (height greatest : Int) :
    peakFrom height greatest code = max greatest (height + t.stackHeight) := by
  induction t, code, h using code_induction generalizing height greatest with
  | load l span i h hi =>
    rw [peakFrom, peakFrom, (Leaf.of_load hi).2]
    rfl
  | arithmetic op sign left right span first second hl hr h ihl ihr =>
    have hleft := left.stackHeight_pos
    rw [peakFrom_append, peakFrom_append, netEffect_append, ihl, ihr, netEffect_code hl,
      netEffect_code hr, peakFrom, peakFrom]
    simp only [effect, stackHeight]
    omega
  | call sign left right span f code hr h hf ihr =>
    have hright := right.stackHeight_pos
    rw [peakFrom_append, ihr, netEffect_code hr, peakFrom, peakFrom]
    simp only [effect, stackHeight]
    omega

theorem peak_code (h : t.code = .ok code) : peakFrom 0 0 code = t.stackHeight := by
  rw [peakFrom_code h]
  omega

theorem maxStack_ofCode (h : t.code = .ok code) : (Program.ofCode code).maxStack = t.stackHeight := by
  rw [Program.ofCode, peak_code h]
  rfl

end Tree

/-- A program whose run never lacks an operand and leaves its result alone on the stack, which
grows to `maxStack` and no further. The static heights are those of the run, so none is negative. -/
structure StackDiscipline (x : Float) (p : Program) : Prop where
  fed : ∀ before i after, p.code = before ++ i :: after →
    i.operands ≤ (runAll x [] before).length
  measured : ∀ before after, p.code = before ++ after →
    ((runAll x [] before).length : Int) = netEffect before
  single : runAll x [] p.code = [p.evaluate x]
  highest : IsGreatest {height | ∃ before after, p.code = before ++ after ∧
    height = (runAll x [] before).length} p.maxStack
  unclamped : IsGreatest {height | ∃ before i after, p.code = before ++ i :: after ∧
    height = netEffect (before ++ [i])} (p.maxStack : Int)

theorem Tree.stackDiscipline_of_build {t : Tree} {p : Program} (h : t.build = .ok p) (x : Float) :
    StackDiscipline x p ∧ p.maxStack = t.stackHeight ∧ 1 ≤ p.maxStack := by
  rw [build_eq_code] at h
  obtain ⟨code, hcode, rfl⟩ := map_eq_ok.mp h
  have hpos := t.stackHeight_pos
  have hfed : Fed 0 code := fed_code hcode le_rfl
  have hpeak := peak_code hcode
  have hmax := maxStack_ofCode hcode
  obtain ⟨v, -, hrun⟩ := run_code hcode x
  have hdiscipline : StackDiscipline x (Program.ofCode code) :=
    { fed := by
        rintro before i after rfl
        exact hfed.operands_le x
      measured := by
        rintro before after rfl
        exact hfed.length_runAll x
      single := by
        rw [Program.evaluate, Program.ofCode, hrun]
        exact hrun []
      highest := by
        rw [hmax]
        exact isGreatest_length hfed hpeak hpos x
      unclamped := by
        rw [hmax]
        exact isGreatest_netEffect hpeak hpos }
  exact ⟨hdiscipline, hmax, hmax ▸ hpos⟩

theorem Tree.stackDiscipline_of_build_right_leaning :
    let x : Tree := leaf (.name "x") ⟨0, 0⟩
    let t := node (.arithmetic .add) ⟨1, 2⟩ x (node (.arithmetic .pow) ⟨3, 4⟩ x
      (node .call ⟨5, 6⟩ (leaf (.name "sin") ⟨5, 6⟩) (node (.arithmetic .mul) ⟨7, 8⟩ x x ⟨0, 0⟩)
        ⟨5, 0⟩) ⟨0, 0⟩) ⟨0, 9⟩
    let p : Program := ⟨[.loadX, .loadX, .loadX, .loadX, .arithmetic .mul, .call .sin,
      .arithmetic .pow, .arithmetic .add], 4⟩
    t.build = .ok p ∧ StackDiscipline 3 p ∧ p.maxStack = t.stackHeight ∧ 1 ≤ p.maxStack := by
  intro x t p
  have h : t.build = .ok p := (build_eq_code t).trans rfl
  exact ⟨h, stackDiscipline_of_build h 3⟩

end Formula
