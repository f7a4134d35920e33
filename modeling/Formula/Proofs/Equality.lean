import Formula.Proofs.Compilation
import Formula.Proofs.Literals
import Formula.Proofs.Origin

/-!
Programs are compared step by step, and constants as numbers. The code of an expression can be read
back, so that equal programs come from one expression.
-/

namespace Formula

open Binary64 (infinity)
open Formula.Tree

/-- An expression of `x` without any trace of a text. Doubles are one and the same here when their
bits are. -/
inductive Meaning where
  | x
  | constant (value : Float)
  | arithmetic (op : Arithmetic) (left right : Meaning)
  | call (f : NamedFunction) (argument : Meaning)
deriving DecidableEq

def Leaf.meaning? : Leaf → Option Meaning
  | name "x" => some .x
  | name "pi" => some (.constant (Float.ofBits 0x400921FB54442D18))
  | name "e" => some (.constant (Float.ofBits 0x4005BF0A8B145769))
  | name _ => none
  | number text => (Decimal.read text).toOption.map .constant

def Tree.meaning? : Tree → Option Meaning
  | leaf l _ => l.meaning?
  | node (.arithmetic op) _ left right _ => do
    return .arithmetic op (← left.meaning?) (← right.meaning?)
  | node .call _ (leaf (.name "sin") _) argument _ => argument.meaning?.map (.call .sin)
  | node .call _ (leaf (.name "cos") _) argument _ => argument.meaning?.map (.call .cos)
  | _ => none

namespace Meaning

def code : Meaning → List Instruction
  | x => [.loadX]
  | constant value => [.loadConstant value]
  | arithmetic op left right => left.code ++ right.code ++ [.arithmetic op]
  | call f argument => argument.code ++ [.call f]

/-- Reads code, given what has already been read, last one first. -/
def ofCodeAfter : List Meaning → List Instruction → Option Meaning
  | [m], [] => some m
  | _, [] => none
  | read, .loadX :: code => ofCodeAfter (x :: read) code
  | read, .loadConstant value :: code => ofCodeAfter (constant value :: read) code
  | right :: left :: read, .arithmetic op :: code => ofCodeAfter (arithmetic op left right :: read) code
  | argument :: read, .call f :: code => ofCodeAfter (call f argument :: read) code
  | _, _ :: _ => none

theorem ofCodeAfter_code (m : Meaning) (read : List Meaning) (rest : List Instruction) :
    ofCodeAfter read (m.code ++ rest) = ofCodeAfter (m :: read) rest := by
  -- For all that has been read before: the code of a right operand is read behind the left one.
  induction m generalizing read rest with
  | x => simp [code, ofCodeAfter]
  | constant value => simp [code, ofCodeAfter]
  | arithmetic op left right ihl ihr =>
    simp [code, ihl, ihr, ofCodeAfter]
  | call f argument ih =>
    simp [code, ih, ofCodeAfter]

theorem code_injective {m n : Meaning} (h : m.code = n.code) : m = n := by
  have hread (k : Meaning) : ofCodeAfter [] k.code = some k := by
    have hcode := ofCodeAfter_code k [] []
    rwa [List.append_nil] at hcode
  rw [← Option.some.injEq, ← hread m, h, hread n]

end Meaning

theorem Leaf.exists_meaning_of_load {l : Leaf} {span : Span} {i : Instruction}
    (h : l.load span = .ok i) : ∃ m, l.meaning? = some m ∧ m.code = [i] := by
  cases loads_of_load h with
  | x => exact ⟨.x, rfl, rfl⟩
  | @constant text c hx hc =>
    refine ⟨.constant c.value, ?_, rfl⟩
    obtain ⟨rfl, rfl⟩ | ⟨rfl, rfl⟩ := NamedConstant.ofName?_eq_some_iff.mp hc <;> rfl
  | @number text value hv => exact ⟨.constant value, by rw [meaning?, hv]; rfl, rfl⟩

theorem Tree.exists_meaning_of_code {t : Tree} {code : List Instruction} (h : t.code = .ok code) :
    ∃ m, t.meaning? = some m ∧ m.code = code := by
  induction t, code, h using code_induction with
  | load l span i h hi => exact Leaf.exists_meaning_of_load hi
  | arithmetic op sign left right span first second hl hr h ihl ihr =>
    obtain ⟨m, hm, rfl⟩ := ihl
    obtain ⟨n, hn, rfl⟩ := ihr
    exact ⟨.arithmetic op m n, by simp [meaning?, hm, hn], rfl⟩
  | call sign left right span f code hr h hf ihr =>
    obtain ⟨m, hm, rfl⟩ := ihr
    obtain ⟨text, s, rfl, hg⟩ := exists_name_of_callee hf
    refine ⟨.call f m, ?_, rfl⟩
    obtain ⟨rfl, rfl⟩ | ⟨rfl, rfl⟩ := NamedFunction.ofName?_eq_some_iff.mp hg <;>
      rw [meaning?, hm, Option.map_some]

namespace Instruction

/-- A constant has no sign and is a number. -/
def Plain : Instruction → Prop
  | loadConstant value => value.toBits.toNat ≤ infinity
  | _ => True

variable {i j : Instruction}

theorem Plain.beq_iff (hi : i.Plain) (hj : j.Plain) : (i == j) = true ↔ i = j := by
  cases i with
  | loadConstant value =>
    cases j with
    | loadConstant value' =>
      change (value == value') = true ↔ _
      rw [Binary64.beq_iff_eq_of_toBits_le hi hj, Instruction.loadConstant.injEq]
    | _ => exact iff_of_false Bool.false_ne_true (by simp)
  | loadX =>
    cases j with
    | loadX => exact iff_of_true rfl rfl
    | _ => exact iff_of_false Bool.false_ne_true (by simp)
  | arithmetic op =>
    cases j with
    | arithmetic op' =>
      change (op == op') = true ↔ _
      simp
    | _ => exact iff_of_false Bool.false_ne_true (by simp)
  | call f =>
    cases j with
    | call g =>
      change (f == g) = true ↔ _
      simp
    | _ => exact iff_of_false Bool.false_ne_true (by simp)

theorem Plain.beq_list_iff {a b : List Instruction} (ha : ∀ i ∈ a, i.Plain)
    (hb : ∀ j ∈ b, j.Plain) : (a == b) = true ↔ a = b := by
  induction a generalizing b with
  | nil => cases b <;> simp
  | cons i a ih =>
    cases b with
    | nil => simp
    | cons j b =>
      obtain ⟨hi, ha⟩ := List.forall_mem_cons.mp ha
      obtain ⟨hj, hb⟩ := List.forall_mem_cons.mp hb
      rw [List.cons_beq_cons, Bool.and_eq_true, hi.beq_iff hj, ih ha hb, List.cons.injEq]

end Instruction

theorem NamedConstant.toBits_value_le (c : NamedConstant) : c.value.toBits.toNat ≤ infinity := by
  cases c <;> decide +kernel

def Leaf.WellFormed : Leaf → Prop
  | name _ => True
  | number text => text.toList ≠ [] ∧ ∀ d ∈ text.toList, d.isDigit

theorem Leaf.WellFormed.plain_of_load {l : Leaf} (hl : l.WellFormed) {span : Span} {i : Instruction}
    (h : l.load span = .ok i) : i.Plain := by
  cases loads_of_load h with
  | x => trivial
  | constant hx hc => exact NamedConstant.toBits_value_le _
  | @number text value hv =>
    rw [Decimal.read_of_digits hl.1 hl.2] at hv
    obtain rfl := Except.ok.inj hv
    have hplace := Decimal.placeOf_le_infinity text.toList 0
    exact (Binary64.toBits_toFloat hplace).trans_le hplace

namespace Tree

theorem wellFormed_of_ofString {source : String} {t : Tree} (h : Tree.ofString source = .ok t)
    {l : Leaf} {span : Span} (hl : .operand l span ∈ t.toItems) : l.WellFormed := by
  obtain ⟨next, hstands⟩ := exists_standsBefore_of_ofString h hl
  cases l with
  | name text => trivial
  | number text => exact ⟨hstands.1, hstands.2.1⟩

theorem plain_of_code {t : Tree} {code : List Instruction} (h : t.code = .ok code)
    (hl : ∀ l span, .operand l span ∈ t.toItems → l.WellFormed) : ∀ i ∈ code, i.Plain := by
  induction t, code, h using code_induction with
  | load l span i h hi =>
    have hplain := (hl l span List.mem_cons_self).plain_of_load hi
    simpa using hplain
  | arithmetic op sign left right span first second hfirst hsecond h ihl ihr =>
    have hleft := ihl fun l s hmem => hl l s (by simp [toItems, hmem])
    have hright := ihr fun l s hmem => hl l s (by simp [toItems, hmem])
    intro i hi
    rcases List.mem_append.mp hi with hi | hi
    · rcases List.mem_append.mp hi with hi | hi
      · exact hleft i hi
      · exact hright i hi
    · obtain rfl := List.mem_singleton.mp hi
      trivial
  | call sign left right span f code hr h hf ih =>
    have hargument := ih fun l s hmem => hl l s (by simp [toItems, hmem])
    intro i hi
    rcases List.mem_append.mp hi with hi | hi
    · exact hargument i hi
    · obtain rfl := List.mem_singleton.mp hi
      trivial

end Tree

namespace Program

variable {source : String} {p q : Program}

theorem exists_meaning_of_ofString (h : ofString source = .ok p) : ∃ t m,
    Tree.ofString source = .ok t ∧ t.meaning? = some m ∧ p = ofCode m.code ∧
      ∀ i ∈ p.code, i.Plain := by
  obtain ⟨t, ht, hbuild⟩ := ofString_eq_ok_iff.mp h
  rw [build_eq_code] at hbuild
  obtain ⟨code, hcode, rfl⟩ := map_eq_ok.mp hbuild
  obtain ⟨m, hm, rfl⟩ := exists_meaning_of_code hcode
  exact ⟨t, m, ht, hm, rfl, plain_of_code hcode fun l span => wellFormed_of_ofString ht⟩

theorem beq_iff_of_plain (hp : ∀ i ∈ p.code, i.Plain) (hq : ∀ i ∈ q.code, i.Plain) :
    (p == q) = true ↔ p = q := by
  obtain ⟨code, maxStack⟩ := p
  obtain ⟨code', maxStack'⟩ := q
  change (code == code' && maxStack == maxStack') = true ↔ _
  rw [Bool.and_eq_true, Instruction.Plain.beq_list_iff hp hq, beq_iff_eq, Program.mk.injEq]

theorem beq_iff_meaning_eq {a b : String} (hp : ofString a = .ok p) (hq : ofString b = .ok q) :
    ∃ s t m n, Tree.ofString a = .ok s ∧ Tree.ofString b = .ok t ∧
      s.meaning? = some m ∧ t.meaning? = some n ∧ ((p == q) = true ↔ m = n) ∧
      ((p == q) = true → ∀ x, p.evaluate x = q.evaluate x) ∧ (p == p) = true := by
  obtain ⟨s, m, hs, hm, hpm, hplain⟩ := exists_meaning_of_ofString hp
  obtain ⟨t, n, ht, hn, hqn, hplain'⟩ := exists_meaning_of_ofString hq
  refine ⟨s, t, m, n, hs, ht, hm, hn, ?_, ?_, (beq_iff_of_plain hplain hplain).mpr rfl⟩
  · rw [beq_iff_of_plain hplain hplain', hpm, hqn]
    constructor
    · intro h
      exact Meaning.code_injective (congrArg Program.code h)
    · rintro rfl
      rfl
  · intro h x
    rw [(beq_iff_of_plain hplain hplain').mp h]

theorem beq_iff_meaning_eq_postfix :
    let p : Program := ⟨[.loadConstant (Float.ofBits 0x400921FB54442D18), .loadX, .call .cos,
      .arithmetic .sub], 2⟩
    let between := "pi-cos(x)"
    let behind := "pi cos(x)-"
    ofString between = .ok p ∧ ofString behind = .ok p ∧
      ∃ s t m n, Tree.ofString between = .ok s ∧ Tree.ofString behind = .ok t ∧
        s.meaning? = some m ∧ t.meaning? = some n ∧ ((p == p) = true ↔ m = n) ∧
        ((p == p) = true → ∀ x, p.evaluate x = p.evaluate x) ∧ (p == p) = true := by
  intro p between behind
  have hbetween : ofString between = .ok p := by
    apply ofString_eq_ok_iff.mpr
    refine ⟨node (.arithmetic .sub) ⟨2, 3⟩ (leaf (.name "pi") ⟨0, 2⟩) (node .call ⟨3, 6⟩
      (leaf (.name "cos") ⟨3, 6⟩) (leaf (.name "x") ⟨7, 8⟩) ⟨3, 8⟩) ⟨0, 8⟩, by decide +kernel, ?_⟩
    rw [build_eq_code]
    rfl
  have hbehind : ofString behind = .ok p := by
    apply ofString_eq_ok_iff.mpr
    refine ⟨node (.arithmetic .sub) ⟨9, 10⟩ (leaf (.name "pi") ⟨0, 2⟩) (node .call ⟨3, 6⟩
      (leaf (.name "cos") ⟨3, 6⟩) (leaf (.name "x") ⟨7, 8⟩) ⟨3, 8⟩) ⟨0, 10⟩, by decide +kernel, ?_⟩
    rw [build_eq_code]
    rfl
  exact ⟨hbetween, hbehind, beq_iff_meaning_eq hbetween hbehind⟩

end Program

end Formula
