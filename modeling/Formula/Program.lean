import Formula.Binary64
import Formula.Operator

namespace Formula

inductive NamedFunction where
  | sin | cos
deriving DecidableEq

namespace NamedFunction

def ofName? : String → Option NamedFunction
  | "sin" => some sin
  | "cos" => some cos
  | _ => none

theorem ofName?_eq_some_iff {text : String} {f : NamedFunction} :
    ofName? text = some f ↔ text = "sin" ∧ f = sin ∨ text = "cos" ∧ f = cos := by
  unfold ofName?
  split <;> simp_all [eq_comm]

theorem ofName?_eq_none_iff {text : String} :
    ofName? text = none ↔ text ≠ "sin" ∧ text ≠ "cos" := by
  unfold ofName?
  split <;> simp_all

def apply : NamedFunction → Float → Float
  | sin => Float.sin
  | cos => Float.cos

end NamedFunction

inductive NamedConstant where
  | pi | e
deriving DecidableEq

namespace NamedConstant

def ofName? : String → Option NamedConstant
  | "pi" => some pi
  | "e" => some e
  | _ => none

theorem ofName?_eq_some_iff {text : String} {c : NamedConstant} :
    ofName? text = some c ↔ text = "pi" ∧ c = pi ∨ text = "e" ∧ c = e := by
  unfold ofName?
  split <;> simp_all [eq_comm]

theorem ofName?_eq_none_iff {text : String} :
    ofName? text = none ↔ text ≠ "pi" ∧ text ≠ "e" := by
  unfold ofName?
  split <;> simp_all

def value : NamedConstant → Float
  | pi => Float.ofBits 0x400921FB54442D18
  | e => Float.ofBits 0x4005BF0A8B145769

end NamedConstant

/-- A step of a program, which runs on a stack of values. Constants are compared as numbers: the
two zeros are equal, and what is no number differs from itself. -/
inductive Instruction where
  | loadX
  | loadConstant (value : Float)
  | arithmetic (op : Arithmetic)
  | call (f : NamedFunction)
deriving BEq

namespace Instruction

/-- An operation that finds too few operands drops those it finds. -/
def run (x : Float) : Instruction → List Float → List Float
  | loadX, stack => x :: stack
  | loadConstant value, stack => value :: stack
  | arithmetic op, b :: a :: stack => op.apply a b :: stack
  | arithmetic _, _ => []
  | call f, a :: stack => f.apply a :: stack
  | call _, [] => []

def effect : Instruction → Int
  | loadX | loadConstant _ => 1
  | arithmetic _ => -1
  | call _ => 0

end Instruction

/-- The greatest height of the stack, which has `height` values now and had `greatest` at most. -/
def peakFrom (height greatest : Int) : List Instruction → Int
  | [] => greatest
  | i :: code => peakFrom (height + i.effect) (max greatest (height + i.effect)) code

structure Program where
  code : List Instruction
  maxStack : Nat
deriving BEq

namespace Program

def ofCode (code : List Instruction) : Program := ⟨code, (peakFrom 0 0 code).toNat⟩

/-- What stands on top in the end; code without a result gives no number. -/
def evaluate (p : Program) (x : Float) : Float :=
  match p.code.foldl (fun stack i => i.run x stack) [] with
  | value :: _ => value
  | [] => Binary64.notANumber

end Program

end Formula
