import Formula.Decimal
import Formula.Fault
import Formula.Program
import Formula.Tree.Parser

namespace Formula

def Leaf.load (span : Span) : Leaf → Except BuildError Instruction
  | name text =>
    if text = "x" then .ok .loadX
    else match NamedConstant.ofName? text with
      | some constant => .ok (.loadConstant constant.value)
      | none => .error (.unknownSymbol text span)
  | number text =>
    match Decimal.read text with
    | .ok value => .ok (.loadConstant value)
    | .error _ => .error (.invalidNumber text span)

namespace Tree

/-- The function that the left operand of a call names; `sign` is the span of the call. -/
def callee (sign : Span) : Tree → Except BuildError NamedFunction
  | leaf (.name text) _ =>
    match NamedFunction.ofName? text with
    | some f => .ok f
    | none => .error (.unknownFunction text sign)
  | _ => .error (.unsupported .call sign)

def code : Tree → Except BuildError (List Instruction)
  | leaf l span => do return [← l.load span]
  | node .assign sign _ _ _ => .error (.unsupported .assign sign)
  | node .call sign left right _ => do
    let f ← callee sign left
    return (← right.code) ++ [.call f]
  | node (.arithmetic op) _ left right _ => do
    let first ← left.code
    let second ← right.code
    return first ++ second ++ [.arithmetic op]

inductive Task where
  | visit (t : Tree)
  | emit (i : Instruction)

namespace Task

def weight : List Task → Nat
  | [] => 0
  | visit t :: tasks => 2 * t.size + weight tasks
  | emit _ :: tasks => 1 + weight tasks

/-- What a turn of the loop does with the task at hand: it is done, or replaced by others. The
instructions done are in `emitted`, last one first. -/
def turn : Task → List Task → List Instruction → Except BuildError (List Task × List Instruction)
  | emit i, tasks, emitted => .ok (tasks, i :: emitted)
  | visit (leaf l span), tasks, emitted => do return (tasks, (← l.load span) :: emitted)
  | visit (node .assign sign _ _ _), _, _ => .error (.unsupported .assign sign)
  | visit (node .call sign left right _), tasks, emitted => do
    let f ← callee sign left
    return (visit right :: emit (.call f) :: tasks, emitted)
  | visit (node (.arithmetic op) _ left right _), tasks, emitted =>
    .ok (visit left :: visit right :: emit (.arithmetic op) :: tasks, emitted)

theorem weight_lt_of_turn {task : Task} {tasks rest : List Task} {emitted emitted' : List Instruction}
    (h : turn task tasks emitted = .ok (rest, emitted')) : weight rest < weight (task :: tasks) := by
  cases task with
  | emit i =>
    obtain ⟨rfl, -⟩ := Prod.mk.inj (Except.ok.inj h)
    simp only [weight]
    omega
  | visit t =>
    cases t with
    | leaf l span =>
      rw [turn] at h
      cases hi : l.load span with
      | error fault =>
        rw [hi] at h
        cases h
      | ok i =>
        rw [hi] at h
        obtain ⟨rfl, -⟩ := Prod.mk.inj (Except.ok.inj h)
        simp only [weight, size]
        omega
    | node op sign left right span =>
      cases op with
      | assign => cases h
      | arithmetic op =>
        obtain ⟨rfl, -⟩ := Prod.mk.inj (Except.ok.inj h)
        simp only [weight, size]
        omega
      | call =>
        rw [turn] at h
        cases hf : callee sign left with
        | error fault =>
          rw [hf] at h
          cases h
        | ok f =>
          rw [hf] at h
          obtain ⟨rfl, -⟩ := Prod.mk.inj (Except.ok.inj h)
          simp only [weight, size]
          omega

def perform : List Task → List Instruction → Except BuildError (List Instruction)
  | [], emitted => .ok emitted.reverse
  | task :: tasks, emitted =>
    match _h : turn task tasks emitted with
    | .ok (tasks, emitted) => perform tasks emitted
    | .error fault => .error fault
termination_by tasks => weight tasks
decreasing_by exact weight_lt_of_turn ‹_›

end Task

def build (t : Tree) : Except BuildError Program := do
  return Program.ofCode (← Task.perform [.visit t] [])

namespace Task

theorem perform_nil (emitted : List Instruction) : perform [] emitted = .ok emitted.reverse := by
  rw [perform]

theorem perform_cons (task : Task) (tasks : List Task) (emitted : List Instruction) :
    perform (task :: tasks) emitted = turn task tasks emitted >>= fun s => perform s.1 s.2 := by
  rw [perform]
  split
  · next h => rw [h]; rfl
  · next h => rw [h]; rfl

theorem perform_emit (i : Instruction) (tasks : List Task) (emitted : List Instruction) :
    perform (emit i :: tasks) emitted = perform tasks (i :: emitted) := perform_cons _ _ _

theorem perform_visit (t : Tree) (tasks : List Task) (emitted : List Instruction) :
    perform (visit t :: tasks) emitted =
      t.code >>= fun code => perform tasks (code.reverse ++ emitted) := by
  induction t generalizing tasks emitted with
  | leaf l span =>
    rw [perform_cons, turn, code]
    cases l.load span <;> rfl
  | node op sign left right span ihl ihr =>
    rw [perform_cons]
    cases op with
    | assign => rfl
    | arithmetic op =>
      change perform (visit left :: visit right :: emit (.arithmetic op) :: tasks) emitted = _
      rw [ihl, code]
      cases left.code with
      | error fault => rfl
      | ok first =>
        simp only [ihr, bind, Except.bind]
        cases right.code with
        | error fault => rfl
        | ok second => simp [perform_emit, pure, Except.pure]
    | call =>
      rw [turn, code]
      cases callee sign left with
      | error fault => rfl
      | ok f =>
        change perform (visit right :: emit (.call f) :: tasks) emitted = _
        rw [ihr]
        cases right.code with
        | error fault => rfl
        | ok code => simp [perform_emit, bind, Except.bind, pure, Except.pure]

end Task

theorem build_eq_code (t : Tree) : t.build = t.code.map Program.ofCode := by
  rw [build, Task.perform_visit]
  cases t.code with
  | error fault => rfl
  | ok code => simp [Task.perform_nil, bind, Except.bind, pure, Except.pure, Except.map]

end Tree

namespace Program

def ofString (source : String) : Except CompileError Program :=
  match Tree.ofString source with
  | .error fault => .error (.parse fault)
  | .ok t => t.build.mapError .build

end Program

end Formula
