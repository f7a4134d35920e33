import Formula.Proofs.Faults
import Formula.Proofs.Rounds

/-!
A session reads a line for everything that it is not given, in each round anew, and so is over when
the input is, at the latest. A round is written out here in full, whatever is given: were it given
both an expression and a value, there would be no end of rounds.
-/

namespace Formula

open Text (Reads)

structure Stage where
  written : String
  input : List UInt8

namespace Stage

def write (s : Stage) (text : String) : Stage := ⟨s.written ++ text, s.input⟩

def fail (s : Stage) (report : Report) : Outcome := ⟨1, s.written, [report]⟩

/-- The next line. The end of the input is the end of the program, and so is a line that is no
text. -/
def ask (s : Stage) : Except Outcome (String × Stage) :=
  match Text.takeLine s.input with
  | none => .error ⟨0, s.written, []⟩
  | some (.garbled, _) => .error (s.fail unreadable)
  | some (.text line, rest) => .ok (line, ⟨s.written, rest⟩)

def expression (s : Stage) : Option String → Except Outcome (String × Stage)
  | some source => .ok (source, s.write (source ++ "\n"))
  | none => s.ask

def program (s : Stage) (source : String) : Except Outcome Program :=
  match Program.ofString source with
  | .ok p => .ok p
  | .error e => .error (s.fail (e.diagnostic.about source))

def parse (s : Stage) (line : String) : Except Outcome (Float × Stage) :=
  match readValue line with
  | .ok x => .ok (x, s)
  | .error e => .error (s.fail (e.report line))

def value (s : Stage) : Option Float → Except Outcome (Float × Stage)
  | some x => .ok (x, s)
  | none => (s.write "x = ").ask >>= fun r => r.2.parse r.1

end Stage

/-- One round of a session with what it is given; it ends the program, or another round follows. -/
def playRound (expression : Option String) (x : Option Float) (input : List UInt8) :
    Except Outcome Stage := do
  let (source, s) ← Stage.expression ⟨"****\nf(x)=", input⟩ expression
  let p ← s.program source
  let (x, s) ← s.value x
  return s.write ("####\nf(x) = " ++ source ++ "\n" ++ p.answer x)

/-- The session that starts with this input ends in its round number `n`. -/
inductive EndsIn (expression : Option String) (x : Option Float) :
    Nat → List UInt8 → Outcome → Prop
  | ended {input : List UInt8} {o : Outcome} (h : playRound expression x input = .error o) :
      EndsIn expression x 1 input o
  | again {n : Nat} {input : List UInt8} {s : Stage} {o : Outcome}
      (h : playRound expression x input = .ok s) (hr : EndsIn expression x n s.input o) :
      EndsIn expression x (n + 1) input (o.after s.written)

def missing (expression : Option String) (x : Option Float) : Nat :=
  expression.isNone.toNat + x.isNone.toNat

section Consumption

variable {s t : Stage} {expression : Option String} {x : Option Float} {input : List UInt8}
  {line source : String} {value : Float}

theorem Stage.reads_of_ask (h : s.ask = .ok (line, t)) : Reads 1 s.input t.input := by
  unfold ask at h
  split at h
  · cases h
  · cases h
  · next line' rest htake =>
    obtain ⟨-, rfl⟩ := Prod.mk.inj (Except.ok.inj h)
    exact .line (Text.takeLine_eq_some_iff.mp htake) (.done rest)

theorem Stage.reads_of_expression (h : s.expression expression = .ok (source, t)) :
    Reads expression.isNone.toNat s.input t.input := by
  cases expression with
  | none => exact reads_of_ask h
  | some given =>
    obtain ⟨-, rfl⟩ := Prod.mk.inj (Except.ok.inj h)
    exact .done s.input

theorem Stage.reads_of_value (h : s.value x = .ok (value, t)) :
    Reads x.isNone.toNat s.input t.input := by
  cases x with
  | none =>
    obtain ⟨⟨line, u⟩, hask, hparse⟩ := bind_eq_ok.mp h
    have hreads := reads_of_ask hask
    unfold parse at hparse
    split at hparse
    · obtain ⟨-, rfl⟩ := Prod.mk.inj (Except.ok.inj hparse)
      exact hreads
    · cases hparse
  | some given =>
    obtain ⟨-, rfl⟩ := Prod.mk.inj (Except.ok.inj h)
    exact .done s.input

theorem reads_of_playRound (h : playRound expression x input = .ok t) :
    Reads (missing expression x) input t.input := by
  obtain ⟨⟨source, s⟩, hsource, h⟩ := bind_eq_ok.mp h
  obtain ⟨p, -, h⟩ := bind_eq_ok.mp h
  obtain ⟨⟨value, u⟩, hvalue, h⟩ := bind_eq_ok.mp h
  obtain rfl := pure_eq_ok.mp h
  have hreads := Stage.reads_of_value hvalue
  exact (Stage.reads_of_expression hsource).trans hreads

theorem exists_endsIn (h : 0 < missing expression x) (input : List UInt8) :
    ∃ n o, EndsIn expression x n input o ∧ n ≤ (Text.lines input).length + 1 := by
  -- A round that does not end the program leaves fewer lines to those behind it.
  induction hn : (Text.lines input).length using Nat.strongRecOn generalizing input with
  | ind k ih =>
    cases hround : playRound expression x input with
    | error o => exact ⟨1, o, .ended hround, by omega⟩
    | ok s =>
      have hlen := (reads_of_playRound hround).length_lines
      obtain ⟨n, o, hends, hle⟩ := ih _ (by omega) s.input rfl
      exact ⟨n + 1, o.after s.written, .again hround hends, by omega⟩

end Consumption

theorem not_endsIn_of_given {source : String} {p : Program} (hp : Program.ofString source = .ok p)
    (x : Float) {n : Nat} {input : List UInt8} {o : Outcome} :
    ¬ EndsIn (some source) (some x) n input o := by
  have hround (input : List UInt8) : ∃ s, playRound (some source) (some x) input = .ok s := by
    simp only [playRound, Stage.expression, Stage.program, hp, Stage.value, bind, Except.bind]
    exact ⟨_, rfl⟩
  intro h
  induction h with
  | @ended input o h =>
    obtain ⟨s, hs⟩ := hround input
    cases h.symm.trans hs
  | again _ _ ih => exact ih

def resolve {α : Type} (r : Except Outcome α) (rest : α → Outcome) : Outcome :=
  match r with
  | .ok a => rest a
  | .error o => o

theorem resolve_bind {α β : Type} (r : Except Outcome α) (f : α → Except Outcome β)
    (rest : β → Outcome) : resolve (r >>= f) rest = resolve r fun a => resolve (f a) rest := by
  cases r <;> rfl

def Turn.resume (t : Turn) (s : Stage) : Outcome := (t.play s.input).after s.written

namespace Turn

theorem play_eq_resume (t : Turn) (input : List UInt8) : t.play input = t.resume ⟨"", input⟩ := by
  simp [resume, Outcome.after]

theorem resume_after (output : String) (t : Turn) (s : Stage) :
    (t.after output).resume s = t.resume (s.write output) := by
  rw [resume, play_after, Outcome.after_after]
  rfl

theorem resume_exit (output : String) (code : Nat) (reports : List Report) (s : Stage) :
    resume ⟨output, .exit code reports⟩ s = ⟨code, s.written ++ output, reports⟩ := by
  rw [resume, play_exit]
  rfl

theorem resume_read (output : String) (session : Session) (s : Stage) :
    resume ⟨output, .read session⟩ s =
      resolve (s.write output).ask fun r => (session.hear (.text r.1)).resume r.2 := by
  have hinput : (s.write output).input = s.input := rfl
  rw [resume, Stage.ask, hinput]
  cases htake : Text.takeLine s.input with
  | none =>
    rw [Text.eq_nil_of_takeLine htake, play_end]
    rfl
  | some p =>
    obtain ⟨line, rest⟩ := p
    rw [play_read (Text.takeLine_eq_some_iff.mp htake), Outcome.after_after]
    cases line with
    | garbled =>
      rw [Session.hear, play_exit]
      simp [resolve, Stage.fail, Stage.write, Outcome.after]
    | text line => rfl

end Turn

namespace Given

def expression? : Given → Option String
  | expression source => some source
  | _ => none

def value? : Given → Option Float
  | value x => some x
  | _ => none

theorem resume_conclude (given : Given) (source : String) (p : Program) (x : Float) (s : Stage) :
    (given.conclude source p x).resume s =
      given.round.resume (s.write ("####\nf(x) = " ++ source ++ "\n" ++ p.answer x)) := by
  rw [conclude, Turn.resume_after]

theorem resume_asked (given : Given) (source : String) (p : Program) (s : Stage) :
    Turn.resume ⟨"x = ", .read ⟨given, .value source p⟩⟩ s =
      resolve (s.value none) fun r => (given.conclude source p r.1).resume r.2 := by
  rw [Turn.resume_read, Stage.value, resolve_bind]
  congr 1
  funext r
  rw [Session.hear, Stage.parse]
  cases readValue r.1 with
  | ok x => rfl
  | error e =>
    rw [Turn.resume_exit, String.append_empty]
    rfl

theorem resume_continued (given : Given) (source : String) (s : Stage) :
    (given.continued source).resume s = resolve (s.program source) fun p =>
      resolve (s.value given.value?) fun r => (given.conclude source p r.1).resume r.2 := by
  rw [Stage.program]
  cases hp : Program.ofString source with
  | error e =>
    rw [continued_of_error hp, CompileError.exit, Turn.resume_exit, String.append_empty]
    rfl
  | ok p =>
    cases given with
    | value x =>
      rw [continued, hp]
      rfl
    | nothing =>
      rw [continued_of_asked hp (by simp)]
      exact resume_asked _ source p s
    | expression _ =>
      rw [continued_of_asked hp (by simp)]
      exact resume_asked _ source p s

theorem play_eq_resolve_expression (given : Given) (input : List UInt8) :
    given.round.play input =
      resolve (Stage.expression ⟨"****\nf(x)=", input⟩ given.expression?) fun r =>
        (given.continued r.1).resume r.2 := by
  have hstart (output : String) : (⟨"", input⟩ : Stage).write output = ⟨output, input⟩ := by
    simp [Stage.write]
  rw [Turn.play_eq_resume]
  cases given with
  | expression source =>
    rw [round, Turn.resume_after, hstart, String.append_assoc]
    rfl
  | nothing => exact (Turn.resume_read _ _ _).trans (by rw [hstart]; rfl)
  | value x => exact (Turn.resume_read _ _ _).trans (by rw [hstart]; rfl)

theorem play_eq_resolve_round (given : Given) (input : List UInt8) :
    given.round.play input =
      resolve (playRound given.expression? given.value? input) given.round.resume := by
  rw [play_eq_resolve_expression, playRound, resolve_bind]
  congr 1
  funext r
  rw [resume_continued, resolve_bind]
  congr 1
  funext p
  rw [resolve_bind]
  congr 1
  funext r'
  exact resume_conclude _ _ _ _ _

theorem play_eq_of_endsIn {given : Given} {n : Nat} {input : List UInt8} {o : Outcome}
    (h : EndsIn given.expression? given.value? n input o) : given.round.play input = o := by
  induction h with
  | ended h =>
    rw [play_eq_resolve_round, h]
    rfl
  | again h hr ih =>
    rw [play_eq_resolve_round, h, ← ih]
    rfl

end Given

def Turn.ExitsWith (t : Turn) (o : Outcome) : Prop := t = ⟨o.stdout, .exit o.code o.stderr⟩

/-- The program has to ask for something: no inspection is wanted, and the expression or the value
is not there. -/
def Options.Asks (o : Options) : Prop :=
  o.expression = none ∨ o.debugLexer = false ∧ o.debugParser = false ∧ o.x = none

theorem Options.Asks.missing_cases {o : Options} (h : o.Asks) :
    missing o.expression o.x = 1 ∨ missing o.expression o.x = 2 := by
  obtain ⟨expression, x, _, _⟩ := o
  rcases h with rfl | ⟨-, -, rfl⟩
  · cases x <;> simp [missing]
  · cases expression <;> simp [missing]

theorem Options.Asks.start_eq {o : Options} (h : o.Asks) : o.start = o.known.round ∧
    o.known.expression? = o.expression ∧ o.known.value? = o.x := by
  obtain ⟨expression, x, _, _⟩ := o
  rcases h with rfl | ⟨rfl, rfl, rfl⟩
  · cases x <;> exact ⟨rfl, rfl, rfl⟩
  · cases expression <;> exact ⟨rfl, rfl, rfl⟩

theorem exits_inspectTokens (text : String) : ∃ o, (inspectTokens text).ExitsWith o := by
  unfold inspectTokens
  simp only
  split <;> exact ⟨⟨_, _, _⟩, rfl⟩

theorem exits_inspectTree (text : String) : ∃ o, (inspectTree text).ExitsWith o := by
  unfold inspectTree
  split <;> exact ⟨⟨_, _, _⟩, rfl⟩

theorem exits_evaluateOnce (text : String) (x : Float) : ∃ o, (evaluateOnce text x).ExitsWith o := by
  unfold evaluateOnce
  split <;> exact ⟨⟨_, _, _⟩, rfl⟩

theorem Options.exits_start {o : Options} (h : ¬ o.Asks) : ∃ outcome, o.start.ExitsWith outcome := by
  obtain ⟨expression, x, debugLexer, debugParser⟩ := o
  cases expression with
  | none => exact absurd (.inl rfl) h
  | some source =>
    cases debugLexer with
    | true => exact exits_inspectTokens source
    | false =>
      cases debugParser with
      | true => exact exits_inspectTree source
      | false =>
        cases x with
        | none => exact absurd (.inr ⟨rfl, rfl, rfl⟩) h
        | some x => exact exits_evaluateOnce source x

section

variable {ε : Type}

structure Ends (understand : List String → Except ε Options) (args : List String) (o : Options) :
    Prop where
  unasked : ¬ o.Asks → ∃ outcome, o.start.ExitsWith outcome ∧
    ∀ input, invoke understand args input = .ok outcome
  /-- A round that does not end the program reads one line, or two. -/
  missing : o.Asks → missing o.expression o.x = 1 ∨ missing o.expression o.x = 2
  reads : o.Asks → ∀ input s, playRound o.expression o.x input = .ok s →
    Reads (Formula.missing o.expression o.x) input s.input
  rounds : o.Asks → ∀ input, ∃ n outcome, invoke understand args input = .ok outcome ∧
    EndsIn o.expression o.x n input outcome ∧ n ≤ (Text.lines input).length + 1

variable {understand : List String → Except ε Options} {args : List String} {o : Options}

theorem ends_of_understood (h : understand args = .ok o) : Ends understand args o where
  unasked ha := by
    obtain ⟨outcome, hexits⟩ := Options.exits_start ha
    refine ⟨outcome, hexits, fun input => ?_⟩
    rw [invoke_of_understood h, show o.start = _ from hexits, Turn.play_exit]
  missing ha := ha.missing_cases
  reads _ _ _ hround := reads_of_playRound hround
  rounds ha input := by
    obtain ⟨hstart, hexpression, hvalue⟩ := ha.start_eq
    have hpos : 0 < Formula.missing o.expression o.x := by
      rcases ha.missing_cases with hone | htwo
      · omega
      · omega
    obtain ⟨n, outcome, hends, hle⟩ := exists_endsIn hpos input
    have hplay : o.known.round.play input = outcome := by
      apply Given.play_eq_of_endsIn
      rw [hexpression, hvalue]
      exact hends
    refine ⟨n, outcome, ?_, hends, hle⟩
    rw [invoke_of_understood h, hstart, hplay]

end

theorem ends_of_understood_unclosed :
    let o : Options := {}
    let understand : List String → Except Unit Options := fun args =>
      if args = [] then .ok o else .error ()
    understand [] = .ok o ∧ o.Asks ∧ Ends understand [] o ∧ missing o.expression o.x = 2 ∧
      ∃ n outcome, n ≤ 2 ∧ invoke understand [] [40] = .ok outcome ∧
        EndsIn o.expression o.x n [40] outcome := by
  intro o understand
  have hunderstood : understand [] = .ok o := rfl
  have hasks : o.Asks := .inl rfl
  have hends : Ends understand [] o := ends_of_understood hunderstood
  obtain ⟨n, outcome, hrun, hround, hle⟩ := hends.rounds hasks [40]
  have hline : Text.Begins [40] (.text "(") [] := Text.takeLine_eq_some_iff.mp (by decide +kernel)
  have hlines : Text.lines [40] = [.text "("] := by
    rw [Text.lines_of_begins hline, Text.lines_nil]
  rw [hlines] at hle
  exact ⟨hunderstood, hasks, hends, rfl, n, outcome, hle, hrun, hround⟩

end Formula
