import Formula.Invocation
import Formula.Proofs.Lines

/-!
A session plays one round after another. What a round writes depends on its own lines, and the rounds
that follow go on as if the program had been started there.
-/

namespace Formula

open Text (Line Begins)

def Outcome.after (written : String) (o : Outcome) : Outcome := ⟨o.code, written ++ o.stdout, o.stderr⟩

namespace Turn

variable {input rest : List UInt8}

theorem playAfter_eq (written : String) (t : Turn) (input : List UInt8) :
    t.playAfter written input = (t.play input).after written := by
  -- Every line read leaves less of the input.
  induction hn : input.length using Nat.strongRecOn generalizing written t input with
  | ind n ih =>
    rw [play, playAfter, playAfter]
    split
    · simp [Outcome.after]
    · split
      · simp [Outcome.after]
      · next line rest h =>
        have hlt := Text.takeLine_length_lt h
        rw [ih _ (hn ▸ hlt) _ _ _ rfl, ih _ (hn ▸ hlt) ("" ++ t.output) _ _ rfl]
        simp [Outcome.after, String.append_assoc]

theorem play_after (output : String) (t : Turn) (input : List UInt8) :
    (t.after output).play input = (t.play input).after output := by
  rw [← playAfter_eq, play, playAfter, playAfter]
  simp [Turn.after]

theorem play_exit (output : String) (code : Nat) (reports : List Report) (input : List UInt8) :
    play ⟨output, .exit code reports⟩ input = ⟨code, output, reports⟩ := by
  rw [play, playAfter]
  simp

theorem play_read {line : Line} (h : Begins input line rest) (output : String) (s : Session) :
    play ⟨output, .read s⟩ input = ((s.hear line).play rest).after output := by
  have htake := Text.takeLine_eq_some_iff.mpr h
  rw [← playAfter_eq, play, playAfter]
  simp only [String.empty_append]
  split
  · next hnone => simp [htake] at hnone
  · next line' rest' hsome =>
    obtain ⟨rfl, rfl⟩ := Prod.mk.inj (Option.some.inj (htake.symm.trans hsome))
    rfl

theorem play_end (output : String) (s : Session) : play ⟨output, .read s⟩ [] = ⟨0, output, []⟩ := by
  rw [play, playAfter]
  simp [Text.takeLine]

end Turn

namespace Given

def expressionPrompt : Given → String
  | expression source => "****\nf(x)=" ++ source ++ "\n"
  | _ => "****\nf(x)="

def valuePrompt : Given → String
  | value _ => ""
  | _ => "x = "

inductive Takes : Given → List UInt8 → String → List UInt8 → Prop
  | given {source : String} {input : List UInt8} : Takes (expression source) input source input
  | line {given : Given} {input rest : List UInt8} {source : String}
      (hg : ∀ s, given ≠ expression s) (h : Begins input (.text source) rest) :
      Takes given input source rest

inductive TakesValue : Given → List UInt8 → Float → List UInt8 → Prop
  | given {x : Float} {input : List UInt8} : TakesValue (value x) input x input
  | line {given : Given} {input rest : List UInt8} {line : String} {x : Float}
      (hg : ∀ y, given ≠ value y) (h : Begins input (.text line) rest)
      (hx : readValue line = .ok x) : TakesValue given input x rest

def continued (given : Given) (source : String) : Turn :=
  match given with
  | value x =>
    match Program.ofString source with
    | .ok p => given.conclude source p x
    | .error e => ⟨"", e.exit source⟩
  | _ => given.askValue source

variable {given : Given} {input rest : List UInt8} {source : String} {p : Program} {x : Float}

theorem round_play (h : given.Takes input source rest) :
    given.round.play input = ((given.continued source).play rest).after given.expressionPrompt := by
  cases h with
  | given => rw [round, Turn.play_after]; rfl
  | line hg h =>
    cases given with
    | expression s => exact absurd rfl (hg s)
    | nothing => exact Turn.play_read h _ _
    | value x => exact Turn.play_read h _ _

theorem continued_of_asked (hp : Program.ofString source = .ok p) (hg : ∀ y, given ≠ value y) :
    given.continued source = ⟨given.valuePrompt, .read ⟨given, .value source p⟩⟩ := by
  cases given with
  | value y => exact absurd rfl (hg y)
  | expression s => simp [continued, askValue, hp, valuePrompt]
  | nothing => simp [continued, askValue, hp, valuePrompt]

theorem continued_of_error {e : CompileError} (he : Program.ofString source = .error e) :
    given.continued source = ⟨"", e.exit source⟩ := by
  cases given <;> simp [continued, askValue, he]

theorem continued_play (hp : Program.ofString source = .ok p) (h : given.TakesValue input x rest) :
    (given.continued source).play input =
      ((given.conclude source p x).play rest).after given.valuePrompt := by
  cases h with
  | given =>
    rw [continued]
    simp [hp, valuePrompt, Outcome.after]
  | @line _ _ _ line _ hg h hx =>
    have hhear : Session.hear ⟨given, .value source p⟩ (.text line) = given.conclude source p x := by
      simp [Session.hear, hx]
    rw [continued_of_asked hp hg, Turn.play_read h, hhear]

end Given

structure Round where
  source : String
  x : Float

def Given.block (given : Given) (r : Round) : String :=
  given.expressionPrompt ++ given.valuePrompt ++ "####\nf(x) = " ++ r.source ++ "\n" ++
    (evaluateOnce r.source r.x).output

inductive Rounds (given : Given) : List UInt8 → List Round → List UInt8 → Prop
  | done (rest : List UInt8) : Rounds given rest [] rest
  | round {input behind next rest : List UInt8} {source : String} {p : Program} {x : Float}
      {rounds : List Round} (hs : given.Takes input source behind)
      (hp : Program.ofString source = .ok p) (hx : given.TakesValue behind x next)
      (h : Rounds given next rounds rest) : Rounds given input (⟨source, x⟩ :: rounds) rest

variable {given : Given} {input behind next rest : List UInt8} {source : String} {p : Program}
  {x : Float} {rounds : List Round}

theorem evaluateOnce_of_ok (hp : Program.ofString source = .ok p) (x : Float) :
    evaluateOnce source x = ⟨p.answer x, .exit 0 []⟩ := by
  simp [evaluateOnce, hp]

theorem Outcome.after_after (first second : String) (o : Outcome) :
    (o.after second).after first = o.after (first ++ second) := by
  simp [Outcome.after, String.append_assoc]

theorem Given.play_of_round (hs : given.Takes input source behind)
    (hp : Program.ofString source = .ok p) (hx : given.TakesValue behind x next) :
    given.round.play input = (given.round.play next).after (given.block ⟨source, x⟩) := by
  rw [round_play hs, continued_play hp hx, conclude, Turn.play_after, Outcome.after_after,
    Outcome.after_after, block, evaluateOnce_of_ok hp]
  simp only [String.append_assoc]

theorem Rounds.play (h : Rounds given input rounds rest) : given.round.play input =
    (given.round.play rest).after (String.join (rounds.map given.block)) := by
  induction h with
  | done rest => simp [Outcome.after]
  | round hs hp hx h ih =>
    rw [Given.play_of_round hs hp hx, ih, Outcome.after_after, List.map_cons, String.join_cons]

def Options.known (o : Options) : Given :=
  match o.expression, o.x with
  | some source, _ => .expression source
  | none, some x => .value x
  | none, none => .nothing

variable {o : Options} {args : List String}

theorem Options.start_eq_round (hl : o.debugLexer = false) (hp : o.debugParser = false)
    (hm : o.expression = none ∨ o.x = none) : o.start = o.known.round := by
  obtain ⟨expression, x, _, _⟩ := o
  obtain rfl := hl
  obtain rfl := hp
  cases expression with
  | none => cases x <;> rfl
  | some source =>
    obtain rfl : x = none := by simpa using hm
    rfl

def Options.Computes (o : Options) (source : String) (x : Float) : Prop :=
  o.expression = some source ∧ o.x = some x ∧ o.debugLexer = false ∧ o.debugParser = false

theorem Options.Computes.start_eq (h : o.Computes source x) : o.start = evaluateOnce source x := by
  obtain ⟨hs, hx, hl, hp⟩ := h
  simp [start, hs, hx, hl, hp]

section

variable {ε : Type}

structure PlaysInRounds (understand : List String → Except ε Options) (args : List String)
    (given : Given) : Prop where
  /-- What follows successful rounds is played as if the program were started there. -/
  rounds : ∀ input rounds rest, Rounds given input rounds rest → ∃ o,
    invoke understand args rest = .ok o ∧
      invoke understand args input = .ok (o.after (String.join (rounds.map given.block)))
  /-- The last line of a round is all that the program writes with both on the command line. -/
  lastLine : ∀ source p x, Program.ofString source = .ok p → ∃ before last,
    given.block ⟨source, x⟩ = before ++ "\n" ++ last ++ "\n" ∧ '\n' ∉ last.toList ∧
      ∀ o args input, understand args = .ok o → o.Computes source x →
        invoke understand args input = .ok ⟨0, last ++ "\n", []⟩
  /-- A fault in the expression ends the program, whatever there is to read behind it. -/
  fault : ∀ source e, Program.ofString source = .error e → ∃ reports,
    ∀ input behind, given.Takes input source behind →
      invoke understand args input = .ok ⟨1, given.expressionPrompt, reports⟩
  endBeforeExpression : (∀ source, given ≠ .expression source) →
    invoke understand args [] = .ok ⟨0, given.expressionPrompt, []⟩
  endBeforeValue : (∀ x, given ≠ .value x) → ∀ input source p, given.Takes input source [] →
    Program.ofString source = .ok p →
      invoke understand args input = .ok ⟨0, given.expressionPrompt ++ "x = ", []⟩

variable {understand : List String → Except ε Options}

theorem invoke_of_understood (h : understand args = .ok o) (input : List UInt8) :
    invoke understand args input = .ok (o.start.play input) := by
  rw [invoke, h]
  rfl

theorem Given.exists_lastLine (given : Given) (hp : Program.ofString source = .ok p) (x : Float) :
    ∃ before last, given.block ⟨source, x⟩ = before ++ "\n" ++ last ++ "\n" ∧
      '\n' ∉ last.toList ∧ evaluateOnce source x = ⟨last ++ "\n", .exit 0 []⟩ := by
  refine ⟨given.expressionPrompt ++ given.valuePrompt ++ "####\nf(x) = " ++ source,
    "f(" ++ Decimal.write x ++ ") = " ++ Decimal.write (p.evaluate x), ?_, ?_, ?_⟩
  · rw [block, evaluateOnce_of_ok hp, Program.answer]
    simp only [String.append_assoc]
  · simp [Decimal.newline_not_mem_write]
  · rw [evaluateOnce_of_ok hp, Program.answer]

theorem playsInRounds_of_understood (h : understand args = .ok o) (hl : o.debugLexer = false)
    (hp : o.debugParser = false) (hm : o.expression = none ∨ o.x = none) :
    PlaysInRounds understand args o.known := by
  have hrun (input : List UInt8) : invoke understand args input = .ok (o.known.round.play input) := by
    rw [invoke_of_understood h, Options.start_eq_round hl hp hm]
  constructor
  · intro input rounds rest hr
    exact ⟨_, hrun rest, by rw [hrun, hr.play]⟩
  · intro source p x hok
    obtain ⟨before, last, hblock, hlast, honce⟩ := o.known.exists_lastLine hok x
    refine ⟨before, last, hblock, hlast, ?_⟩
    intro o' args' input hunderstood hcomputes
    rw [invoke_of_understood hunderstood, hcomputes.start_eq, honce, Turn.play_exit]
  · intro source e he
    refine ⟨[e.diagnostic.about source], ?_⟩
    intro input behind ht
    rw [hrun, Given.round_play ht, Given.continued_of_error he, CompileError.exit, Turn.play_exit]
    simp [Outcome.after]
  · intro hg
    rw [hrun]
    cases hgiven : o.known with
    | expression s => exact absurd hgiven (hg s)
    | nothing => exact congrArg Except.ok (Turn.play_end _ _)
    | value x => exact congrArg Except.ok (Turn.play_end _ _)
  · intro hg input source p ht hok
    rw [hrun, Given.round_play ht, Given.continued_of_asked hok hg, Turn.play_end]
    cases hgiven : o.known with
    | value x => exact absurd hgiven (hg x)
    | nothing => rfl
    | expression s => rfl

end

theorem playsInRounds_of_understood_cosine :
    let o : Options := { expression := "cos(x)" }
    let r : Round := ⟨"cos(x)", Binary64.toFloat false Binary64.infinity⟩
    let understand : List String → Except Unit Options := fun args =>
      if args = ["cos(x)"] then .ok o
      else if args = ["--x=inf", "cos(x)"] then .ok { o with x := r.x }
      else .error ()
    let input : List UInt8 := [105, 110, 102, 10, 49]
    understand ["cos(x)"] = .ok o ∧ PlaysInRounds understand ["cos(x)"] o.known ∧
      Rounds o.known input [r] [49] ∧
      (∃ behind, invoke understand ["cos(x)"] [49] = .ok behind ∧ invoke understand ["cos(x)"] input =
        .ok (behind.after (String.join [o.known.block r]))) ∧
      ∃ before last, o.known.block r = before ++ "\n" ++ last ++ "\n" ∧
        invoke understand ["--x=inf", "cos(x)"] [] = .ok ⟨0, last ++ "\n", []⟩ := by
  intro o r understand input
  have hunderstood : understand ["cos(x)"] = .ok o := rfl
  have honce : understand ["--x=inf", "cos(x)"] = .ok { o with x := r.x } := rfl
  have hplays : PlaysInRounds understand ["cos(x)"] o.known :=
    playsInRounds_of_understood hunderstood rfl rfl (.inr rfl)
  have hread : Decimal.read "inf" = .ok r.x := by decide +kernel
  have hparse : Tree.ofString "cos(x)" = .ok (.node .call ⟨0, 3⟩ (.leaf (.name "cos") ⟨0, 3⟩)
      (.leaf (.name "x") ⟨4, 5⟩) ⟨0, 5⟩) := by decide +kernel
  have hcompiles : Program.ofString "cos(x)" = .ok (.ofCode [.loadX, .call .cos]) := by
    rw [Program.ofString, hparse]
    change Except.mapError _ (Tree.build _) = _
    rw [Tree.build_eq_code]
    rfl
  have hrounds : Rounds o.known input [r] [49] := by
    have hline : Begins input (.text "inf") [49] := Text.takeLine_eq_some_iff.mp (by decide +kernel)
    exact .round .given hcompiles (.line (by simp [o, Options.known]) hline hread) (.done _)
  obtain ⟨before, last, hblock, -, hlast⟩ := hplays.lastLine r.source _ r.x hcompiles
  exact ⟨hunderstood, hplays, hrounds, hplays.rounds _ _ _ hrounds, before, last, hblock,
    hlast _ _ _ honce ⟨rfl, rfl, rfl, rfl⟩⟩

end Formula
