import Formula.Proofs.Placement
import Formula.Proofs.Segments
import Formula.Proofs.Steps
import Formula.Proofs.Verdict
import Mathlib.Logic.Function.Iterate
import Mathlib.Data.Finset.Card

namespace Formula

open Formula.Tree
open Text (byteSize byteSize_nil byteSize_cons byteSize_append)

def Placement.shift (n : Nat) : Placement where
  start i := n + i
  stop i := n + i
  start_mono _ _ h := Nat.add_le_add_left h n
  stop_mono _ _ h := Nat.add_le_add_left h n

namespace Reader

variable {rest : List Char} {offset : Nat} {read : List Token} {fault : Option LexError}

theorem Splits.shift (h : Splits rest offset read fault) (n : Nat) :
    Splits rest (n + offset) (read.map (Token.place (.shift n)))
      (fault.map (LexError.place (.shift n))) := by
  induction h with
  | done offset => exact .done _
  | blank hc h ih =>
    rw [← Nat.add_assoc] at ih
    exact .blank hc ih
  | token hk h ih =>
    simp only [← Nat.add_assoc, List.map_cons, Token.place, Span.place, Placement.shift] at ih ⊢
    exact .token hk ih
  | stray hc =>
    simp only [← Nat.add_assoc, Option.map_some, LexError.place, Span.place, Placement.shift]
    exact .stray hc

theorem parse_eq_shift (rest : List Char) (n : Nat) :
    (parse ⟨rest, n, false⟩).1 = mapBoth (ParseError.place (.shift n)) (Tree.place (.shift n))
      (Tree.ofString (String.ofList rest)) := by
  obtain ⟨htokens, hfault⟩ := ((splits_tokens rest 0).1.shift n).tokens_eq
  have hparse : (parse ⟨rest, n, false⟩).1 =
      ofTokens (tokens ⟨rest, n, false⟩).1 (tokens ⟨rest, n, false⟩).2.1 := by
    rw [ofTokens, ← fill_eq_fillFrom]
    rfl
  have hfresh : Tree.ofString (String.ofList rest) =
      ofTokens (tokens ⟨rest, 0, false⟩).1 (tokens ⟨rest, 0, false⟩).2.1 := by
    rw [ofString_eq, Reader.ofString, String.toList_ofList]
    rfl
  rw [Nat.add_zero] at htokens hfault
  rw [hparse, hfresh, htokens, hfault, ofTokens_place]

structure Ahead (r s : Reader) : Prop where
  stopped : s.stopped = false
  skipped : ∃ read, r.rest = read ++ s.rest ∧ s.offset = r.offset + byteSize read

theorem Ahead.trans {r s q : Reader} (h : Ahead r s) (h' : Ahead s q) : Ahead r q := by
  obtain ⟨-, read, hr, hs⟩ := h
  obtain ⟨hq, read', hr', hs'⟩ := h'
  refine ⟨hq, read ++ read', by rw [hr, hr', List.append_assoc], ?_⟩
  rw [hs', hs, byteSize_append, Nat.add_assoc]

inductive Found (r : Reader) : Reading → Reader → Prop
  | nothing {s : Reader} (ha : Ahead r s) (hs : s.rest = []) : Found r (.ok none) s
  | token {t : Token} {s : Reader} (ha : Ahead r s) (hs : s.offset = t.span.stop) :
      Found r (.ok (some t)) s
  | stray {e : LexError} {s : Reader} (hs : s.stopped) : Found r (.error e) s

theorem Found.of_ahead {r s q : Reader} {found : Reading} (ha : Ahead r s) (h : Found s found q) :
    Found r found q := by
  cases h with
  | nothing ha' hs => exact .nothing (ha.trans ha') hs
  | token ha' hs => exact .token (ha.trans ha') hs
  | stray hs => exact .stray hs

theorem found_scan (rest : List Char) (offset : Nat) :
    Found ⟨rest, offset, false⟩ (scan rest offset).1 (scan rest offset).2 := by
  induction rest generalizing offset with
  | nil => exact .nothing ⟨rfl, [], rfl, rfl⟩ rfl
  | cons c rest ih =>
    have hword (kind : String → Token.Kind) (p : Char → Bool) : Found ⟨c :: rest, offset, false⟩
        (word kind p c rest offset).1 (word kind p c rest offset).2 :=
      .token ⟨rfl, c :: rest.takeWhile p, by simp [word], rfl⟩ rfl
    unfold scan
    split
    · exact .token ⟨rfl, [c], rfl, rfl⟩ rfl
    · split
      · exact hword _ _
      · split
        · exact hword _ _
        · split
          · exact .of_ahead ⟨rfl, [c], rfl, rfl⟩ (ih _)
          · exact .stray rfl

theorem found_next {r : Reader} (hr : r.stopped = false) : Found r r.next.1 r.next.2 := by
  obtain ⟨rest, offset, stopped⟩ := r
  obtain rfl : stopped = false := hr
  exact found_scan rest offset

end Reader

inductive Refused (t : Token) : ParseError → Prop
  | callOnNumber {span : Span} (ht : t.kind = .openParen) (hs : span.stop = t.span.stop) :
      Refused t (.callOnNumber span)
  | unmatched (ht : t.kind = .closeParen) : Refused t (.unmatchedCloseParen t.span)

theorem Tree.Yard.refused_of_push {y : Yard} {t : Token} {e : ParseError} (h : y.push t = .error e) :
    Refused t e := by
  cases push_eq_error_iff.mp h with
  | callOnNumber ht => exact .callOnNumber ht rfl
  | unmatched ht => exact .unmatched ht

theorem Tree.Yard.eq_unclosedParen_of_drain {pending : List Pending} {placed : List Item}
    {e : ParseError} (h : drain pending placed = .error e) : ∃ span, e = .unclosedParen span := by
  induction pending generalizing placed with
  | nil => cases h
  | cons p pending ih =>
    cases p with
    | operator op sign => exact ih h
    | paren span => exact ⟨span, (Except.error.inj h).symm⟩

theorem Tree.Yard.items_ofItems_cases (y : Yard) :
    (∃ span, y.items >>= ofItems = .error (.unclosedParen span)) ∨
      Reduced (y.items >>= ofItems) := by
  cases h : y.items with
  | error e =>
    obtain ⟨span, rfl⟩ := eq_unclosedParen_of_drain h
    exact .inl ⟨span, rfl⟩
  | ok items => exact .inr (reduced_ofItems items)

namespace Reader

/-- How the reading of an expression from `r` on ends: at the end of the text, at a character that
belongs to no token, or behind a parenthesis that is refused. -/
inductive Ending (r : Reader) : Except ParseError Yard → Reader → Prop
  | complete {y : Yard} {s : Reader} (ha : Ahead r s) (hs : s.rest = []) : Ending r (.ok y) s
  | stray {e : LexError} {s : Reader} (hs : s.stopped) : Ending r (.error (.lex e)) s
  | refused (before : List Token) {t : Token} {e : ParseError} {s : Reader} (he : Refused t e)
      (ht : r.tokens = (before ++ t :: s.tokens.1, s.tokens.2)) (ha : Ahead r s)
      (hs : s.offset = t.span.stop) : Ending r (.error e) s

theorem ending_fill (y : Yard) {r : Reader} (hr : r.stopped = false) :
    Ending r (r.fill y).1 (r.fill y).2 := by
  induction hn : r.rest.length using Nat.strongRecOn generalizing y r with
  | ind n ih =>
    have hfound := found_next hr
    rw [fill]
    split
    · next s h =>
      rw [h] at hfound
      cases hfound with
      | nothing ha hs => exact .complete ha hs
    · next e s h =>
      rw [h] at hfound
      cases hfound with
      | stray hs => exact .stray hs
    · next t s h =>
      have hlt := next_length_lt h
      have htokens := tokens_of_next_some h
      rw [h] at hfound
      cases hfound with
      | token ha hstop =>
        cases hp : y.push t with
        | error e => exact .refused [] (Yard.refused_of_push hp) htokens ha hstop
        | ok z =>
          have hrest := ih _ (hn ▸ hlt) z ha.stopped rfl
          change Ending r (s.fill z).1 (s.fill z).2
          generalize (s.fill z).1 = out at hrest
          generalize (s.fill z).2 = q at hrest
          cases hrest with
          | complete ha' hs => exact .complete (ha.trans ha') hs
          | stray hs => exact .stray hs
          | @refused before t' e _ he ht ha' hs =>
            refine .refused (t :: before) he ?_ (ha.trans ha') hs
            rw [htokens, ht]
            rfl

/-- The ways in which the reading of an expression ends, with what comes of it. At the end of the
text there are no faults of a character or of a parenthesis refused. -/
inductive Parsed (r : Reader) : Except ParseError Tree → Reader → Prop
  | complete {result : Except ParseError Tree} {s : Reader} (ha : Ahead r s) (hs : s.rest = [])
      (hl : ∀ e, result ≠ .error (.lex e)) (ht : ∀ t e, Refused t e → result ≠ .error e) :
      Parsed r result s
  | stray {e : LexError} {s : Reader} (hs : s.stopped) : Parsed r (.error (.lex e)) s
  | refused (before : List Token) {t : Token} {e : ParseError} {s : Reader} (he : Refused t e)
      (ht : r.tokens = (before ++ t :: s.tokens.1, s.tokens.2)) (ha : Ahead r s)
      (hs : s.offset = t.span.stop) : Parsed r (.error e) s

theorem parsed_parse {r : Reader} (hr : r.stopped = false) : Parsed r r.parse.1 r.parse.2 := by
  have hending := ending_fill .empty hr
  change Parsed r ((r.fill .empty).1 >>= Yard.items >>= ofItems) (r.fill .empty).2
  generalize (r.fill .empty).1 = out at hending
  generalize (r.fill .empty).2 = s at hending
  cases hending with
  | @complete y s ha hs =>
    change Parsed r (y.items >>= ofItems) s
    refine .complete ha hs ?_ ?_
    · intro e he
      rcases y.items_ofItems_cases with ⟨span, h⟩ | h
      · cases h.symm.trans he
      · rw [he] at h
        cases h
    · intro t e ht he
      rcases y.items_ofItems_cases with ⟨span, h⟩ | h
      · cases h.symm.trans he
        cases ht
      · rw [he] at h
        cases h <;> cases ht
  | stray hs => exact .stray hs
  | refused before he ht ha hs => exact .refused before he ht ha hs

def Finished (r : Reader) : Prop := r.next = (.ok none, r)

theorem finished_of_stopped {r : Reader} (h : r.stopped) : Finished r := by
  rw [Finished, next, if_pos h]

theorem finished_of_rest {r : Reader} (hr : r.stopped = false) (h : r.rest = []) : Finished r := by
  obtain ⟨rest, offset, stopped⟩ := r
  obtain rfl : stopped = false := hr
  obtain rfl : rest = [] := h
  rfl

theorem Finished.parse_eq {r : Reader} (h : Finished r) :
    r.parse = (.error .emptyExpression, r) := by
  have hfill : r.fill .empty = (.ok .empty, r) := by
    rw [fill]
    split <;> simp_all [Finished]
  rw [parse, hfill]
  rfl

/-- The reader of a text before call `n` of `parse`, counted from 0. -/
def atCall (source : String) (n : Nat) : Reader := (fun r => r.parse.2)^[n] (ofString source)

def outcome (source : String) (n : Nat) : Except ParseError Tree := (atCall source n).parse.1

variable {source : String} {m n : Nat}

theorem atCall_succ (source : String) (n : Nat) :
    atCall source (n + 1) = (atCall source n).parse.2 :=
  Function.iterate_succ_apply' _ n _

theorem finished_mono (h : Finished (atCall source m)) (hn : m ≤ n) :
    Finished (atCall source n) := by
  induction hn with
  | refl => exact h
  | step hle ih => rwa [atCall_succ, ih.parse_eq]

theorem Finished.outcome_eq (h : Finished (atCall source n)) :
    outcome source n = .error .emptyExpression := by
  rw [outcome, h.parse_eq]

theorem ahead_atCall (h : (atCall source n).stopped = false) :
    Ahead (ofString source) (atCall source n) := by
  induction n with
  | zero => exact ⟨rfl, [], rfl, rfl⟩
  | succ n ih =>
    rw [atCall_succ] at h ⊢
    cases hr : (atCall source n).stopped with
    | true =>
      rw [(finished_of_stopped hr).parse_eq, hr] at h
      cases h
    | false =>
      have hparsed := parsed_parse hr
      generalize (atCall source n).parse.1 = result at hparsed
      generalize (atCall source n).parse.2 = s at hparsed h
      cases hparsed with
      | complete ha => exact (ih hr).trans ha
      | stray hs => exact absurd h (by simp [hs])
      | refused before he ht ha => exact (ih hr).trans ha

theorem stopped_eq_false (h : ∀ m < n, ∀ e, outcome source m ≠ .error (.lex e)) :
    (atCall source n).stopped = false := by
  induction n with
  | zero => rfl
  | succ n ih =>
    have hparsed := parsed_parse (ih fun m hm => h m (Nat.lt_succ_of_lt hm))
    have hn := h n (Nat.lt_succ_self n)
    rw [outcome] at hn
    rw [atCall_succ]
    generalize (atCall source n).parse.1 = result at hparsed hn
    generalize (atCall source n).parse.2 = s at hparsed
    cases hparsed with
    | complete ha => exact ha.stopped
    | stray hs => exact absurd rfl (hn _)
    | refused before he ht ha => exact ha.stopped

theorem finished_or_exists_used (source : String) (n : Nat) : Finished (atCall source n) ∨
    (atCall source n).stopped = false ∧ ∃ used, n ≤ used.length ∧
      (ofString source).tokens = (used ++ (atCall source n).tokens.1, (atCall source n).tokens.2) := by
  induction n with
  | zero => exact .inr ⟨rfl, [], Nat.le_refl 0, rfl⟩
  | succ n ih =>
    rcases ih with h | ⟨hr, used, hn, hused⟩
    · exact .inl (finished_mono h (Nat.le_succ n))
    · have hparsed := parsed_parse hr
      rw [atCall_succ]
      generalize (atCall source n).parse.1 = result at hparsed
      generalize (atCall source n).parse.2 = s at hparsed
      cases hparsed with
      | complete ha hs => exact .inl (finished_of_rest ha.stopped hs)
      | stray hs => exact .inl (finished_of_stopped hs)
      | @refused before t e _ he ht ha hs =>
        refine .inr ⟨ha.stopped, used ++ before ++ [t], ?_, ?_⟩
        · simp only [List.length_append, List.length_singleton]
          omega
        · rw [hused, ht]
          simp

theorem finished_succ (h : ∀ t e, Refused t e → outcome source n ≠ .error e) :
    Finished (atCall source (n + 1)) := by
  rw [atCall_succ]
  cases hr : (atCall source n).stopped with
  | true =>
    have hf := finished_of_stopped hr
    rwa [hf.parse_eq]
  | false =>
    have hparsed := parsed_parse hr
    rw [outcome] at h
    generalize (atCall source n).parse.1 = result at hparsed h
    generalize (atCall source n).parse.2 = s at hparsed
    cases hparsed with
    | complete ha hs => exact finished_of_rest ha.stopped hs
    | stray hs => exact finished_of_stopped hs
    | refused before he ht ha => exact absurd rfl (h _ _ he)

theorem exists_refused {p : Token} {e : ParseError} (hp : Refused p e)
    (h : outcome source n = .error e) : ∃ t ∈ (ofString source).tokens.1, Refused t e ∧
      (atCall source (n + 1)).offset = t.span.stop := by
  rcases finished_or_exists_used source n with hf | ⟨hr, used, -, hused⟩
  · rw [hf.outcome_eq] at h
    cases h
    cases hp
  · have hparsed := parsed_parse hr
    rw [outcome] at h
    rw [atCall_succ, hused]
    rw [h] at hparsed
    generalize (atCall source n).parse.2 = s at hparsed
    cases hparsed with
    | complete ha hs hl ht => exact absurd rfl (ht p e hp)
    | stray hs => cases hp
    | @refused before t _ _ he ht ha hs => exact ⟨t, by simp [ht], he, hs⟩

theorem le_length_of_outcome_ne (h : outcome source n ≠ .error .emptyExpression) :
    n ≤ (ofString source).tokens.1.length := by
  rcases finished_or_exists_used source n with hf | ⟨-, used, hn, hused⟩
  · exact absurd hf.outcome_eq h
  · rw [hused, List.length_append]
    omega

structure Resumption (source : String) (n : Nat) : Prop where
  stray : ∀ m < n, ∀ e, outcome source m = .error (.lex e) →
    outcome source n = .error .emptyExpression
  /-- The text from the reader's offset on is read like a text of its own. -/
  fresh : (∀ m < n, ∀ e, outcome source m ≠ .error (.lex e)) → ∃ before after,
    source.toList = before ++ after ∧ byteSize before = (atCall source n).offset ∧
    outcome source n = mapBoth (ParseError.place (.shift (byteSize before)))
      (Tree.place (.shift (byteSize before))) (Tree.ofString (String.ofList after))
  last : ∀ m < n, (∀ span, outcome source m ≠ .error (.callOnNumber span)) →
    (∀ span, outcome source m ≠ .error (.unmatchedCloseParen span)) →
    outcome source n = .error .emptyExpression
  callOnNumber : ∀ span, outcome source n = .error (.callOnNumber span) →
    ∃ t ∈ (ofString source).tokens.1, t.kind = .openParen ∧ span.stop = t.span.stop ∧
      (atCall source (n + 1)).offset = t.span.stop
  unmatched : ∀ span, outcome source n = .error (.unmatchedCloseParen span) →
    ∃ t ∈ (ofString source).tokens.1, t.kind = .closeParen ∧ span = t.span ∧
      (atCall source (n + 1)).offset = t.span.stop
  few : ((Finset.range n).filter fun m => outcome source m ≠ .error .emptyExpression).card ≤
    (ofString source).tokens.1.length + 1

theorem resumption (source : String) (n : Nat) : Resumption source n where
  stray m hm e h := by
    have hfinished : Finished (atCall source (m + 1)) := finished_succ (by
      intro t e' he h'
      cases h.symm.trans h'
      cases he)
    exact (finished_mono hfinished hm).outcome_eq
  fresh h := by
    have hr := stopped_eq_false h
    obtain ⟨-, before, hsource, hoffset⟩ := ahead_atCall hr
    have hbefore : byteSize before = (atCall source n).offset := by
      rw [hoffset]
      exact (Nat.zero_add _).symm
    refine ⟨before, (atCall source n).rest, hsource, hbefore, ?_⟩
    rw [hbefore, outcome, ← parse_eq_shift, ← hr]
  last m hm hcall hclose := by
    have hfinished : Finished (atCall source (m + 1)) := finished_succ (by
      intro t e he h
      cases he with
      | callOnNumber ht => exact hcall _ h
      | unmatched ht => exact hclose _ h)
    exact (finished_mono hfinished hm).outcome_eq
  callOnNumber span h := by
    obtain ⟨t, ht, he, hoffset⟩ := exists_refused (p := ⟨.openParen, span⟩) (.callOnNumber rfl rfl) h
    cases he with
    | callOnNumber hk hs => exact ⟨t, ht, hk, hs, hoffset⟩
  unmatched span h := by
    obtain ⟨t, ht, he, hoffset⟩ := exists_refused (p := ⟨.closeParen, span⟩) (.unmatched rfl) h
    cases he with
    | unmatched hk => exact ⟨t, ht, hk, rfl, hoffset⟩
  few := by
    have hsub : ((Finset.range n).filter fun m => outcome source m ≠ .error .emptyExpression) ⊆
        Finset.range ((ofString source).tokens.1.length + 1) := by
      intro m hm
      have hle := le_length_of_outcome_ne (Finset.mem_filter.mp hm).2
      exact Finset.mem_range.mpr (Nat.lt_succ_of_le hle)
    exact (Finset.card_le_card hsub).trans_eq (Finset.card_range _)

end Reader

end Formula
