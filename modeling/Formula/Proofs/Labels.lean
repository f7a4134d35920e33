import Formula.Proofs.Compilation
import Formula.Proofs.Origin
import Formula.Proofs.Verdict

/-!
What the label of an error points at: characters of the text, and those the error is about.
-/

namespace Formula

open Text (byteSize isBlank byteSize_nil byteSize_append)
open Formula.Tree

def Text.IsBoundary (text : List Char) (offset : Nat) : Prop :=
  ∃ before after, text = before ++ after ∧ byteSize before = offset

theorem Text.IsBoundary.le {text : List Char} {offset : Nat} (h : IsBoundary text offset) :
    offset ≤ byteSize text := by
  obtain ⟨before, after, rfl, rfl⟩ := h
  rw [byteSize_append]
  exact Nat.le_add_right _ _

namespace Span

structure Sound (text : List Char) (s : Span) : Prop where
  start : Text.IsBoundary text s.start
  stop : Text.IsBoundary text s.stop
  lt : s.start < s.stop

variable {text slice after : List Char} {s left sign right : Span}

theorem Covers.sound (h : s.Covers text slice after) (hs : slice ≠ []) : s.Sound text := by
  obtain ⟨before, rfl, rfl⟩ := h
  have hpos := Reader.Splits.byteSize_pos hs
  refine ⟨⟨before, slice ++ after, List.append_assoc _ _ _, rfl⟩, ⟨before ++ slice, after, rfl, rfl⟩, ?_⟩
  rw [byteSize_append]
  change byteSize before < byteSize before + byteSize slice
  omega

theorem Sound.exists_covers (h : s.Sound text) :
    ∃ slice after, slice ≠ [] ∧ s.Covers text slice after := by
  obtain ⟨start, stop⟩ := s
  obtain ⟨⟨before, rest, htext, rfl⟩, ⟨read, after, htext', rfl⟩, hlt⟩ := h
  change byteSize before < byteSize read at hlt
  obtain ⟨slice, rfl⟩ : ∃ slice, read = before ++ slice := by
    rcases List.append_eq_append_iff.mp (htext.symm.trans htext') with ⟨slice, hread, -⟩ | ⟨_, hbefore, -⟩
    · exact ⟨slice, hread⟩
    · rw [hbefore, byteSize_append] at hlt
      omega
  refine ⟨slice, after, ?_, before, htext', rfl⟩
  rintro rfl
  simp at hlt

theorem Sound.join (hl : left.Sound text) (hs : sign.Sound text) (hr : right.Sound text) :
    Sound text ⟨min left.start sign.start, max right.stop sign.stop⟩ := by
  have hlt := hs.lt
  constructor
  · rcases Nat.le_total left.start sign.start with h | h
    · simpa only [Nat.min_eq_left h] using hl.start
    · simpa only [Nat.min_eq_right h] using hs.start
  · rcases Nat.le_total right.stop sign.stop with h | h
    · simpa only [Nat.max_eq_right h] using hs.stop
    · simpa only [Nat.max_eq_left h] using hr.stop
  · change min left.start sign.start < max right.stop sign.stop
    omega

end Span

/-- How an operator is written, in front of `after`; a call is written as the name called. -/
def Operator.WrittenAs : Operator → List Char → List Char → Prop
  | .call, slice, after =>
    (∃ c run, slice = c :: run ∧ c.isAlpha ∧ ∀ d ∈ run, d.isAlphanum) ∧
      ∃ gap rest, after = gap ++ '(' :: rest ∧ ∀ c ∈ gap, isBlank c
  | op, slice, _ => slice = [op.symbol]

namespace Token

variable {t : Token}

theorem text_of_leaf? {l : Leaf} {span : Span} (h : t.leaf? = some (l, span)) :
    t.kind.text = l.text ∧ t.span = span := by
  obtain ⟨kind, s⟩ := t
  cases kind <;> cases h <;> exact ⟨rfl, rfl⟩

theorem text_of_operator? {op : Operator} {sign : Span} (h : t.operator? = some (op, sign)) :
    (∀ after, op.WrittenAs t.kind.text.toList after) ∧ t.span = sign := by
  obtain ⟨kind, s⟩ := t
  cases kind <;> cases h <;> simp [Operator.WrittenAs, Kind.text, Operator.symbol, Arithmetic.symbol]

end Token

namespace Tree

namespace Item

def WrittenAs : Item → List Char → List Char → Prop
  | operand l _, slice, _ => slice = l.text.toList
  | operator op _, slice, after => op.WrittenAs slice after

theorem ComesFrom.exists_covers {text : List Char} {tokens : List Token} {fault : Option LexError}
    {i : Item} (hi : i.ComesFrom tokens) (h : Reader.Splits text 0 tokens fault) :
    ∃ slice after, slice ≠ [] ∧ i.span.Covers text slice after ∧ i.WrittenAs slice after := by
  cases i with
  | operand l span =>
    obtain ⟨t, ht, hleaf⟩ := hi
    obtain ⟨htext, rfl⟩ := Token.text_of_leaf? hleaf
    obtain ⟨after, hcovers, hstands⟩ := h.exists_covers ht
    exact ⟨_, after, Reader.text_ne_nil hstands, hcovers, congrArg _ htext⟩
  | operator op sign =>
    rcases hi with ⟨t, ht, hop⟩ | hcall
    · obtain ⟨hwritten, rfl⟩ := Token.text_of_operator? hop
      obtain ⟨after, hcovers, hstands⟩ := h.exists_covers ht
      exact ⟨_, after, Reader.text_ne_nil hstands, hcovers, hwritten after⟩
    · obtain ⟨rfl, before, f, t, after, text, rfl, hf, ht, rfl⟩ := mem_calls hcall
      obtain ⟨_, -, hstands⟩ := h.exists_covers (t := f) (by simp)
      obtain ⟨gap, left, hgap, hcovers, -⟩ := h.exists_covers_neighbours
      refine ⟨_, _, Reader.text_ne_nil hstands, hcovers, ?_, gap, left, ?_, hgap⟩
      · rw [hf] at hstands ⊢
        obtain ⟨c, run, hrun, hc, hr, -⟩ := hstands
        exact ⟨c, run, hrun, hc, hr⟩
      · rw [ht]
        rfl

theorem ComesFrom.sound {text : List Char} {tokens : List Token} {fault : Option LexError}
    {i : Item} (hi : i.ComesFrom tokens) (h : Reader.Splits text 0 tokens fault) :
    i.span.Sound text := by
  obtain ⟨slice, after, hs, hcovers, -⟩ := hi.exists_covers h
  exact hcovers.sound hs

end Item

variable {text : List Char} {trees result : List Tree} {items : List Item} {e : ParseError}

theorem sound_of_reduceOnto (h : reduceOnto trees items = .ok result)
    (hitems : ∀ i ∈ items, i.span.Sound text) (htrees : ∀ t ∈ trees, t.span.Sound text) :
    ∀ t ∈ result, t.span.Sound text := by
  refine forall_mem_of_reduceOnto h (fun l span hl => hitems _ hl) ?_ htrees
  intro op sign left right hop hleft hright
  exact hleft.join (hitems _ hop) hright

theorem sound_of_ofString {source : String} {t : Tree} (h : Tree.ofString source = .ok t) :
    t.span.Sound source.toList := by
  obtain ⟨-, y, items, hrun, hitems, hreduce⟩ := ofString_eq_ok_iff.mp h
  obtain ⟨trees, htrees, honly⟩ := bind_eq_ok.mp hreduce
  obtain rfl := eq_of_only honly
  have hfrom := Yard.comesFrom_of_items hrun hitems
  have hsound := sound_of_reduceOnto htrees
    (fun i hi => (hfrom i hi).sound (Reader.splits_ofString source)) (by simp)
  exact hsound t List.mem_cons_self

inductive Malformed (text : List Char) (items : List Item) : ParseError → Prop
  | missingOperand {op : Operator} {sign : Span} (h : .operator op sign ∈ items) :
      Malformed text items (.missingOperand op sign)
  | unexpectedOperand {span : Span} (h : span.Sound text) :
      Malformed text items (.unexpectedOperand span)
  | emptyExpression : Malformed text items .emptyExpression

theorem malformed_of_ofItems (h : ofItems items = .error e)
    (hitems : ∀ i ∈ items, i.span.Sound text) : Malformed text items e := by
  rw [ofItems] at h
  cases hr : reduceOnto [] items with
  | error f =>
    rw [hr] at h
    obtain rfl := Except.error.inj h
    obtain ⟨op, sign, rfl, hmem⟩ := missingOperand_of_reduceOnto hr
    exact .missingOperand hmem
  | ok trees =>
    rw [hr] at h
    change only trees = .error e at h
    have hsound := sound_of_reduceOnto hr hitems (by simp)
    unfold only at h
    split at h
    · obtain rfl := Except.error.inj h
      exact .emptyExpression
    · cases h
    · next first extra rest hrev =>
      obtain rfl := Except.error.inj h
      have hextra : extra ∈ trees := List.mem_reverse.mp (by simp [hrev])
      exact .unexpectedOperand (hsound extra hextra)

end Tree

def BuildError.culprit : BuildError → Item
  | unknownSymbol name span => .operand (.name name) span
  | unknownFunction _ sign => .operator .call sign
  | invalidNumber text span => .operand (.number text) span
  | unsupported op sign => .operator op sign

theorem BuildError.exists_label (e : BuildError) :
    ∃ remark, e.diagnostic.label = some (e.culprit.span.label remark) := by
  cases e <;> exact ⟨_, rfl⟩

namespace Tree

/-- The faults that a tree has itself, whatever its operands come to. -/
inductive Raises : Tree → BuildError → Prop
  | unknownSymbol {text : String} {span : Span} (hx : text ≠ "x") (hc : text ≠ "pi" ∧ text ≠ "e") :
      Raises (leaf (.name text) span) (.unknownSymbol text span)
  | invalidNumber {text : String} {span : Span} (h : ∀ value, Decimal.read text ≠ .ok value) :
      Raises (leaf (.number text) span) (.invalidNumber text span)
  | assign {sign span : Span} {left right : Tree} :
      Raises (node .assign sign left right span) (.unsupported .assign sign)
  | unnamed {sign span : Span} {left right : Tree} (h : ∀ text s, left ≠ leaf (.name text) s) :
      Raises (node .call sign left right span) (.unsupported .call sign)
  | unknownFunction {sign span s : Span} {text : String} {right : Tree}
      (h : text ≠ "sin" ∧ text ≠ "cos") :
      Raises (node .call sign (leaf (.name text) s) right span) (.unknownFunction text sign)

variable {t : Tree} {e : BuildError}

theorem Raises.culprit_mem (h : t.Raises e) : e.culprit ∈ t.toItems := by
  cases h <;> simp [toItems, BuildError.culprit]

theorem Yields.exists_raises {r : Except BuildError (List Instruction)} (h : t.Yields r) :
    ∀ e, r = .error e → ∃ s ∈ t.subtrees, s.Raises e := by
  induction h with
  | loadX | pi | e | number _ | call _ _ | arithmetic _ _ => simp
  | unknownSymbol hx hc =>
    rintro _ ⟨⟩
    exact ⟨_, List.mem_cons_self, .unknownSymbol hx hc⟩
  | invalidNumber h =>
    rintro _ ⟨⟩
    exact ⟨_, List.mem_cons_self, .invalidNumber h⟩
  | assign =>
    rintro _ ⟨⟩
    exact ⟨_, List.mem_cons_self, .assign⟩
  | unnamed h =>
    rintro _ ⟨⟩
    exact ⟨_, List.mem_cons_self, .unnamed h⟩
  | unknownFunction h =>
    rintro _ ⟨⟩
    exact ⟨_, List.mem_cons_self, .unknownFunction h⟩
  | argument _ _ ih | leftOperand _ ih | rightOperand _ _ _ ih =>
    intro e he
    obtain ⟨s, hs, hraises⟩ := ih e he
    exact ⟨s, by simp [subtrees, hs], hraises⟩

theorem exists_raises_of_build (h : t.build = .error e) : ∃ s ∈ t.subtrees, s.Raises e := by
  rw [build_eq_code] at h
  exact (yields_code t).exists_raises e (map_eq_error.mp h)

end Tree

theorem Program.exists_raises_of_ofString {source : String} {e : BuildError}
    (h : Program.ofString source = .error (.build e)) :
    ∃ t s, Tree.ofString source = .ok t ∧ s ∈ t.subtrees ∧ s.Raises e := by
  obtain ⟨_, -, he⟩ | ⟨t, _, ht, hbuild, he⟩ := Program.ofString_eq_error_iff.mp h
  · cases he
  · obtain rfl := CompileError.build.inj he
    obtain ⟨s, hs, hraises⟩ := exists_raises_of_build hbuild
    exact ⟨t, s, ht, hs, hraises⟩

namespace CompileError

def PointsAt : CompileError → List Char → List Char → Prop
  | parse (.lex e), slice, _ => slice = [e.character]
  | parse (.unmatchedCloseParen _), slice, _ => slice = [')']
  | parse (.unclosedParen _), slice, _ => slice = ['(']
  | parse (.callOnNumber _), slice, _ => ∃ digits gap, slice = digits ++ gap ++ ['('] ∧
      digits ≠ [] ∧ (∀ d ∈ digits, d.isDigit) ∧ ∀ c ∈ gap, isBlank c
  | parse (.missingOperand op _), slice, after => op.WrittenAs slice after
  | parse (.unexpectedOperand _), _, _ => True
  | parse .emptyExpression, _, _ => False
  | build e, slice, after => e.culprit.WrittenAs slice after

def Labelled (source : String) (e : CompileError) : Prop :=
  match e.diagnostic.label with
  | none => e = .parse .emptyExpression
  | some l => ∃ before slice after, source.toList = before ++ slice ++ after ∧
      l.offset = byteSize before ∧ l.length = byteSize slice ∧ slice ≠ [] ∧ e.PointsAt slice after

variable {source : String}

theorem labelled_of_covers {e : CompileError} {s : Span} {remark : String} {slice after : List Char}
    (hl : e.diagnostic.label = some (s.label remark)) (hs : slice ≠ [])
    (hc : s.Covers source.toList slice after) (hp : e.PointsAt slice after) : e.Labelled source := by
  obtain ⟨before, hsource, rfl⟩ := hc
  rw [Labelled, hl]
  refine ⟨before, slice, after, hsource, rfl, ?_, hs, hp⟩
  rw [Span.label, Span.length, byteSize_append]
  exact Nat.add_sub_cancel_left _ _

theorem labelled_of_token {e : CompileError} {t : Token} {remark : String}
    (ht : t ∈ (Reader.ofString source).tokens.1)
    (hl : e.diagnostic.label = some (t.span.label remark))
    (hp : ∀ after, e.PointsAt t.kind.text.toList after) : e.Labelled source := by
  obtain ⟨after, hcovers, hstands⟩ := (Reader.splits_ofString source).exists_covers ht
  exact labelled_of_covers hl (Reader.text_ne_nil hstands) hcovers (hp after)

theorem labelled_of_verdict {e : ParseError} (h : VerdictOn source (some e)) :
    Labelled source (.parse e) := by
  have hsplit := Reader.splits_ofString source
  cases h with
  | @offence before after t e hs hb he =>
    cases he with
    | @callOnNumber n text hn hk ht =>
      obtain ⟨first, rfl⟩ := List.getLast?_eq_some_iff.mp hn
      have htokens : (Reader.ofString source).tokens.1 = first ++ n :: t :: after := by simpa using hs
      obtain ⟨_, -, hdigits⟩ := hsplit.exists_covers (t := n) (by rw [htokens]; simp)
      rw [htokens] at hsplit
      obtain ⟨gap, left, hgap, -, hcovers⟩ := hsplit.exists_covers_neighbours
      rw [hk] at hdigits
      obtain ⟨hne, hd, -⟩ := hdigits
      refine labelled_of_covers rfl ?_ hcovers ⟨text.toList, gap, ?_, hne, hd, hgap⟩
      · simp [ht, Token.Kind.text]
      · simp [hk, ht, Token.Kind.text]
    | unmatched ht ha =>
      apply labelled_of_token (t := t) (by rw [hs]; simp) rfl
      intro after
      rw [ht]
      rfl
  | @lex e hi hf =>
    obtain ⟨-, -, before, after, hsource, -, hspan⟩ := hsplit.fault_first e hf
    rw [Nat.zero_add, Nat.zero_add] at hspan
    have hcovers : e.span.Covers source.toList [e.character] after :=
      ⟨before, by simp [hsource], hspan⟩
    exact labelled_of_covers rfl (List.cons_ne_nil _ []) hcovers rfl
  | @unclosed before after o hi hf hs ho hn ha =>
    apply labelled_of_token (t := o) (by rw [hs]; simp) rfl
    intro after
    rw [ho]
    rfl

theorem labelled_of_malformed {items : List Item} {e : ParseError}
    (hi : ∀ i ∈ items, i.ComesFrom (Reader.ofString source).tokens.1)
    (h : Malformed source.toList items e) : Labelled source (.parse e) := by
  cases h with
  | missingOperand hmem =>
    obtain ⟨slice, after, hs, hcovers, hwritten⟩ :=
      (hi _ hmem).exists_covers (Reader.splits_ofString source)
    exact labelled_of_covers rfl hs hcovers hwritten
  | unexpectedOperand hsound =>
    obtain ⟨slice, after, hs, hcovers⟩ := hsound.exists_covers
    exact labelled_of_covers rfl hs hcovers trivial
  | emptyExpression => rfl

theorem labelled_of_parse {e : ParseError} (h : Tree.ofString source = .error e) :
    Labelled source (.parse e) := by
  obtain ⟨v, hv⟩ := exists_verdict (Reader.ofString source).tokens.1 (Reader.ofString source).tokens.2.1
  cases v with
  | some f =>
    obtain rfl := Except.error.inj (h.symm.trans (ofString_of_verdict hv))
    exact labelled_of_verdict hv
  | none =>
    -- Reading has met no fault, so that the entries are there and the fault is in their number.
    obtain ⟨y, items, hrun, hitems, hof⟩ := exists_items_of_verdict hv
    have hfrom := Yard.comesFrom_of_items hrun hitems
    apply labelled_of_malformed hfrom
    apply malformed_of_ofItems (hof.symm.trans h)
    intro i hi
    exact (hfrom i hi).sound (Reader.splits_ofString source)

theorem labelled_of_build {t : Tree} {e : BuildError} (ht : Tree.ofString source = .ok t)
    (h : t.build = .error e) : Labelled source (.build e) := by
  obtain ⟨s, hs, hraises⟩ := exists_raises_of_build h
  have hmem := mem_toItems_of_mem_subtrees hs _ hraises.culprit_mem
  obtain ⟨slice, after, hne, hcovers, hwritten⟩ :=
    (comesFrom_of_ofString ht _ hmem).exists_covers (Reader.splits_ofString source)
  obtain ⟨remark, hl⟩ := e.exists_label
  exact labelled_of_covers hl hne hcovers hwritten

theorem labelled_of_ofString (source : String) :
    (∀ e, Tree.ofString source = .error e → Labelled source (.parse e)) ∧
      ∀ e, Program.ofString source = .error e → Labelled source e := by
  refine ⟨fun e h => labelled_of_parse h, fun e h => ?_⟩
  rcases Program.ofString_eq_error_iff.mp h with ⟨f, hf, rfl⟩ | ⟨t, f, ht, hf, rfl⟩
  · exact labelled_of_parse hf
  · exact labelled_of_build ht hf

theorem labelled_of_ofString_blanks :
    let call := "\u3000sin\u2003()"
    let missing := ParseError.missingOperand .call ⟨3, 6⟩
    let product := "pi\u00A0*\u2003foo"
    let unknown := CompileError.build (.unknownSymbol "foo" ⟨8, 11⟩)
    (Tree.ofString call = .error missing ∧ Labelled call (.parse missing)) ∧
      Program.ofString product = .error unknown ∧ Labelled product unknown := by
  intro call missing product unknown
  have hcall : Tree.ofString call = .error missing := by decide +kernel
  have hproduct : Program.ofString product = .error unknown := by
    apply Program.ofString_eq_error_iff.mpr
    refine .inr ⟨node (.arithmetic .mul) ⟨4, 5⟩ (leaf (.name "pi") ⟨0, 2⟩)
      (leaf (.name "foo") ⟨8, 11⟩) ⟨0, 11⟩, _, by decide +kernel, ?_, rfl⟩
    rw [build_eq_code]
    rfl
  exact ⟨⟨hcall, (labelled_of_ofString call).1 missing hcall⟩, hproduct,
    (labelled_of_ofString product).2 unknown hproduct⟩

end CompileError

end Formula
