import Formula.Proofs.Segments
import Mathlib.Logic.Function.Iterate

namespace Formula.Reader

open Text (byteSize isBlank byteSize_nil byteSize_cons byteSize_append)

/-- How the tokens and the fault found in `source` divide it. Offsets are sizes of UTF-8 encodings
of parts of `source`, so that spans start and stop between characters. -/
structure Segmentation (source : List Char) (tokens : List Token) (fault : Option LexError) :
    Prop where
  written : ∀ t ∈ tokens, ∃ before after, source = before ++ t.kind.text.toList ++ after ∧
    t.span = ⟨byteSize before, byteSize (before ++ t.kind.text.toList)⟩ ∧
    t.kind.StandsBefore after.head?
  nonempty : ∀ t ∈ tokens, t.span.start < t.span.stop
  ordered : tokens.Pairwise fun s t => s.span.stop ≤ t.span.start
  gaps : ∀ before c after, source = before ++ c :: after →
    (∀ e ∈ fault, byteSize before < e.span.start) →
    (∀ t ∈ tokens, byteSize before < t.span.start ∨ t.span.stop ≤ byteSize before) → isBlank c
  fault_iff : fault ≠ none ↔ ∃ c ∈ source, isStray c
  fault_first : ∀ e ∈ fault, isStray e.character ∧ (∀ t ∈ tokens, t.span.stop ≤ e.span.start) ∧
    ∃ before after, source = before ++ e.character :: after ∧ (∀ c ∈ before, ¬ isStray c) ∧
      e.span = ⟨byteSize before, byteSize (before ++ [e.character])⟩

namespace Splits

variable {rest : List Char} {offset : Nat} {tokens : List Token} {fault : Option LexError}

theorem written (h : Splits rest offset tokens fault) :
    ∀ t ∈ tokens, ∃ before after, rest = before ++ t.kind.text.toList ++ after ∧
      t.span = ⟨offset + byteSize before, offset + byteSize (before ++ t.kind.text.toList)⟩ ∧
      t.kind.StandsBefore after.head? := by
  induction h with
  | done offset => simp
  | @blank c rest offset tokens fault hc h ih =>
    intro t ht
    obtain ⟨before, after, hr, hs, hk⟩ := ih t ht
    refine ⟨c :: before, after, by simp [hr], ?_, hk⟩
    rw [hs, List.cons_append, byteSize_cons, byteSize_cons, Nat.add_assoc, Nat.add_assoc]
  | @token kind rest offset tokens fault hk h ih =>
    intro t ht
    rcases List.mem_cons.mp ht with rfl | ht
    · exact ⟨[], rest, by simp, by simp [byteSize_nil], hk⟩
    · obtain ⟨before, after, hr, hs, hk⟩ := ih t ht
      refine ⟨kind.text.toList ++ before, after, by simp [hr], ?_, hk⟩
      rw [hs, List.append_assoc, byteSize_append kind.text.toList, byteSize_append kind.text.toList,
        Nat.add_assoc, Nat.add_assoc]
  | stray hc => simp

theorem not_isStray_of_text {kind : Token.Kind} {next : Option Char}
    (hk : kind.StandsBefore next) : ∀ c ∈ kind.text.toList, ¬ isStray c := by
  cases kind with
  | identifier text =>
    obtain ⟨c, run, ht, hc, hr, -⟩ := hk
    intro d hd
    rw [Token.Kind.text, ht] at hd
    rcases List.mem_cons.mp hd with rfl | hd
    · simp [isStray, Char.isAlphanum, hc]
    · simp [isStray, hr d hd]
  | number text =>
    obtain ⟨-, hd, -⟩ := hk
    intro d hm
    simp [isStray, Char.isAlphanum, hd d hm]
  | _ => simp [Token.Kind.text, isStray]

theorem offset_le (h : Splits rest offset tokens fault) : ∀ t ∈ tokens, offset ≤ t.span.start := by
  intro t ht
  obtain ⟨before, after, -, hs, -⟩ := h.written t ht
  rw [hs]
  exact Nat.le_add_right _ _

theorem byteSize_pos {text : List Char} (h : text ≠ []) : 0 < byteSize text := by
  obtain ⟨c, rest, rfl⟩ := List.exists_cons_of_ne_nil h
  have := c.utf8Size_pos
  rw [byteSize_cons]
  omega

theorem nonempty (h : Splits rest offset tokens fault) :
    ∀ t ∈ tokens, t.span.start < t.span.stop := by
  intro t ht
  obtain ⟨before, after, -, hs, hk⟩ := h.written t ht
  have hp := byteSize_pos (text_ne_nil hk)
  rw [hs, byteSize_append]
  change offset + byteSize before < offset + (byteSize before + byteSize t.kind.text.toList)
  omega

theorem ordered (h : Splits rest offset tokens fault) :
    tokens.Pairwise fun s t => s.span.stop ≤ t.span.start := by
  induction h with
  | done offset => exact .nil
  | blank hc h ih => exact ih
  | token hk h ih => exact .cons h.offset_le ih
  | stray hc => exact .nil

theorem gaps (h : Splits rest offset tokens fault) {before : List Char} {c : Char}
    {after : List Char} (hr : rest = before ++ c :: after)
    (hf : ∀ e ∈ fault, offset + byteSize before < e.span.start)
    (ht : ∀ t ∈ tokens, offset + byteSize before < t.span.start ∨
      t.span.stop ≤ offset + byteSize before) : isBlank c := by
  induction h generalizing before with
  | done offset => simp at hr
  | @blank d rest offset tokens fault hd h ih =>
    cases before with
    | nil =>
      obtain ⟨rfl, -⟩ := List.cons.inj hr
      exact hd
    | cons b before =>
      obtain ⟨rfl, hr'⟩ := List.cons.inj hr
      simp only [byteSize_cons, ← Nat.add_assoc] at hf ht
      exact ih hr' hf ht
  | @token kind rest offset tokens fault hk h ih =>
    obtain ⟨outside, hb, hc⟩ : ∃ outside, before = kind.text.toList ++ outside ∧
        rest = outside ++ c :: after := by
      rcases List.append_eq_append_iff.mp hr with ⟨outside, hb, hc⟩ | ⟨inside, hb, hc⟩
      · exact ⟨outside, hb, hc⟩
      · have hle : byteSize kind.text.toList ≤ byteSize before := by
          have ht' := ht _ List.mem_cons_self
          simp only at ht'
          omega
        cases inside with
        | nil => exact ⟨[], by simpa using hb.symm, by simpa using hc.symm⟩
        | cons d inside =>
          have := byteSize_pos (List.cons_ne_nil d inside)
          rw [hb, byteSize_append] at hle
          omega
    subst hb
    simp only [byteSize_append, ← Nat.add_assoc] at hf ht
    exact ih hc hf fun t h => ht t (List.mem_cons_of_mem _ h)
  | @stray d rest offset hd =>
    exact absurd (hf _ rfl) (by simp)

theorem not_isStray_of_none (h : Splits rest offset tokens fault) (hf : fault = none) :
    ∀ c ∈ rest, ¬ isStray c := by
  induction h with
  | done offset => simp
  | @blank c rest offset tokens fault hc h ih =>
    intro d hd
    rcases List.mem_cons.mp hd with rfl | hd
    · simp [isStray, hc]
    · exact ih hf d hd
  | @token kind rest offset tokens fault hk h ih =>
    intro d hd
    rcases List.mem_append.mp hd with hd | hd
    · exact not_isStray_of_text hk d hd
    · exact ih hf d hd
  | stray hc => simp at hf

theorem fault_first (h : Splits rest offset tokens fault) : ∀ e ∈ fault, isStray e.character ∧
    (∀ t ∈ tokens, t.span.stop ≤ e.span.start) ∧
    ∃ before after, rest = before ++ e.character :: after ∧ (∀ c ∈ before, ¬ isStray c) ∧
      e.span = ⟨offset + byteSize before, offset + byteSize (before ++ [e.character])⟩ := by
  induction h with
  | done offset => simp
  | @blank c rest offset tokens fault hc h ih =>
    intro e he
    obtain ⟨hstray, hlast, before, after, hr, hb, hs⟩ := ih e he
    refine ⟨hstray, hlast, c :: before, after, by simp [hr], ?_, ?_⟩
    · intro d hd
      rcases List.mem_cons.mp hd with rfl | hd
      · simp [isStray, hc]
      · exact hb d hd
    · rw [hs, List.cons_append, byteSize_cons, byteSize_cons, Nat.add_assoc, Nat.add_assoc]
  | @token kind rest offset tokens fault hk h ih =>
    intro e he
    obtain ⟨hstray, hlast, before, after, hr, hb, hs⟩ := ih e he
    refine ⟨hstray, ?_, kind.text.toList ++ before, after, by simp [hr], ?_, ?_⟩
    · intro t ht
      rcases List.mem_cons.mp ht with rfl | ht
      · rw [hs]
        exact Nat.le_add_right _ _
      · exact hlast t ht
    · intro d hd
      rcases List.mem_append.mp hd with hd | hd
      · exact not_isStray_of_text hk d hd
      · exact hb d hd
    · rw [hs, List.append_assoc, byteSize_append kind.text.toList, byteSize_append kind.text.toList,
        Nat.add_assoc, Nat.add_assoc]
  | @stray c rest offset hc =>
    intro e he
    obtain rfl := Option.mem_some_iff.mp he
    exact ⟨hc, by simp, [], rest, rfl, by simp, rfl⟩

theorem segmentation (h : Splits rest 0 tokens fault) : Segmentation rest tokens fault where
  written := by simpa only [Nat.zero_add] using h.written
  nonempty := h.nonempty
  ordered := h.ordered
  gaps before c after hr hf ht := by
    refine h.gaps hr ?_ ?_
    · simpa only [Nat.zero_add] using hf
    · simpa only [Nat.zero_add] using ht
  fault_iff := by
    constructor
    · intro hf
      obtain ⟨e, he⟩ := Option.ne_none_iff_exists'.mp hf
      obtain ⟨hstray, -, before, after, hr, -⟩ := h.fault_first e he
      exact ⟨e.character, by simp [hr], hstray⟩
    · rintro ⟨c, hc, hstray⟩ hf
      exact h.not_isStray_of_none hf c hc hstray
  fault_first := by simpa only [Nat.zero_add] using h.fault_first

end Splits

/-- Reading a text to its end or first fault divides it as `Segmentation` says, and then nothing
more is found, however often it is asked for. -/
theorem tokens_segmentation (source : String) :
    Segmentation source.toList (ofString source).tokens.1 (ofString source).tokens.2.1 ∧
      ∀ n, ((fun r : Reader => r.next.2)^[n] (ofString source).tokens.2.2).next.1 = .ok none := by
  obtain ⟨hsplit, hlast⟩ := splits_tokens source.toList 0
  refine ⟨hsplit.segmentation, fun n => ?_⟩
  have hfix : (fun r : Reader => r.next.2) (ofString source).tokens.2.2 =
      (ofString source).tokens.2.2 := congrArg Prod.snd hlast
  rw [Function.iterate_fixed hfix]
  exact congrArg Prod.fst hlast

end Formula.Reader
