import Formula.Reader
import Mathlib.Data.List.TakeWhile

namespace Formula

open Text (byteSize isBlank byteSize_nil byteSize_cons byteSize_append)

/-- Names and numbers are runs of ASCII characters that the `next` character does not continue. -/
def Token.Kind.StandsBefore (next : Option Char) : Token.Kind → Prop
  | identifier text => ∃ c run, text.toList = c :: run ∧ c.isAlpha ∧ (∀ d ∈ run, d.isAlphanum) ∧
      ∀ d ∈ next, ¬ d.isAlphanum
  | number text => text.toList ≠ [] ∧ (∀ d ∈ text.toList, d.isDigit) ∧ ∀ d ∈ next, ¬ d.isDigit
  | _ => True

namespace Reader

def isStray (c : Char) : Bool :=
  !isBlank c && !c.isAlphanum && !(['=', '+', '-', '*', '/', '^', '(', ')'].contains c)

inductive Splits : List Char → Nat → List Token → Option LexError → Prop
  | done (offset : Nat) : Splits [] offset [] none
  | blank {c : Char} {rest : List Char} {offset : Nat} {tokens : List Token}
      {fault : Option LexError} (hc : isBlank c)
      (h : Splits rest (offset + c.utf8Size) tokens fault) : Splits (c :: rest) offset tokens fault
  | token {kind : Token.Kind} {rest : List Char} {offset : Nat} {tokens : List Token}
      {fault : Option LexError} (hk : kind.StandsBefore rest.head?)
      (h : Splits rest (offset + byteSize kind.text.toList) tokens fault) :
      Splits (kind.text.toList ++ rest) offset
        (⟨kind, ⟨offset, offset + byteSize kind.text.toList⟩⟩ :: tokens) fault
  | stray {c : Char} {rest : List Char} {offset : Nat} (hc : isStray c) :
      Splits (c :: rest) offset [] (some ⟨c, ⟨offset, offset + c.utf8Size⟩⟩)

theorem ofSymbol?_eq_none_iff (c : Char) :
    Token.Kind.ofSymbol? c = none ↔ ['=', '+', '-', '*', '/', '^', '(', ')'].contains c = false := by
  unfold Token.Kind.ofSymbol?
  split <;> simp_all

theorem ofSymbol?_of_isAlphanum {c : Char} (h : c.isAlphanum) : Token.Kind.ofSymbol? c = none := by
  unfold Token.Kind.ofSymbol?
  split <;> first | rfl | exact absurd h (by decide)

theorem ofSymbol?_of_isBlank {c : Char} (h : isBlank c) : Token.Kind.ofSymbol? c = none := by
  unfold Token.Kind.ofSymbol?
  split <;> first | rfl | exact absurd h (by decide)

theorem isAlpha_iff (c : Char) : c.isAlpha ↔
    65 ≤ c.toNat ∧ c.toNat ≤ 90 ∨ 97 ≤ c.toNat ∧ c.toNat ≤ 122 := by
  unfold Char.isAlpha Char.isUpper Char.isLower
  simp [UInt32.le_iff_toNat_le, ← Char.toNat_val]

theorem isDigit_iff (c : Char) : c.isDigit ↔ 48 ≤ c.toNat ∧ c.toNat ≤ 57 := by
  simp [Char.isDigit, UInt32.le_iff_toNat_le, ← Char.toNat_val]

theorem isAlphanum_of_isBlank {c : Char} (h : isBlank c) : c.isAlphanum = false := by
  by_contra hc
  simp only [isBlank, Text.blankRanges, List.any_cons, List.any_nil, Bool.or_eq_true,
    Bool.and_eq_true, decide_eq_true_eq, Bool.false_eq_true, or_false] at h
  simp only [Char.isAlphanum, Bool.not_eq_false, Bool.or_eq_true, isAlpha_iff, isDigit_iff] at hc
  omega

theorem isAlpha_of_isDigit {c : Char} (h : c.isDigit) : c.isAlpha = false := by
  by_contra hc
  rw [Bool.not_eq_false, isAlpha_iff] at hc
  rw [isDigit_iff] at h
  omega

theorem takeWhile_run {p : Char → Bool} {run rest : List Char} (hr : ∀ d ∈ run, p d)
    (hn : ∀ d ∈ rest.head?, ¬ p d) :
    (run ++ rest).takeWhile p = run ∧ (run ++ rest).dropWhile p = rest := by
  rw [List.takeWhile_append_of_pos hr, List.dropWhile_append_of_pos hr]
  cases rest with
  | nil => simp
  | cons d rest =>
    have hd : ¬ p d := hn d rfl
    simp [hd]

theorem next_blank {c : Char} (hc : isBlank c) (rest : List Char) (offset : Nat) :
    next ⟨c :: rest, offset, false⟩ = next ⟨rest, offset + c.utf8Size, false⟩ := by
  have ha := isAlphanum_of_isBlank hc
  simp only [Char.isAlphanum, Bool.or_eq_false_iff] at ha
  simp [next, scan, ofSymbol?_of_isBlank hc, ha, hc]

theorem next_token {kind : Token.Kind} {rest : List Char} (hk : kind.StandsBefore rest.head?)
    (offset : Nat) :
    next ⟨kind.text.toList ++ rest, offset, false⟩ =
      (.ok (some ⟨kind, ⟨offset, offset + byteSize kind.text.toList⟩⟩),
        ⟨rest, offset + byteSize kind.text.toList, false⟩) := by
  cases kind with
  | identifier text =>
    obtain ⟨c, run, ht, hc, hr, hn⟩ := hk
    have hs : Token.Kind.ofSymbol? c = none :=
      ofSymbol?_of_isAlphanum (by simp [Char.isAlphanum, hc])
    have htext : String.ofList (c :: run) = text := by rw [← ht, String.ofList_toList]
    obtain ⟨hrun, hrest⟩ := takeWhile_run hr hn
    simp [next, scan, word, Token.Kind.text, ht, htext, hs, hc, hrun, hrest]
  | number text =>
    obtain ⟨ht, hd, hn⟩ := hk
    obtain ⟨c, run, hc⟩ := List.exists_cons_of_ne_nil ht
    have hcd : c.isDigit := hd c (by simp [hc])
    have hs : Token.Kind.ofSymbol? c = none :=
      ofSymbol?_of_isAlphanum (by simp [Char.isAlphanum, hcd])
    have hr : ∀ d ∈ run, d.isDigit := fun d h => hd d (by simp [hc, h])
    have htext : String.ofList (c :: run) = text := by rw [← hc, String.ofList_toList]
    obtain ⟨hrun, hrest⟩ := takeWhile_run hr hn
    simp [next, scan, word, Token.Kind.text, hc, htext, hs, isAlpha_of_isDigit hcd, hcd, hrun,
      hrest]
  | _ => rfl

theorem next_stray {c : Char} (hc : isStray c) (rest : List Char) (offset : Nat) :
    next ⟨c :: rest, offset, false⟩ =
      (.error ⟨c, ⟨offset, offset + c.utf8Size⟩⟩, ⟨rest, offset + c.utf8Size, true⟩) := by
  simp only [isStray, Bool.and_eq_true, Bool.not_eq_true', Char.isAlphanum,
    Bool.or_eq_false_iff] at hc
  obtain ⟨⟨hb, ha, hd⟩, hs⟩ := hc
  simp [next, scan, (ofSymbol?_eq_none_iff c).mpr hs, ha, hd, hb]

theorem tokens_congr {r s : Reader} (h : r.next = s.next) : r.tokens = s.tokens := by
  rw [tokens, tokens, tokensAfter, tokensAfter, h]

theorem standsBefore_of_ofSymbol? {c : Char} {kind : Token.Kind}
    (h : Token.Kind.ofSymbol? c = some kind) (next : Option Char) : kind.StandsBefore next := by
  revert h
  unfold Token.Kind.ofSymbol?
  split <;> intro h <;> cases h <;> trivial

theorem exists_token {c : Char} {rest : List Char} (hb : isBlank c = false)
    (hs : isStray c = false) : ∃ kind : Token.Kind, ∃ after,
      c :: rest = kind.text.toList ++ after ∧ kind.StandsBefore after.head? := by
  have hhead (p : Char → Bool) : ∀ d ∈ (rest.dropWhile p).head?, ¬ p d := by
    intro d hd
    have := List.head?_dropWhile_not p rest
    rw [Option.mem_def.mp hd] at this
    simpa using this
  cases hk : Token.Kind.ofSymbol? c with
  | some kind =>
    refine ⟨kind, rest, ?_, standsBefore_of_ofSymbol? hk _⟩
    rw [Token.Kind.text_of_ofSymbol? hk]
    simp
  | none =>
    have hsym := (ofSymbol?_eq_none_iff c).mp hk
    have ha : c.isAlphanum := by
      by_contra ha
      simp [isStray, hb, ha, -List.contains_eq_mem, hsym] at hs
    rcases Bool.or_eq_true_iff.mp ha with ha | hd
    · refine ⟨.identifier (String.ofList (c :: rest.takeWhile Char.isAlphanum)),
        rest.dropWhile Char.isAlphanum, by simp [Token.Kind.text], ?_⟩
      exact ⟨c, _, String.toList_ofList, ha, fun d hd => List.mem_takeWhile_imp hd, hhead _⟩
    · refine ⟨.number (String.ofList (c :: rest.takeWhile Char.isDigit)),
        rest.dropWhile Char.isDigit, by simp [Token.Kind.text], by simp, ?_, hhead _⟩
      rw [String.toList_ofList]
      intro d hm
      rcases List.mem_cons.mp hm with rfl | hm
      · exact hd
      · exact List.mem_takeWhile_imp hm

theorem tokensAfter_eq (read : List Token) (r : Reader) :
    tokensAfter read r = (read.reverse ++ r.tokens.1, r.tokens.2) := by
  induction hn : r.rest.length using Nat.strongRecOn generalizing read r with
  | ind n ih =>
    rw [tokens, tokensAfter, tokensAfter]
    split
    · simp
    · simp
    · next t s h =>
      have hlt := next_length_lt h
      rw [ih _ (hn ▸ hlt) (t :: read) s rfl, ih _ (hn ▸ hlt) [t] s rfl]
      simp

theorem tokens_of_next_none {r s : Reader} (h : r.next = (.ok none, s)) :
    r.tokens = ([], none, s) := by
  rw [tokens, tokensAfter]
  split <;> simp_all

theorem tokens_of_next_error {r s : Reader} {e : LexError} (h : r.next = (.error e, s)) :
    r.tokens = ([], some e, s) := by
  rw [tokens, tokensAfter]
  split <;> simp_all

theorem tokens_of_next_some {r s : Reader} {t : Token} (h : r.next = (.ok (some t), s)) :
    r.tokens = (t :: s.tokens.1, s.tokens.2) := by
  rw [tokens, tokensAfter]
  split <;> simp_all [tokensAfter_eq]

theorem text_ne_nil {kind : Token.Kind} {next : Option Char} (hk : kind.StandsBefore next) :
    kind.text.toList ≠ [] := by
  cases kind with
  | identifier text =>
    obtain ⟨c, run, ht, -⟩ := hk
    simp [Token.Kind.text, ht]
  | number text => exact hk.1
  | _ => simp [Token.Kind.text]

theorem splits_tokens (rest : List Char) (offset : Nat) :
    let out := tokens ⟨rest, offset, false⟩
    Splits rest offset out.1 out.2.1 ∧ out.2.2.next = (.ok none, out.2.2) := by
  induction hn : rest.length using Nat.strongRecOn generalizing rest offset with
  | ind n ih =>
    cases rest with
    | nil =>
      rw [tokens_of_next_none (show next ⟨[], offset, false⟩ = (.ok none, _) from rfl)]
      exact ⟨.done offset, rfl⟩
    | cons c rest =>
      cases hb : isBlank c with
      | true =>
        obtain ⟨hsplit, hlast⟩ := ih _ (by simp [← hn]) rest (offset + c.utf8Size) rfl
        have he : tokens ⟨c :: rest, offset, false⟩ = tokens ⟨rest, offset + c.utf8Size, false⟩ :=
          tokens_congr (next_blank hb rest offset)
        rw [he]
        exact ⟨.blank hb hsplit, hlast⟩
      | false =>
        cases hs : isStray c with
        | true =>
          rw [tokens_of_next_error (next_stray hs rest offset)]
          exact ⟨.stray hs, rfl⟩
        | false =>
          obtain ⟨kind, after, he, hk⟩ := exists_token hb hs
          have hne := List.length_pos_iff.mpr (text_ne_nil hk)
          rw [he] at hn ⊢
          rw [tokens_of_next_some (next_token hk offset)]
          obtain ⟨hsplit, hlast⟩ := ih after.length (by simp [← hn]; omega) after _ rfl
          exact ⟨.token hk hsplit, hlast⟩

theorem Splits.tokens_eq {rest : List Char} {offset : Nat} {read : List Token}
    {fault : Option LexError} (h : Splits rest offset read fault) :
    (tokens ⟨rest, offset, false⟩).1 = read ∧ (tokens ⟨rest, offset, false⟩).2.1 = fault := by
  induction h with
  | done offset =>
    rw [tokens_of_next_none (show next ⟨[], offset, false⟩ = (.ok none, _) from rfl)]
    exact ⟨rfl, rfl⟩
  | @blank c rest offset read fault hc h ih =>
    rw [tokens_congr (next_blank hc rest offset)]
    exact ih
  | @token kind rest offset read fault hk h ih =>
    rw [tokens_of_next_some (next_token hk offset)]
    exact ⟨congrArg _ ih.1, ih.2⟩
  | @stray c rest offset hc =>
    rw [tokens_of_next_error (next_stray hc rest offset)]
    exact ⟨rfl, rfl⟩

end Reader

end Formula
