import Formula.Proofs.Segmentation
import Formula.Proofs.Spelling
import Mathlib.Data.List.Chain

namespace Formula

open Text (byteSize isBlank byteSize_nil byteSize_cons byteSize_append)

namespace Token.Kind

def WellFormed : Kind → Prop
  | identifier text => ∃ c run, text.toList = c :: run ∧ c.isAlpha ∧ ∀ d ∈ run, d.isAlphanum
  | number text => text.toList ≠ [] ∧ ∀ d ∈ text.toList, d.isDigit
  | _ => True

/-- The neighbours that run together when there is nothing between them. A number stops at a letter,
so that a name may stand directly behind it. -/
def merges : Kind → Kind → Bool
  | identifier _, identifier _ | identifier _, number _ | number _, number _ => true
  | _, _ => false

variable {k l : Kind} {text : String}

theorem wellFormed_iff : k.WellFormed ↔ k.StandsBefore none := by
  cases k <;> simp [WellFormed, StandsBefore]

theorem exists_head_of_identifier (h : (identifier text).WellFormed) :
    ∃ c, text.toList.head? = some c ∧ c.isAlpha := by
  obtain ⟨c, run, ht, hc, -⟩ := h
  exact ⟨c, by simp [ht], hc⟩

theorem exists_head_of_number (h : (number text).WellFormed) :
    ∃ c, text.toList.head? = some c ∧ c.isDigit := by
  obtain ⟨ht, hd⟩ := h
  obtain ⟨c, run, hc⟩ := List.exists_cons_of_ne_nil ht
  exact ⟨c, by simp [hc], hd c (by simp [hc])⟩

theorem WellFormed.standsBefore_blank (hk : k.WellFormed) {c : Char} (hc : isBlank c) :
    k.StandsBefore (some c) := by
  apply (wellFormed_iff.mp hk).of_head
  intro d hd
  obtain rfl := Option.mem_some_iff.mp hd
  right
  simp [Reader.isAlphanum_of_isBlank hc]

theorem WellFormed.standsBefore_iff (hk : k.WellFormed) (hl : l.WellFormed) :
    k.StandsBefore l.text.toList.head? ↔ k.merges l = false := by
  cases k with
  | identifier text =>
    obtain ⟨c, run, ht, hc, hr⟩ := hk
    cases l with
    | identifier next =>
      obtain ⟨d, hd, halpha⟩ := exists_head_of_identifier hl
      simp [StandsBefore, Kind.text, merges, hd, Char.isAlphanum, halpha]
    | number next =>
      obtain ⟨d, hd, hdigit⟩ := exists_head_of_number hl
      simp [StandsBefore, Kind.text, merges, hd, Char.isAlphanum, hdigit]
    | _ => exact iff_of_true ⟨c, run, ht, hc, hr, by simp [Kind.text]⟩ rfl
  | number text =>
    obtain ⟨ht, hr⟩ := hk
    cases l with
    | identifier next =>
      obtain ⟨d, hd, halpha⟩ := exists_head_of_identifier hl
      have hdigit : ¬ d.isDigit := fun h => by simp [Reader.isAlpha_of_isDigit h] at halpha
      exact iff_of_true ⟨ht, hr, by simpa [Kind.text, hd] using hdigit⟩ rfl
    | number next =>
      obtain ⟨d, hd, hdigit⟩ := exists_head_of_number hl
      simp [StandsBefore, Kind.text, merges, hd, hdigit]
    | _ => exact iff_of_true ⟨ht, hr, by simp [Kind.text]⟩ rfl
  | _ => exact iff_of_true trivial rfl

end Token.Kind

theorem Reader.Splits.blanks {gap rest : List Char} {offset : Nat} {read : List Token}
    {fault : Option LexError} (h : Splits rest (offset + byteSize gap) read fault)
    (hg : ∀ c ∈ gap, isBlank c) : Splits (gap ++ rest) offset read fault := by
  induction gap generalizing offset with
  | nil => exact h
  | cons c gap ih =>
    rw [byteSize_cons, ← Nat.add_assoc] at h
    exact .blank (hg c (by simp)) (ih h fun d hd => hg d (by simp [hd]))

theorem Text.append_inj_of_byteSize {a b c d : List Char} (h : a ++ b = c ++ d)
    (hs : byteSize a = byteSize c) : a = c ∧ b = d := by
  induction a generalizing c with
  | nil =>
    cases c with
    | nil => exact ⟨rfl, h⟩
    | cons x c =>
      have hpos := Reader.Splits.byteSize_pos (List.cons_ne_nil x c)
      rw [← hs] at hpos
      exact absurd hpos (by simp [byteSize_nil])
  | cons x a ih =>
    cases c with
    | nil =>
      have hpos := Reader.Splits.byteSize_pos (List.cons_ne_nil x a)
      rw [hs] at hpos
      exact absurd hpos (by simp [byteSize_nil])
    | cons y c =>
      obtain ⟨rfl, hrest⟩ := List.cons.inj h
      rw [byteSize_cons, byteSize_cons, Nat.add_left_cancel_iff] at hs
      obtain ⟨rfl, rfl⟩ := ih hrest hs
      exact ⟨rfl, rfl⟩

structure Piece where
  kind : Token.Kind
  gap : List Char
  wellFormed : kind.WellFormed
  blank : ∀ c ∈ gap, isBlank c

namespace Piece

def text (p : Piece) : List Char := p.kind.text.toList ++ p.gap

def tokensFrom (offset : Nat) : List Piece → List Token
  | [] => []
  | p :: pieces => ⟨p.kind, ⟨offset, offset + byteSize p.kind.text.toList⟩⟩ ::
      tokensFrom (offset + byteSize p.text) pieces

def Separated (pieces : List Piece) : Prop :=
  pieces.IsChain fun p q => p.kind.merges q.kind → p.gap ≠ []

theorem standsBefore_iff (p : Piece) (pieces : List Piece) :
    p.kind.StandsBefore (p.gap ++ pieces.flatMap text).head? ↔
      ∀ q ∈ pieces.head?, p.kind.merges q.kind → p.gap ≠ [] := by
  cases hgap : p.gap with
  | cons c gap =>
    have hc : isBlank c := p.blank c (by simp [hgap])
    exact iff_of_true (p.wellFormed.standsBefore_blank hc) (by simp)
  | nil =>
    cases pieces with
    | nil => exact iff_of_true (Token.Kind.wellFormed_iff.mp p.wellFormed) (by simp)
    | cons q pieces =>
      have hne := Reader.text_ne_nil (Token.Kind.wellFormed_iff.mp q.wellFormed)
      have hhead : ([] ++ (q :: pieces).flatMap text).head? = q.kind.text.toList.head? := by
        simp [text, List.head?_append, List.head?_eq_some_head hne]
      rw [hhead, p.wellFormed.standsBefore_iff q.wellFormed]
      simp

variable {pieces : List Piece}

theorem Separated.splits (h : Separated pieces) (offset : Nat) :
    Reader.Splits (pieces.flatMap text) offset (tokensFrom offset pieces) none := by
  induction pieces generalizing offset with
  | nil => exact .done offset
  | cons p pieces ih =>
    obtain ⟨hp, hpieces⟩ := List.isChain_cons.mp h
    rw [List.flatMap_cons, text, List.append_assoc]
    apply Reader.Splits.token ((standsBefore_iff p pieces).mpr hp)
    apply Reader.Splits.blanks _ p.blank
    rw [Nat.add_assoc, ← byteSize_append]
    exact ih hpieces _

theorem separated_of_written {before : List Char}
    (h : ∀ t ∈ tokensFrom (byteSize before) pieces, ∃ a b,
      before ++ pieces.flatMap text = a ++ t.kind.text.toList ++ b ∧
      t.span = ⟨byteSize a, byteSize (a ++ t.kind.text.toList)⟩ ∧ t.kind.StandsBefore b.head?) :
    Separated pieces := by
  induction pieces generalizing before with
  | nil => exact .nil
  | cons p pieces ih =>
    apply List.isChain_cons.mpr
    constructor
    · obtain ⟨a, b, hab, hspan, hp⟩ := h _ List.mem_cons_self
      have hsource : before ++ (p.kind.text.toList ++ (p.gap ++ pieces.flatMap text)) =
          a ++ (p.kind.text.toList ++ b) := by
        rw [← List.append_assoc a, ← hab]
        simp [text]
      obtain ⟨rfl, hrest⟩ := Text.append_inj_of_byteSize hsource (congrArg Span.start hspan)
      obtain rfl := List.append_cancel_left hrest
      exact (standsBefore_iff p pieces).mp hp
    · apply @ih (before ++ p.text)
      rw [byteSize_append, List.append_assoc, ← List.flatMap_cons]
      exact fun t ht => h t (List.mem_cons_of_mem _ ht)

end Piece

structure Writing where
  margin : List Char
  pieces : List Piece
  blank : ∀ c ∈ margin, isBlank c

namespace Writing

def text (w : Writing) : String := String.ofList (w.margin ++ w.pieces.flatMap Piece.text)

def tokens (w : Writing) : List Token := Piece.tokensFrom (byteSize w.margin) w.pieces

/-- Reading gives back what was written, whatever the blanks, as long as there are some between
neighbours that would run together; without them it does not. -/
theorem tokens_ofString_text (w : Writing) :
    ((Reader.ofString w.text).tokens.1 = w.tokens ∧ (Reader.ofString w.text).tokens.2.1 = none) ↔
      Piece.Separated w.pieces := by
  have hread : Reader.ofString w.text = ⟨w.margin ++ w.pieces.flatMap Piece.text, 0, false⟩ := by
    rw [text, Reader.ofString, String.toList_ofList]
  rw [hread]
  constructor
  · rintro ⟨htokens, hfault⟩
    have hsplit := (Reader.splits_tokens (w.margin ++ w.pieces.flatMap Piece.text) 0).1
    rw [htokens, tokens] at hsplit
    apply Piece.separated_of_written
    simpa only [Nat.zero_add] using hsplit.written
  · intro h
    apply Reader.Splits.tokens_eq
    apply Reader.Splits.blanks _ w.blank
    rw [Nat.zero_add]
    exact h.splits _

example : (Reader.ofString "\u2003x\u3000 2x+").tokens.1 = [⟨.identifier "x", ⟨3, 4⟩⟩,
    ⟨.number "2", ⟨8, 9⟩⟩, ⟨.identifier "x", ⟨9, 10⟩⟩, ⟨.plus, ⟨10, 11⟩⟩] := by
  decide +kernel

end Writing

end Formula
