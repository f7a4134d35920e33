import Formula.Decimal
import Formula.Text
import Mathlib.Data.List.TakeWhile
import Mathlib.Tactic.SplitIfs

/-!
Lines, as they are read from the input and as numbers are written on them.
-/

namespace Formula

namespace Text

/-- The input starts with a line, and `rest` follows the line's end, which is missing only where the
input ends. -/
inductive Begins : List UInt8 → Line → List UInt8 → Prop
  | ended {bytes rest : List UInt8} (h : newline ∉ bytes) :
      Begins (bytes ++ newline :: rest) (.ofBytes (dropReturn bytes)) rest
  | last {bytes : List UInt8} (hne : bytes ≠ []) (h : newline ∉ bytes) :
      Begins bytes (.ofBytes bytes) []

theorem takeLine_of_ne_nil {input : List UInt8} (h : input ≠ []) : takeLine input =
    match input.dropWhile (· != newline) with
    | [] => some (.ofBytes (input.takeWhile (· != newline)), [])
    | _ :: rest => some (.ofBytes (dropReturn (input.takeWhile (· != newline))), rest) := by
  obtain ⟨b, input, rfl⟩ := List.exists_cons_of_ne_nil h
  rfl

theorem takeLine_eq_some_iff {input rest : List UInt8} {line : Line} :
    takeLine input = some (line, rest) ↔ Begins input line rest := by
  constructor
  · intro h
    have hne : input ≠ [] := by
      rintro rfl
      cases h
    have hline : newline ∉ input.takeWhile (· != newline) := by
      intro hmem
      have hnot := List.mem_takeWhile_imp hmem
      simp at hnot
    have hsplit := List.takeWhile_append_dropWhile (p := (· != newline)) (l := input)
    rw [takeLine_of_ne_nil hne] at h
    cases hd : input.dropWhile (· != newline) with
    | nil =>
      rw [hd] at h
      rw [hd, List.append_nil] at hsplit
      obtain ⟨rfl, rfl⟩ := Prod.mk.inj (Option.some.inj h)
      rw [hsplit] at hline ⊢
      exact .last hne hline
    | cons b tail =>
      rw [hd] at h hsplit
      obtain ⟨rfl, rfl⟩ := Prod.mk.inj (Option.some.inj h)
      have hb := List.head?_dropWhile_not (· != newline) input
      rw [hd] at hb
      obtain rfl : b = newline := by simpa using hb
      have hbegins := @Begins.ended _ tail hline
      rwa [hsplit] at hbegins
  · intro h
    cases h with
    | @ended bytes rest h =>
      have hbytes : ∀ b ∈ bytes, (b != newline) = true := by
        intro b hb
        simpa using ne_of_mem_of_not_mem hb h
      rw [takeLine_of_ne_nil (by simp), List.dropWhile_append_of_pos hbytes,
        List.takeWhile_append_of_pos hbytes]
      simp
    | last hne h =>
      have hbytes : ∀ b ∈ input, (b != newline) = true := by
        intro b hb
        simpa using ne_of_mem_of_not_mem hb h
      rw [takeLine_of_ne_nil hne, List.dropWhile_eq_nil_iff.mpr hbytes,
        List.takeWhile_eq_self_iff.mpr hbytes]

def lines (input : List UInt8) : List Line :=
  match _h : takeLine input with
  | none => []
  | some (line, rest) => line :: lines rest
termination_by input.length
decreasing_by exact takeLine_length_lt ‹_›

inductive Reads : Nat → List UInt8 → List UInt8 → Prop
  | done (input : List UInt8) : Reads 0 input input
  | line {n : Nat} {input next rest : List UInt8} {line : Line} (h : Begins input line next)
      (hr : Reads n next rest) : Reads (n + 1) input rest

variable {m n : Nat} {input next rest : List UInt8} {line : Line}

theorem lines_of_begins (h : Begins input line rest) : lines input = line :: lines rest := by
  have htake := takeLine_eq_some_iff.mpr h
  rw [lines]
  split
  · next hnone => simp [htake] at hnone
  · next line' rest' hsome =>
    obtain ⟨rfl, rfl⟩ := Prod.mk.inj (Option.some.inj (htake.symm.trans hsome))
    rfl

theorem lines_nil : lines [] = [] := by
  rw [lines]
  rfl

theorem Reads.trans (h : Reads m input next) (hr : Reads n next rest) : Reads (m + n) input rest := by
  induction h with
  | done input =>
    rw [Nat.zero_add]
    exact hr
  | @line m _ _ _ _ hb _ ih =>
    rw [Nat.succ_add]
    exact .line hb (ih hr)

theorem Reads.length_lines (h : Reads n input rest) :
    (lines input).length = n + (lines rest).length := by
  induction h with
  | done input => exact (Nat.zero_add _).symm
  | line hb _ ih =>
    rw [lines_of_begins hb, List.length_cons, ih]
    omega

theorem eq_nil_of_takeLine (h : takeLine input = none) : input = [] := by
  by_contra hne
  rw [takeLine_of_ne_nil hne] at h
  split at h <;> cases h

end Text

namespace Decimal

theorem newline_not_mem_positional (d : Decimal) : '\n' ∉ d.positional.toList := by
  have hdigits : '\n' ∉ Nat.toDigits 10 d.coefficient := by
    intro h
    have hdigit := Nat.isDigit_of_mem_toDigits (by omega) (by omega) h
    exact absurd hdigit (by decide)
  have hzeros (n : Nat) : '\n' ∉ List.replicate n '0' := by
    intro h
    exact absurd (List.eq_of_mem_replicate h) (by decide)
  unfold positional
  simp only
  split
  · rw [String.toList_ofList, List.mem_append]
    exact not_or.mpr ⟨hdigits, hzeros _⟩
  · rw [String.toList_ofList]
    intro h
    rcases List.mem_append.mp h with h | h
    · rcases List.mem_append.mp (List.mem_of_mem_take h) with h | h
      · exact hzeros _ h
      · exact hdigits h
    · rcases List.mem_cons.mp h with h | h
      · exact absurd h (by decide)
      · rcases List.mem_append.mp (List.mem_of_mem_drop h) with h | h
        · exact hzeros _ h
        · exact hdigits h

theorem newline_not_mem_write (x : Float) : '\n' ∉ (write x).toList := by
  have hpositional (d : Decimal) := newline_not_mem_positional d
  unfold write
  simp only
  split_ifs <;> simp [hpositional]

end Decimal

end Formula
