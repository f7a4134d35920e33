import Formula.Fault
import Formula.Text
import Formula.Token

namespace Formula

/-- A place in a source: the characters still to be read and the byte offset of the first of them.
Once stopped by a character that belongs to no token, nothing more is read. -/
structure Reader where
  rest : List Char
  offset : Nat
  stopped : Bool
deriving DecidableEq

namespace Reader

def ofString (source : String) : Reader := ⟨source.toList, 0, false⟩

abbrev Reading := Except LexError (Option Token)

def word (kind : String → Token.Kind) (extends? : Char → Bool) (c : Char) (rest : List Char)
    (offset : Nat) : Reading × Reader :=
  let run := c :: rest.takeWhile extends?
  let stop := offset + Text.byteSize run
  (.ok (some ⟨kind (String.ofList run), ⟨offset, stop⟩⟩), ⟨rest.dropWhile extends?, stop, false⟩)

def scan : List Char → Nat → Reading × Reader
  | [], offset => (.ok none, ⟨[], offset, false⟩)
  | c :: rest, offset =>
    let stop := offset + c.utf8Size
    match Token.Kind.ofSymbol? c with
    | some kind => (.ok (some ⟨kind, ⟨offset, stop⟩⟩), ⟨rest, stop, false⟩)
    | none =>
      if c.isAlpha then word .identifier Char.isAlphanum c rest offset
      else if c.isDigit then word .number Char.isDigit c rest offset
      else if Text.isBlank c then scan rest stop
      else (.error ⟨c, ⟨offset, stop⟩⟩, ⟨rest, stop, true⟩)

def next (r : Reader) : Reading × Reader :=
  if r.stopped then (.ok none, r) else scan r.rest r.offset

theorem scan_length_lt {rest : List Char} {offset : Nat} {t : Token} {r : Reader}
    (h : scan rest offset = (.ok (some t), r)) : r.rest.length < rest.length := by
  induction rest generalizing offset with
  | nil => simp [scan] at h
  | cons c rest ih =>
    have hd (p : Char → Bool) : (rest.dropWhile p).length ≤ rest.length :=
      (List.dropWhile_sublist p).length_le
    simp only [scan] at h
    split at h
    · simp only [Prod.mk.injEq] at h
      simp [← h.2]
    · split at h
      · simp only [word, Prod.mk.injEq] at h
        simpa [← h.2, Nat.lt_succ_iff] using hd _
      · split at h
        · simp only [word, Prod.mk.injEq] at h
          simpa [← h.2, Nat.lt_succ_iff] using hd _
        · split at h
          · exact Nat.lt_succ_of_lt (ih h)
          · simp at h

theorem next_length_lt {r s : Reader} {t : Token} (h : r.next = (.ok (some t), s)) :
    s.rest.length < r.rest.length := by
  unfold next at h
  split at h
  · simp at h
  · exact scan_length_lt h

def tokensAfter (read : List Token) (r : Reader) : List Token × Option LexError × Reader :=
  match _h : r.next with
  | (.ok none, s) => (read.reverse, none, s)
  | (.error fault, s) => (read.reverse, some fault, s)
  | (.ok (some t), s) => tokensAfter (t :: read) s
termination_by r.rest.length
decreasing_by exact next_length_lt ‹_›

def tokens (r : Reader) : List Token × Option LexError × Reader := tokensAfter [] r

end Reader

end Formula
