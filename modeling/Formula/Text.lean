namespace Formula.Text

/-- The code points with the Unicode property `White_Space`, as ranges. -/
def blankRanges : List (Nat × Nat) :=
  [(0x9, 0xD), (0x20, 0x20), (0x85, 0x85), (0xA0, 0xA0), (0x1680, 0x1680), (0x2000, 0x200A),
   (0x2028, 0x2029), (0x202F, 0x202F), (0x205F, 0x205F), (0x3000, 0x3000)]

def isBlank (c : Char) : Bool :=
  blankRanges.any fun (low, high) => low ≤ c.toNat && c.toNat ≤ high

def trim (text : String) : String :=
  String.ofList (((text.toList.dropWhile isBlank).reverse.dropWhile isBlank).reverse)

def byteSize (text : List Char) : Nat := text.foldr (fun c size => c.utf8Size + size) 0

theorem byteSize_nil : byteSize [] = 0 := rfl

theorem byteSize_cons (c : Char) (text : List Char) :
    byteSize (c :: text) = c.utf8Size + byteSize text := rfl

theorem byteSize_append (a b : List Char) : byteSize (a ++ b) = byteSize a + byteSize b := by
  induction a with
  | nil => simp [byteSize_nil]
  | cons c a ih => rw [List.cons_append, byteSize_cons, byteSize_cons, ih, Nat.add_assoc]

inductive Line where
  | text (line : String)
  | garbled
deriving DecidableEq

def newline : UInt8 := 10

def carriageReturn : UInt8 := 13

def Line.ofBytes (bytes : List UInt8) : Line :=
  match String.fromUTF8? ⟨bytes.toArray⟩ with
  | some line => .text line
  | none => .garbled

/-- A carriage return belongs to the line's end, but only in front of a newline. -/
def dropReturn (bytes : List UInt8) : List UInt8 :=
  if bytes.getLast? = some carriageReturn then bytes.dropLast else bytes

def takeLine : List UInt8 → Option (Line × List UInt8)
  | [] => none
  | input@(_ :: _) =>
    let line := input.takeWhile (· != newline)
    match input.dropWhile (· != newline) with
    | [] => some (.ofBytes line, [])
    | _ :: rest => some (.ofBytes (dropReturn line), rest)

theorem takeLine_length_lt {input rest : List UInt8} {line : Line}
    (h : takeLine input = some (line, rest)) : rest.length < input.length := by
  cases input with
  | nil => simp [takeLine] at h
  | cons b input =>
    have hd := (List.dropWhile_sublist (fun c => c != newline) (l := b :: input)).length_le
    simp only [takeLine] at h
    split at h
    · simp only [Option.some.injEq, Prod.mk.injEq] at h
      simp [← h.2]
    · next heq =>
      simp only [Option.some.injEq, Prod.mk.injEq] at h
      rw [heq] at hd
      simp only [← h.2, List.length_cons] at hd ⊢
      omega

end Formula.Text
