import Formula.Program.Build
import Formula.Proofs.Faults
import Formula.Proofs.Segments

namespace Formula

open Formula.Tree (Yard)

namespace Reader

/-- What a yard is after all tokens of a text, of which `fault` may be the end. -/
def fillFrom (y : Yard) (tokens : List Token) (fault : Option LexError) : Except ParseError Yard := do
  let y ← tokens.foldlM Yard.push y
  match fault with
  | none => return y
  | some e => .error (.lex e)

theorem fill_eq_fillFrom (y : Yard) (r : Reader) :
    (r.fill y).1 = fillFrom y r.tokens.1 r.tokens.2.1 := by
  induction hn : r.rest.length using Nat.strongRecOn generalizing y r with
  | ind n ih =>
    rw [fill]
    split
    · next s h =>
      rw [tokens_of_next_none h]
      rfl
    · next e s h =>
      rw [tokens_of_next_error h]
      rfl
    · next t s h =>
      have hlt := next_length_lt h
      rw [tokens_of_next_some h, fillFrom, List.foldlM_cons]
      cases hp : y.push t with
      | error fault => rfl
      | ok z => exact ih _ (hn ▸ hlt) z s rfl

theorem exists_next_of_tokens {r : Reader} {t : Token} {tokens : List Token}
    (h : r.tokens.1 = t :: tokens) :
    ∃ s : Reader, r.next = (.ok (some t), s) ∧ s.tokens.1 = tokens := by
  match hnext : r.next with
  | (.ok none, s) =>
    rw [tokens_of_next_none hnext] at h
    cases h
  | (.error e, s) =>
    rw [tokens_of_next_error hnext] at h
    cases h
  | (.ok (some u), s) =>
    rw [tokens_of_next_some hnext] at h
    obtain ⟨rfl, htokens⟩ := List.cons.inj h
    exact ⟨s, rfl, htokens⟩

theorem fill_of_next {r s : Reader} {t : Token} {y z : Yard} (hnext : r.next = (.ok (some t), s))
    (hpush : y.push t = .ok z) : r.fill y = s.fill z := by
  rw [fill]
  split
  · next s' h =>
    rw [hnext] at h
    cases h
  · next e s' h =>
    rw [hnext] at h
    cases h
  · next u s' h =>
    rw [hnext] at h
    cases h
    rw [hpush]

theorem exists_fill_of_tokens {r : Reader} {before after : List Token} {y z : Yard}
    (hread : r.tokens.1 = before ++ after) (hrun : before.foldlM Yard.push y = .ok z) :
    ∃ s : Reader, r.fill y = s.fill z ∧ s.tokens.1 = after := by
  induction before generalizing r y with
  | nil =>
    obtain rfl := pure_eq_ok.mp hrun
    exact ⟨r, rfl, hread⟩
  | cons t before ih =>
    obtain ⟨x, hpush, hrun⟩ := bind_eq_ok.mp hrun
    obtain ⟨q, hnext, hq⟩ := exists_next_of_tokens hread
    obtain ⟨s, hfill, hs⟩ := ih hq hrun
    exact ⟨s, (fill_of_next hnext hpush).trans hfill, hs⟩

end Reader

theorem Tree.ofString_eq (source : String) :
    Tree.ofString source = Reader.fillFrom .empty (Reader.ofString source).tokens.1
      (Reader.ofString source).tokens.2.1 >>= Yard.items >>= ofItems := by
  rw [← Reader.fill_eq_fillFrom]
  rfl

theorem Tree.ofString_eq_ok_iff {source : String} {t : Tree} :
    Tree.ofString source = .ok t ↔ (Reader.ofString source).tokens.2.1 = none ∧
      ∃ y items, (Reader.ofString source).tokens.1.foldlM Yard.push .empty = .ok y ∧
        y.items = .ok items ∧ ofItems items = .ok t := by
  rw [ofString_eq, Reader.fillFrom]
  simp only [bind_eq_ok]
  constructor
  · rintro ⟨items, ⟨y, ⟨z, hz, hf⟩, hi⟩, ho⟩
    cases hfault : (Reader.ofString source).tokens.2.1 with
    | none =>
      simp only [hfault] at hf
      obtain rfl := pure_eq_ok.mp hf
      exact ⟨rfl, z, items, hz, hi, ho⟩
    | some e => simp [hfault] at hf
  · rintro ⟨hf, y, items, hy, hi, ho⟩
    exact ⟨items, ⟨y, ⟨y, hy, by rw [hf]; rfl⟩, hi⟩, ho⟩

theorem Program.ofString_eq_ok_iff {source : String} {p : Program} :
    Program.ofString source = .ok p ↔ ∃ t, Tree.ofString source = .ok t ∧ t.build = .ok p := by
  unfold Program.ofString
  cases Tree.ofString source with
  | error fault => simp
  | ok t => simp [mapError_eq_ok]

theorem Program.ofString_eq_error_iff {source : String} {e : CompileError} :
    Program.ofString source = .error e ↔ (∃ f, Tree.ofString source = .error f ∧ .parse f = e) ∨
      ∃ t f, Tree.ofString source = .ok t ∧ t.build = .error f ∧ .build f = e := by
  unfold Program.ofString
  cases Tree.ofString source with
  | error fault => simp
  | ok t => simp [mapError_eq_error]

end Formula
