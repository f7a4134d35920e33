import Formula.Proofs.Placement
import Formula.Proofs.Segments

namespace Formula

open Text (byteSize isBlank)

theorem Token.Kind.StandsBefore.of_head {kind : Token.Kind} {c d : Option Char}
    (h : kind.StandsBefore c) (hd : ∀ x ∈ d, x ∈ c ∨ ¬ x.isAlphanum) : kind.StandsBefore d := by
  cases kind with
  | identifier text =>
    obtain ⟨first, run, ht, hf, hr, hc⟩ := h
    refine ⟨first, run, ht, hf, hr, fun x hx => ?_⟩
    rcases hd x hx with hx | hx
    · exact hc x hx
    · exact hx
  | number text =>
    obtain ⟨ht, hn, hc⟩ := h
    refine ⟨ht, hn, fun x hx => ?_⟩
    rcases hd x hx with hx | hx
    · exact hc x hx
    · intro hdigit
      exact hx (by simp [Char.isAlphanum, hdigit])
  | _ => trivial

inductive Spells : List Token.Kind → List Char → Prop
  | done : Spells [] []
  | blank {c : Char} {kinds : List Token.Kind} {rest : List Char} (hc : isBlank c)
      (h : Spells kinds rest) : Spells kinds (c :: rest)
  | token {kind : Token.Kind} {kinds : List Token.Kind} {rest : List Char}
      (hk : kind.StandsBefore rest.head?) (h : Spells kinds rest) :
      Spells (kind :: kinds) (kind.text.toList ++ rest)

namespace Reader

variable {kinds : List Token.Kind} {rest : List Char} {offset : Nat} {read : List Token}
  {fault : Option LexError}

theorem Splits.spells (h : Splits rest offset read fault) (hf : fault = none) :
    Spells (read.map Token.kind) rest := by
  induction h with
  | done offset => exact .done
  | blank hc h ih => exact .blank hc (ih hf)
  | token hk h ih => exact .token hk (ih hf)
  | stray hc => cases hf

theorem exists_splits_of_spells (h : Spells kinds rest) (offset : Nat) :
    ∃ read, Splits rest offset read none ∧ read.map Token.kind = kinds := by
  induction h generalizing offset with
  | done => exact ⟨[], .done offset, rfl⟩
  | @blank c kinds rest hc h ih =>
    obtain ⟨read, hsplit, hkinds⟩ := ih (offset + c.utf8Size)
    exact ⟨read, .blank hc hsplit, hkinds⟩
  | @token kind kinds rest hk h ih =>
    obtain ⟨read, hsplit, hkinds⟩ := ih (offset + byteSize kind.text.toList)
    exact ⟨_ :: read, .token hk hsplit, congrArg _ hkinds⟩

end Reader

namespace Spells

variable {kinds kinds' : List Token.Kind} {text rest : List Char}

theorem append (h : Spells kinds text) (h' : Spells kinds' rest)
    (hr : ∀ c ∈ rest.head?, ¬ c.isAlphanum) : Spells (kinds ++ kinds') (text ++ rest) := by
  induction h with
  | done => exact h'
  | blank hc h ih => exact .blank hc ih
  | @token kind kinds text hk h ih =>
    rw [List.append_assoc]
    refine .token (hk.of_head fun c hc => ?_) ih
    cases text with
    | nil => exact .inr (hr c hc)
    | cons d text => exact .inl hc

theorem parenthesized (h : Spells kinds text) (h' : Spells kinds' rest) :
    Spells (.openParen :: (kinds ++ .closeParen :: kinds')) ('(' :: (text ++ ')' :: rest)) :=
  .token trivial (h.append (.token trivial h') (by simp))

end Spells

def Placement.origin : Placement where
  start _ := 0
  stop _ := 0
  start_mono _ _ _ := Nat.le_refl 0
  stop_mono _ _ _ := Nat.le_refl 0

@[simp]
theorem Span.place_origin (s : Span) : s.place .origin = ⟨0, 0⟩ := rfl

def Token.Kind.atOrigin (kind : Token.Kind) : Token := ⟨kind, ⟨0, 0⟩⟩

@[simp]
theorem Token.Kind.atOrigin_span (kind : Token.Kind) : kind.atOrigin.span = ⟨0, 0⟩ := rfl

theorem Program.splits_of_ofString {source : String} {p : Program}
    (h : Program.ofString source = .ok p) :
    Reader.Splits source.toList 0 (Reader.ofString source).tokens.1 none := by
  obtain ⟨t, ht, -⟩ := ofString_eq_ok_iff.mp h
  rw [← (Tree.ofString_eq_ok_iff.mp ht).1]
  exact (Reader.splits_tokens source.toList 0).1

theorem Program.ofString_eq_ok_iff_of_spells {kinds : List Token.Kind} {source : String}
    (h : Spells kinds source.toList) {p : Program} : Program.ofString source = .ok p ↔
      ∃ t, Tree.ofTokens (kinds.map Token.Kind.atOrigin) none = .ok t ∧ t.build = .ok p := by
  obtain ⟨read, hsplit, rfl⟩ := Reader.exists_splits_of_spells h 0
  obtain ⟨htokens, hfault⟩ := hsplit.tokens_eq
  have hsource : Tree.ofString source = Tree.ofTokens read none := by
    rw [Tree.ofString_eq, Reader.ofString, htokens, hfault]
    rfl
  have hplaced : Tree.ofTokens ((read.map Token.kind).map Token.Kind.atOrigin) none =
      mapBoth (ParseError.place .origin) (Tree.place .origin) (Tree.ofString source) := by
    rw [hsource, ← Tree.ofTokens_place, List.map_map]
    rfl
  rw [hplaced, Program.ofString_eq_ok_iff]
  constructor
  · rintro ⟨t, ht, hp⟩
    refine ⟨t.place .origin, mapBoth_eq_ok.mpr ⟨t, ht, rfl⟩, ?_⟩
    rw [Tree.build_place, hp]
    rfl
  · rintro ⟨_, hplace, hp⟩
    obtain ⟨t, ht, rfl⟩ := mapBoth_eq_ok.mp hplace
    rw [Tree.build_place] at hp
    obtain ⟨q, hbuild, rfl⟩ := mapBoth_eq_ok.mp hp
    exact ⟨t, ht, hbuild⟩

end Formula
