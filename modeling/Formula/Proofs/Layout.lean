import Formula.Proofs.Placement
import Formula.Proofs.Segmentation

namespace Formula

open Formula.Tree

structure Ordered (spans : List Span) : Prop where
  nonempty : ∀ s ∈ spans, s.start < s.stop
  pairwise : spans.Pairwise fun s t => s.stop ≤ t.start

def spanAt (spans : List Span) (i : Nat) : Span := (spans[min i (spans.length - 1)]?).getD ⟨0, 0⟩

section Spans

variable {spans : List Span}

theorem spanAt_of_lt {i : Nat} (h : i < spans.length) : spanAt spans i = spans[i] := by
  have hmin : min i (spans.length - 1) = i := by omega
  rw [spanAt, hmin, List.getElem?_eq_getElem h]
  rfl

theorem Ordered.getElem_le (h : Ordered spans) {i j : Nat} (hij : i ≤ j) (hj : j < spans.length) :
    spans[i].start ≤ spans[j].start ∧ spans[i].stop ≤ spans[j].stop := by
  rcases Nat.eq_or_lt_of_le hij with rfl | hlt
  · exact ⟨Nat.le_refl _, Nat.le_refl _⟩
  · have hp := List.pairwise_iff_getElem.mp h.pairwise i j (by omega) hj hlt
    have hi := h.nonempty _ (List.getElem_mem (l := spans) (n := i) (by omega))
    have hj := h.nonempty _ (List.getElem_mem hj)
    omega

theorem Ordered.spanAt_le (h : Ordered spans) {i j : Nat} (hij : i ≤ j) :
    (spanAt spans i).start ≤ (spanAt spans j).start ∧
      (spanAt spans i).stop ≤ (spanAt spans j).stop := by
  by_cases hn : spans = []
  · simp [hn, spanAt]
  · have hpos := List.length_pos_iff.mpr hn
    have hi : min i (spans.length - 1) < spans.length := by omega
    have hj : min j (spans.length - 1) < spans.length := by omega
    rw [spanAt, spanAt, List.getElem?_eq_getElem hi, List.getElem?_eq_getElem hj]
    exact h.getElem_le (by omega) hj

def Placement.ofSpans (spans : List Span) (h : Ordered spans) : Placement where
  start i := (spanAt spans i).start
  stop i := (spanAt spans i).stop
  start_mono _ _ hij := (h.spanAt_le hij).1
  stop_mono _ _ hij := (h.spanAt_le hij).2

end Spans

/-- The spans of what is found in a text: those of the tokens and, behind them, that of the
character that belongs to no token, if there is one. -/
def foundSpans (source : String) : List Span :=
  (Reader.ofString source).tokens.1.map Token.span ++
    (Reader.ofString source).tokens.2.1.toList.map LexError.span

theorem ordered_foundSpans (source : String) : Ordered (foundSpans source) := by
  have hsplit := (Reader.splits_tokens source.toList 0).1
  have hfirst := hsplit.fault_first
  constructor
  · intro s hs
    rcases List.mem_append.mp hs with hs | hs
    · obtain ⟨t, ht, rfl⟩ := List.mem_map.mp hs
      exact hsplit.nonempty t ht
    · obtain ⟨e, he, rfl⟩ := List.mem_map.mp hs
      obtain ⟨-, -, before, after, -, -, hspan⟩ := hfirst e (Option.mem_toList.mp he)
      have hpos := e.character.utf8Size_pos
      rw [hspan, Text.byteSize_append]
      simp only [Text.byteSize_cons, Text.byteSize_nil]
      omega
  · refine List.pairwise_append.mpr ⟨List.pairwise_map.mpr hsplit.ordered, ?_, ?_⟩
    · cases (Reader.ofString source).tokens.2.1 with
      | none => exact .nil
      | some e => exact List.pairwise_singleton _ _
    · intro s hs e' he'
      obtain ⟨t, ht, rfl⟩ := List.mem_map.mp hs
      obtain ⟨e, he, rfl⟩ := List.mem_map.mp he'
      exact (hfirst e (Option.mem_toList.mp he)).2.1 t ht

def layout (source : String) : Placement := .ofSpans (foundSpans source) (ordered_foundSpans source)

def counted (kinds : List Token.Kind) : List Token :=
  kinds.zipIdx.map fun k => ⟨k.1, ⟨k.2, k.2⟩⟩

def countedFault (n : Nat) (c : Option Char) : Option LexError := c.map fun c => ⟨c, ⟨n, n⟩⟩

theorem span_place_layout {source : String} {i : Nat} {s : Span}
    (h : (foundSpans source)[i]? = some s) : Span.place (layout source) ⟨i, i⟩ = s := by
  obtain ⟨hi, rfl⟩ := List.getElem?_eq_some_iff.mp h
  have hat := spanAt_of_lt hi
  simp only [Span.place, layout, Placement.ofSpans, hat]

theorem counted_place (source : String) :
    (counted ((Reader.ofString source).tokens.1.map Token.kind)).map (Token.place (layout source)) =
      (Reader.ofString source).tokens.1 := by
  apply List.ext_getElem
  · simp [counted]
  · intro i hi hi'
    have hspan : (foundSpans source)[i]? = some (Reader.ofString source).tokens.1[i].span := by
      rw [foundSpans, List.getElem?_append_left (by simpa using hi')]
      simp [hi']
    simp [counted, Token.place, span_place_layout hspan]

theorem countedFault_place (source : String) :
    (countedFault (Reader.ofString source).tokens.1.length
      ((Reader.ofString source).tokens.2.1.map LexError.character)).map (LexError.place (layout source)) =
      (Reader.ofString source).tokens.2.1 := by
  cases hf : (Reader.ofString source).tokens.2.1 with
  | none => rfl
  | some e =>
    have hspan : (foundSpans source)[(Reader.ofString source).tokens.1.length]? = some e.span := by
      rw [foundSpans, List.getElem?_append_right (by simp), hf]
      simp
    simp [countedFault, LexError.place, span_place_layout hspan]

def Tree.spans : Tree → List Span
  | leaf _ span => [span]
  | node _ sign left right span => sign :: span :: (left.spans ++ right.spans)

def ParseError.spans : ParseError → List Span
  | lex fault => [fault.span]
  | unmatchedCloseParen span | unclosedParen span | callOnNumber span | missingOperand _ span
  | unexpectedOperand span => [span]
  | emptyExpression => []

def BuildError.spans : BuildError → List Span
  | unknownSymbol _ span | unknownFunction _ span | invalidNumber _ span | unsupported _ span =>
    [span]

def CompileError.spans : CompileError → List Span
  | parse fault => fault.spans
  | build fault => fault.spans

def spansIn {ε α : Type} (f : ε → List Span) (g : α → List Span) : Except ε α → List Span
  | .error e => f e
  | .ok a => g a

theorem Tree.spans_place (π : Placement) (t : Tree) : (t.place π).spans = t.spans.map (Span.place π) := by
  induction t with
  | leaf l span => rfl
  | node op sign left right span ihl ihr => simp [place, spans, ihl, ihr]

theorem ParseError.spans_place (π : Placement) (e : ParseError) :
    (e.place π).spans = e.spans.map (Span.place π) := by
  cases e <;> rfl

theorem BuildError.spans_place (π : Placement) (e : BuildError) :
    (e.place π).spans = e.spans.map (Span.place π) := by
  cases e <;> rfl

theorem CompileError.spans_place (π : Placement) (e : CompileError) :
    (e.place π).spans = e.spans.map (Span.place π) := by
  cases e with
  | parse fault => exact fault.spans_place π
  | build fault => exact fault.spans_place π

theorem spansIn_place {ε α : Type} {f : ε → List Span} {g : α → List Span} {π : Placement}
    {p : ε → ε} {q : α → α} (hp : ∀ e, f (p e) = (f e).map (Span.place π))
    (hq : ∀ a, g (q a) = (g a).map (Span.place π)) (r : Except ε α) :
    spansIn f g (mapBoth p q r) = (spansIn f g r).map (Span.place π) := by
  cases r with
  | error e => exact hp e
  | ok a => exact hq a

def Placement.clamp (n : Nat) : Placement where
  start i := min i (n - 1)
  stop i := min i (n - 1)
  start_mono _ _ h := min_le_min_right _ h
  stop_mono _ _ h := min_le_min_right _ h

theorem counted_clamp {kinds : List Token.Kind} {n : Nat} (h : kinds.length ≤ n) :
    (counted kinds).map (Token.place (.clamp n)) = counted kinds := by
  apply List.ext_getElem
  · simp
  · intro i hi hi'
    have hlt : i < kinds.length := by simpa [counted] using hi'
    have hmin : min i (n - 1) = i := by omega
    simp [counted, Token.place, Span.place, Placement.clamp, hmin]

theorem countedFault_clamp {n m : Nat} {c : Option Char} (h : c ≠ none → m < n) :
    (countedFault m c).map (LexError.place (.clamp n)) = countedFault m c := by
  cases c with
  | none => rfl
  | some c =>
    have hlt := h (Option.some_ne_none c)
    have hmin : min m (n - 1) = m := by omega
    simp [countedFault, LexError.place, Span.place, Placement.clamp, hmin]

def CountsBelow (n : Nat) (found : List Span) : Prop := ∀ s ∈ found, s.start < n ∧ s.stop < n

theorem countsBelow_of_clamp {n : Nat} {found : List Span}
    (h : found.map (Span.place (.clamp n)) = found) (hn : n = 0 → found = []) :
    CountsBelow n found := by
  intro s hs
  have hfix : s.place (.clamp n) = s :=
    List.map_inj_left.mp (h.trans (List.map_id' found).symm) s hs
  have hpos : n ≠ 0 := fun hz => by simp [hn hz] at hs
  obtain ⟨hstart, hstop⟩ := Span.mk.inj hfix
  have hle (i : Nat) (hi : min i (n - 1) = i) : i < n := by omega
  exact ⟨hle _ hstart, hle _ hstop⟩

/-- Two texts come to one and the same result, in which every span stands for the bytes from the
start of a token to the stop of a token, wherever these are in either text. -/
structure AlikeApartFromLayout (a b : String) : Prop where
  tree : ∃ r : Except ParseError Tree,
    CountsBelow (foundSpans a).length (spansIn ParseError.spans Tree.spans r) ∧
    Tree.ofString a = mapBoth (ParseError.place (layout a)) (Tree.place (layout a)) r ∧
    Tree.ofString b = mapBoth (ParseError.place (layout b)) (Tree.place (layout b)) r
  program : ∃ r : Except CompileError Program,
    CountsBelow (foundSpans a).length (spansIn CompileError.spans (fun _ => []) r) ∧
    Program.ofString a = mapBoth (CompileError.place (layout a)) id r ∧
    Program.ofString b = mapBoth (CompileError.place (layout b)) id r

def countedResult (source : String) : Except ParseError Tree :=
  ofTokens (counted ((Reader.ofString source).tokens.1.map Token.kind))
    (countedFault (Reader.ofString source).tokens.1.length
      ((Reader.ofString source).tokens.2.1.map LexError.character))

theorem ofString_eq_place (source : String) : Tree.ofString source =
    mapBoth (ParseError.place (layout source)) (Tree.place (layout source))
      (countedResult source) := by
  rw [countedResult, ← ofTokens_place, counted_place, countedFault_place, ofTokens, ← ofString_eq]

theorem countedResult_clamp (source : String) :
    mapBoth (ParseError.place (.clamp (foundSpans source).length))
      (Tree.place (.clamp (foundSpans source).length)) (countedResult source) =
      countedResult source := by
  rw [countedResult, ← ofTokens_place, counted_clamp, countedFault_clamp]
  · intro hf
    have hne : (Reader.ofString source).tokens.2.1 ≠ none := fun h => hf (by rw [h]; rfl)
    obtain ⟨e, he⟩ := Option.ne_none_iff_exists'.mp hne
    simp [foundSpans, he]
  · simp [foundSpans]

theorem countedResult_of_length_eq_zero {source : String} (h : (foundSpans source).length = 0) :
    countedResult source = .error .emptyExpression := by
  simp only [foundSpans, List.length_append, List.length_map, Nat.add_eq_zero_iff] at h
  have htokens := List.length_eq_zero_iff.mp h.1
  have hfault : (Reader.ofString source).tokens.2.1 = none :=
    Option.toList_eq_nil_iff.mp (List.length_eq_zero_iff.mp h.2)
  rw [countedResult, htokens, hfault]
  rfl

theorem Program.alikeApartFromLayout_of_kinds_eq {a b : String}
    (hk : (Reader.ofString a).tokens.1.map Token.kind = (Reader.ofString b).tokens.1.map Token.kind)
    (hf : (Reader.ofString a).tokens.2.1.map LexError.character =
      (Reader.ofString b).tokens.2.1.map LexError.character) : AlikeApartFromLayout a b := by
  have hlength := congrArg List.length hk
  simp only [List.length_map] at hlength
  have hsame : countedResult b = countedResult a := by
    rw [countedResult, countedResult, hk, hf, hlength]
  have hclamp := countedResult_clamp a
  have hprogram (source : String) : Program.ofString source =
      mapBoth (CompileError.place (layout source)) id (ofTree (countedResult source)) := by
    rw [← ofTree_place, ← ofString_eq_place]
    rfl
  constructor
  · refine ⟨countedResult a, countsBelow_of_clamp ?_ ?_, ofString_eq_place a, ?_⟩
    · rw [← spansIn_place (ParseError.spans_place _) (Tree.spans_place _), hclamp]
    · intro hn
      rw [countedResult_of_length_eq_zero hn]
      rfl
    · rw [← hsame]
      exact ofString_eq_place b
  · refine ⟨ofTree (countedResult a), countsBelow_of_clamp ?_ ?_, hprogram a, ?_⟩
    · rw [← spansIn_place (g := fun _ => []) (q := id) (CompileError.spans_place _) (fun _ => rfl),
        ← ofTree_place, hclamp]
    · intro hn
      rw [countedResult_of_length_eq_zero hn]
      rfl
    · rw [← hsame]
      exact hprogram b

theorem Program.alikeApartFromLayout_unknown_symbol :
    let a := "2*cos(y)"
    let b := "\n2 *cos ( y)\t"
    (Reader.ofString a).tokens.1.map Token.kind = (Reader.ofString b).tokens.1.map Token.kind ∧
      (Reader.ofString a).tokens.2.1.map LexError.character =
        (Reader.ofString b).tokens.2.1.map LexError.character ∧ AlikeApartFromLayout a b := by
  intro a b
  have hk : (Reader.ofString a).tokens.1.map Token.kind =
      (Reader.ofString b).tokens.1.map Token.kind := by decide +kernel
  have hf : (Reader.ofString a).tokens.2.1.map LexError.character =
      (Reader.ofString b).tokens.2.1.map LexError.character := by decide +kernel
  exact ⟨hk, hf, alikeApartFromLayout_of_kinds_eq hk hf⟩

end Formula
