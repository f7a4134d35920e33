import Formula.Proofs.Origin
import Formula.Tree.Outline

/-!
The tree of a text can be read off its outline. How far a line is moved to the right does not tell
the level of its node, as a wide text covers the blanks, but the order of the lines does.
-/

namespace Formula

namespace Text

def Unbroken (text : String) : Prop := ∀ c ∈ text.toList, c ≠ ' ' ∧ c ≠ '\n'

theorem unbroken_of_isAlphanum {text : String} (h : ∀ c ∈ text.toList, c.isAlphanum) :
    Unbroken text := by
  intro c hc
  have halphanum := h c hc
  constructor
  · rintro rfl
    cases halphanum
  · rintro rfl
    cases halphanum

end Text

open Text (Unbroken)

namespace Operator

theorem toList_toString (op : Operator) : (toString op).toList = [op.symbol] := by
  change (String.singleton op.symbol).toList = [op.symbol]
  exact String.toList_singleton _

theorem toString_injective {a b : Operator} (h : toString a = toString b) : a = b := by
  have hlist := congrArg String.toList h
  rw [toList_toString, toList_toString] at hlist
  exact symbol_injective (List.singleton_inj.mp hlist)

theorem isAlphanum_symbol (op : Operator) : op.symbol.isAlphanum = false := by
  cases op with
  | arithmetic op => cases op <;> rfl
  | _ => rfl

theorem symbol_ne (op : Operator) : op.symbol ≠ ' ' ∧ op.symbol ≠ '\n' := by
  cases op with
  | arithmetic op => cases op <;> decide
  | _ => decide

theorem unbroken (op : Operator) : Unbroken (toString op) := by
  intro c hc
  rw [toList_toString] at hc
  rw [List.mem_singleton.mp hc]
  exact op.symbol_ne

end Operator

namespace Leaf

def Lexical (l : Leaf) : Prop := ∃ next, l.kind.StandsBefore next

variable {l m : Leaf}

theorem Lexical.isAlphanum (h : l.Lexical) : ∀ c ∈ l.text.toList, c.isAlphanum := by
  obtain ⟨next, h⟩ := h
  cases l with
  | name text =>
    obtain ⟨c, run, htext, hc, hrun, -⟩ := h
    change ∀ c ∈ text.toList, c.isAlphanum
    rw [htext]
    exact List.forall_mem_cons.mpr ⟨by simp [Char.isAlphanum, hc], hrun⟩
  | number text =>
    obtain ⟨-, hdigits, -⟩ := h
    intro c hc
    simp [Char.isAlphanum, hdigits c hc]

theorem Lexical.unbroken (h : l.Lexical) : Unbroken l.text :=
  Text.unbroken_of_isAlphanum h.isAlphanum

theorem Lexical.text_ne_toString (h : l.Lexical) (op : Operator) : l.text ≠ toString op := by
  intro htext
  have hmem : op.symbol ∈ l.text.toList := by simp [htext, op.toList_toString]
  have halphanum := h.isAlphanum _ hmem
  rw [op.isAlphanum_symbol] at halphanum
  cases halphanum

theorem name_ne_number {name number : String} (hname : (Leaf.name name).Lexical)
    (hnumber : (Leaf.number number).Lexical) : name ≠ number := by
  obtain ⟨_, c, run, hc, halpha, -⟩ := hname
  obtain ⟨_, -, hdigits, -⟩ := hnumber
  rintro rfl
  -- A name starts with a letter, and a number has none.
  have hdigit := hdigits c (by simp [hc])
  rw [Reader.isAlpha_of_isDigit hdigit] at halpha
  cases halpha

theorem Lexical.eq_of_text_eq (hl : l.Lexical) (hm : m.Lexical) (h : l.text = m.text) : l = m := by
  cases l with
  | name a =>
    cases m with
    | name b => exact congrArg Leaf.name h
    | number b => exact absurd h (name_ne_number hl hm)
  | number a =>
    cases m with
    | name b => exact absurd h.symm (name_ne_number hm hl)
    | number b => exact congrArg Leaf.number h

end Leaf

namespace Tree

inductive Alike : Tree → Tree → Prop
  | leaf {l : Leaf} {span span' : Span} : Alike (leaf l span) (leaf l span')
  | node {op : Operator} {sign sign' span span' : Span} {left left' right right' : Tree}
      (hl : Alike left left') (hr : Alike right right') :
      Alike (node op sign left right span) (node op sign' left' right' span')

variable {s t : Tree}

theorem Alike.outlineFrom_eq (h : Alike s t) (width : Nat) :
    s.outlineFrom width = t.outlineFrom width := by
  induction h generalizing width with
  | leaf => rfl
  | node hl hr ihl ihr => rw [outlineFrom, outlineFrom, ihl, ihr]

theorem parts_of_line (width : Nat) {a : String} (ha : Unbroken a) (u : String) :
    let written := (line width a ++ u).toList
    (written.takeWhile (· != '\n')).dropWhile (· == ' ') = a.toList ∧
      written.dropWhile (· != '\n') = '\n' :: u.toList := by
  intro written
  let blanks := List.replicate (width - a.length) ' '
  have hwritten : written = (blanks ++ a.toList) ++ '\n' :: u.toList := by simp [written, line, blanks]
  have hrun : ∀ c ∈ blanks ++ a.toList, (c != '\n') = true := by
    intro c hc
    rcases List.mem_append.mp hc with hc | hc
    · rw [List.eq_of_mem_replicate hc]
      rfl
    · exact bne_iff_ne.mpr (ha c hc).2
  have hblanks : ∀ c ∈ blanks, (c == ' ') = true := by
    intro c hc
    rw [List.eq_of_mem_replicate hc]
    rfl
  have hhead : ∀ c ∈ a.toList.head?, ¬ (c == ' ') = true := by
    intro c hc
    rw [beq_iff_eq]
    exact (ha c (List.mem_of_mem_head? hc)).1
  have hstop : ∀ c ∈ ('\n' :: u.toList).head?, ¬ (c != '\n') = true := by simp
  obtain ⟨htake, hdrop⟩ := Reader.takeWhile_run hrun hstop
  rw [hwritten, htake, hdrop]
  exact ⟨(Reader.takeWhile_run hblanks hhead).2, rfl⟩

theorem line_append_inj {width width' : Nat} {a b u v : String} (ha : Unbroken a) (hb : Unbroken b)
    (h : line width a ++ u = line width' b ++ v) : a = b ∧ u = v := by
  obtain ⟨htexta, hresta⟩ := parts_of_line width ha u
  obtain ⟨htextb, hrestb⟩ := parts_of_line width' hb v
  rw [h] at htexta hresta
  constructor
  · exact String.toList_inj.mp (htexta.symm.trans htextb)
  · exact String.toList_inj.mp (List.cons.inj (hresta.symm.trans hrestb)).2

def Lexical (t : Tree) : Prop := ∀ l span, .operand l span ∈ t.toItems → l.Lexical

theorem Lexical.operands {op : Operator} {sign span : Span} {left right : Tree}
    (h : (node op sign left right span).Lexical) : left.Lexical ∧ right.Lexical := by
  constructor
  · intro l s hl
    exact h l s (by simp [toItems, hl])
  · intro l s hl
    exact h l s (by simp [toItems, hl])

theorem alike_of_outlineFrom {width : Nat} {u v : String} (hs : s.Lexical) (ht : t.Lexical)
    (h : s.outlineFrom width ++ u = t.outlineFrom width ++ v) : Alike s t ∧ u = v := by
  induction s generalizing t width u v with
  | leaf l span =>
    have hl : l.Lexical := hs l span List.mem_cons_self
    cases t with
    | leaf m span' =>
      have hm : m.Lexical := ht m span' List.mem_cons_self
      obtain ⟨htext, hrest⟩ := line_append_inj hl.unbroken hm.unbroken h
      obtain rfl := hl.eq_of_text_eq hm htext
      exact ⟨.leaf, hrest⟩
    | node op sign left right span' =>
      rw [outlineFrom, outlineFrom, String.append_assoc, String.append_assoc] at h
      obtain ⟨htext, -⟩ := line_append_inj hl.unbroken op.unbroken h
      exact absurd htext (hl.text_ne_toString op)
  | node op sign left right span ihl ihr =>
    cases t with
    | leaf m span' =>
      have hm : m.Lexical := ht m span' List.mem_cons_self
      rw [outlineFrom, outlineFrom, String.append_assoc, String.append_assoc] at h
      obtain ⟨htext, -⟩ := line_append_inj op.unbroken hm.unbroken h
      exact absurd htext.symm (hm.text_ne_toString op)
    | node op' sign' left' right' span' =>
      obtain ⟨hleft, hright⟩ := hs.operands
      obtain ⟨hleft', hright'⟩ := ht.operands
      simp only [outlineFrom, String.append_assoc] at h
      obtain ⟨htext, hrest⟩ := line_append_inj op.unbroken op'.unbroken h
      obtain rfl := Operator.toString_injective htext
      -- The outline of the left operand ends where that of the right one begins.
      obtain ⟨hl, hrest⟩ := ihl hleft hleft' hrest
      obtain ⟨hr, hrest⟩ := ihr hright hright' hrest
      exact ⟨.node hl hr, hrest⟩

theorem outline_eq_iff_of_ofString {a b : String} (hs : Tree.ofString a = .ok s)
    (ht : Tree.ofString b = .ok t) : s.outline = t.outline ↔ Alike s t := by
  rw [outline_eq_outlineFrom, outline_eq_outlineFrom]
  constructor
  · intro h
    have hlexical : s.Lexical := fun l span hl => exists_standsBefore_of_ofString hs hl
    have hlexical' : t.Lexical := fun l span hl => exists_standsBefore_of_ofString ht hl
    have happend : s.outlineFrom 0 ++ "" = t.outlineFrom 0 ++ "" := congrArg (· ++ "") h
    exact (alike_of_outlineFrom hlexical hlexical' happend).1
  · intro h
    exact h.outlineFrom_eq 0

theorem outline_eq_iff_of_ofString_postfix :
    let difference (sign span : Span) := node (.arithmetic .sub) sign
      (leaf (.name "undetermined") ⟨0, 12⟩) (leaf (.number "1") ⟨13, 14⟩) span
    let s := difference ⟨12, 13⟩ ⟨0, 14⟩
    let t := difference ⟨15, 16⟩ ⟨0, 16⟩
    Tree.ofString "undetermined-1" = .ok s ∧ Tree.ofString "undetermined 1 -" = .ok t ∧
      Alike s t ∧ s.outline = t.outline := by
  intro difference s t
  have hs : Tree.ofString "undetermined-1" = .ok s := by decide +kernel
  have ht : Tree.ofString "undetermined 1 -" = .ok t := by decide +kernel
  have halike : Alike s t := .node .leaf .leaf
  exact ⟨hs, ht, halike, (outline_eq_iff_of_ofString hs ht).mpr halike⟩

end Tree

end Formula
