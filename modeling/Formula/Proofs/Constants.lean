import Formula.Proofs.Equality
import Formula.Proofs.Labels

/-!
The numbers of a text are rows of digits, and stay so on the way into the tree. Each of them
therefore is a double, and one without a sign.
-/

namespace Formula

open Formula.Tree

namespace Binary64

theorem eq_toFloat_of_toBits_eq {x : Float} {place : Nat} (h : x.toBits.toNat = place)
    (hle : place ≤ infinity) : x = toFloat false place := by
  rw [← Float.toBits_inj, ← UInt64.toNat_inj, h, toBits_toFloat hle]

end Binary64

/-- Neither negative nor without a value: a finite double or infinity. -/
structure Unsigned (value : Float) : Prop where
  isNaN : value.isNaN = false
  lt_signBit : value.toBits.toNat < Binary64.signBit
  finite_or_eq : value.isFinite = true ∨ value = Binary64.toFloat false Binary64.infinity

theorem Instruction.Plain.unsigned {value : Float} (h : (loadConstant value).Plain) :
    Unsigned value := by
  have hle : value.toBits.toNat ≤ Binary64.infinity := h
  refine ⟨Binary64.isNaN_of_toBits_le hle, Nat.lt_of_le_of_lt hle (by decide), ?_⟩
  rcases Nat.lt_or_eq_of_le hle with hlt | heq
  · exact .inl (Binary64.isFinite_of_toBits_lt hlt)
  · exact .inr (Binary64.eq_toFloat_of_toBits_eq heq (Nat.le_refl _))

namespace Program

variable {source : String}

theorem ofString_ne_invalidNumber (text : String) (span : Span) :
    ofString source ≠ .error (.build (.invalidNumber text span)) := by
  intro h
  obtain ⟨t, s, ht, hs, hraises⟩ := exists_raises_of_ofString h
  cases hraises with
  | invalidNumber hread =>
    have hmem := mem_toItems_of_mem_subtrees hs _ List.mem_cons_self
    obtain ⟨hne, hd⟩ := wellFormed_of_ofString ht hmem
    exact hread _ (Decimal.read_of_digits hne hd)

theorem unsigned_of_ofString (source : String) :
    (∀ text span, ofString source ≠ .error (.build (.invalidNumber text span))) ∧
      ∀ p, ofString source = .ok p → ∀ value, .loadConstant value ∈ p.code → Unsigned value := by
  refine ⟨ofString_ne_invalidNumber, fun p h value hv => ?_⟩
  obtain ⟨-, -, -, -, -, hplain⟩ := exists_meaning_of_ofString h
  exact (hplain _ hv).unsigned

theorem unsigned_of_ofString_twelve :
    let source := "pi-12"
    let twelve := Binary64.toFloat false (Decimal.placeOf "12".toList 0)
    let p : Program :=
      ⟨[.loadConstant NamedConstant.pi.value, .loadConstant twelve, .arithmetic .sub], 2⟩
    ofString source = .ok p ∧
      (∀ text span, ofString source ≠ .error (.build (.invalidNumber text span))) ∧
      ∀ value, .loadConstant value ∈ p.code → Unsigned value := by
  intro source twelve p
  have hread : Decimal.read "12" = .ok twelve := Decimal.read_of_digits (by simp) (by simp)
  have h : ofString source = .ok p := by
    apply ofString_eq_ok_iff.mpr
    refine ⟨node (.arithmetic .sub) ⟨2, 3⟩ (leaf (.name "pi") ⟨0, 2⟩) (leaf (.number "12") ⟨3, 5⟩)
      ⟨0, 5⟩, by decide +kernel, ?_⟩
    have hleaf : (leaf (.number "12") ⟨3, 5⟩).code = .ok [.loadConstant twelve] := by
      rw [Tree.code, Leaf.load, hread]
      rfl
    rw [build_eq_code, Tree.code, hleaf]
    rfl
  obtain ⟨hnumber, hconstants⟩ := unsigned_of_ofString source
  exact ⟨h, hnumber, hconstants p h⟩

end Program

end Formula
