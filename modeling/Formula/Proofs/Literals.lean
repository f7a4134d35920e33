import Formula.Decimal
import Mathlib

/-!
Digits alone always are a number, whose double has a place and no sign. Of such doubles none is the
negative zero or no number at all, so that comparing them as numbers is comparing their bits.
-/

namespace Formula

namespace Binary64

open Float.Model Float.Model.UnpackedFloat Float.Model.Format

theorem toNat_unpackExponent (b : BitVec 64) :
    (@unpackExponent binary64 b).toNat = b.toNat / binade % 2048 := by
  simp [unpackExponent_def, binade, Nat.shiftRight_eq_div_pow]

theorem isNaNBits_of_le {b : BitVec 64} (h : b.toNat ≤ infinity) :
    @isNaNBits binary64 b = false := by
  have hmantissa : (@unpackMantissa binary64 b).toNat = b.toNat % binade := by
    simp [unpackMantissa_def, binade]
  rw [isNaNBits, decide_eq_false_iff_not, ← BitVec.toNat_inj, ne_eq, ← BitVec.toNat_inj,
    toNat_unpackExponent, hmantissa]
  change ¬ (_ = 2047 ∧ ¬ _ = 0)
  simp only [infinity, binade] at h ⊢
  omega

theorem isFinite_of_toBits_lt {x : Float} (h : x.toBits.toNat < infinity) : x.isFinite = true := by
  have hexponent : @unpackExponent binary64 x.toBits.toBitVec ≠ -1#_ := by
    rw [ne_eq, ← BitVec.toNat_inj, toNat_unpackExponent]
    change ¬ x.toBits.toNat / binade % 2048 = 2047
    simp only [infinity, binade] at h ⊢
    omega
  change UnpackedFloat.isFinite (UnpackedFloat.unpack binary64 x.toBits.toBitVec) = true
  unfold UnpackedFloat.unpack
  rw [if_neg hexponent]
  split
  · split <;> rfl
  · rfl

theorem infinity_lt_toBits_nan : infinity < Float.nan.toBits.toNat := by decide +kernel

theorem isNaN_of_toBits_le {x : Float} (h : x.toBits.toNat ≤ infinity) : x.isNaN = false := by
  rw [Float.isNaN_eq_decide_eq_nan, decide_eq_false_iff_not]
  rintro rfl
  exact absurd infinity_lt_toBits_nan (Nat.not_lt_of_le h)

theorem toBits_toFloat {place : Nat} (h : place ≤ infinity) :
    (toFloat false place).toBits.toNat = place := by
  have hplace : place.toUInt64.toBitVec.toNat = place := by
    apply Nat.mod_eq_of_lt
    simp only [infinity] at h
    omega
  have hpack : UnpackedFloat.pack binary64 (UnpackedFloat.unpack binary64 place.toUInt64.toBitVec) =
      place.toUInt64.toBitVec := by
    rw [pack_unpack, isNaNBits_of_le (hplace.trans_le h), if_neg Bool.false_ne_true]
  exact (congrArg BitVec.toNat hpack).trans hplace

theorem beq_iff_eq_of_toBits_le {x y : Float} (hx : x.toBits.toNat ≤ infinity)
    (hy : y.toBits.toNat ≤ infinity) : (x == y) = true ↔ x = y := by
  have hne {z w : Float} (hz : z.toBits.toNat ≤ infinity) (hw : infinity < w.toBits.toNat) :
      z ≠ w := by
    rintro rfl
    omega
  have hzero : infinity < (-0 : Float).toBits.toNat := by decide +kernel
  rw [Float.beq_iff_ne_nan_and_eq]
  simp [hne hx infinity_lt_toBits_nan, hne hy infinity_lt_toBits_nan, hne hx hzero, hne hy hzero]

end Binary64

namespace Decimal

variable {c : Char} {text : List Char}

theorem placeOf_le_infinity (digits : List Char) (exponent : Int) :
    placeOf digits exponent ≤ Binary64.infinity := by
  unfold placeOf
  simp only
  split
  · exact Nat.zero_le _
  · split
    · exact Nat.le_refl _
    · exact Binary64.nearest_le_infinity _

theorem toLower_of_isDigit (h : c.isDigit) : c.toLower = c := by
  have hupper : ¬ (c.val ≥ 'A'.val ∧ c.val ≤ 'Z'.val) := by
    simp [Char.isDigit, UInt32.le_iff_toNat_le] at h ⊢
    omega
  exact dif_neg hupper

theorem sign_of_isDigit (h : c.isDigit) : sign (c :: text) = (false, c :: text) := by
  unfold sign
  split
  · next heq =>
    obtain ⟨rfl, -⟩ := List.cons.inj heq
    exact absurd h (by decide)
  · next heq =>
    obtain ⟨rfl, -⟩ := List.cons.inj heq
    exact absurd h (by decide)
  · rfl

theorem map_toLower_ne (h : c.isDigit) {d : Char} (hd : d.isDigit = false) (word : List Char) :
    (c :: text).map Char.toLower ≠ d :: word := by
  intro heq
  have hc : c = d := by simpa [toLower_of_isDigit h] using (List.cons.inj heq).1
  rw [hc, hd] at h
  exact Bool.false_ne_true h

theorem place?_of_digits (hne : text ≠ []) (hd : ∀ c ∈ text, c.isDigit) :
    place? text = some (placeOf text 0) := by
  have hwhole : text.takeWhile Char.isDigit = text := List.takeWhile_eq_self_iff.mpr hd
  have hrest : text.dropWhile Char.isDigit = [] := List.dropWhile_eq_nil_iff.mpr hd
  simp [place?, hwhole, hrest, hne, exponent?]

theorem read_of_digits {text : String} (hne : text.toList ≠ []) (hd : ∀ c ∈ text.toList, c.isDigit) :
    read text = .ok (Binary64.toFloat false (placeOf text.toList 0)) := by
  obtain ⟨c, rest, htext⟩ := List.exists_cons_of_ne_nil hne
  have hc : c.isDigit := hd c (by simp [htext])
  have hempty : text.isEmpty = false := by
    rw [← Bool.not_eq_true, String.isEmpty_iff]
    rintro rfl
    exact hne rfl
  have hsign : sign text.toList = (false, text.toList) := by rw [htext, sign_of_isDigit hc]
  have hword {d : Char} (hdigit : d.isDigit = false) (word : List Char) :
      text.toList.map Char.toLower ≠ d :: word := by
    rw [htext]
    exact map_toLower_ne hc hdigit word
  have hnan : text.toList.map Char.toLower ≠ "nan".toList := hword (by decide) _
  have hinf : text.toList.map Char.toLower ≠ "inf".toList := hword (by decide) _
  have hinfinity : text.toList.map Char.toLower ≠ "infinity".toList := hword (by decide) _
  simp only [read, hempty, hsign, hnan, hinf, hinfinity, place?_of_digits hne hd, Bool.false_eq_true,
    ↓reduceIte, or_self]

end Decimal

end Formula
