import Formula.Proofs.Literals

/-!
Reading rounds: the double that is read is nearer to the number written than any other one, and of
two equally near ones it is the one with the even place. Infinity takes part in this like the power of
two that would come next.
-/

namespace Formula

namespace Binary64

section Whole

variable {q : ℚ} {j : ℤ}

theorem mul_den_eq (hq : 0 ≤ q) : q * q.den = q.num.toNat := by
  rw [Rat.mul_den_eq_num, ← Int.cast_natCast, Int.toNat_of_nonneg (Rat.num_nonneg.mpr hq)]

theorem roundEven_cases (hq : 0 ≤ q) : ∃ w : ℕ, w ≤ q ∧ q < w + 1 ∧
    (roundEven q = w ∧ (q < w + 1 / 2 ∨ q = w + 1 / 2 ∧ w % 2 = 0) ∨
      roundEven q = w + 1 ∧ (w + 1 / 2 < q ∨ q = w + 1 / 2 ∧ w % 2 = 1)) := by
  have hden : (0 : ℚ) < q.den := by exact_mod_cast q.den_pos
  have hmul := mul_den_eq hq
  have hlt := Nat.mod_lt q.num.toNat q.den_pos
  have hsum := Nat.div_add_mod q.num.toNat q.den
  generalize hw : q.num.toNat / q.den = w at hsum
  generalize hr : q.num.toNat % q.den = r at hlt hsum
  -- Everything is decided by the rest of the division, over the denominator.
  have hrest : q - w = r / q.den := by
    rw [eq_div_iff hden.ne', sub_mul, hmul, ← hsum]
    push_cast
    ring
  have hhalf : q < w + 1 / 2 ↔ 2 * r < q.den := by
    rw [← sub_lt_iff_lt_add', hrest, div_lt_iff₀ hden, ← Nat.cast_lt (α := ℚ)]
    push_cast
    constructor <;> intro h <;> linarith
  have htie : q = w + 1 / 2 ↔ 2 * r = q.den := by
    rw [← sub_eq_iff_eq_add', hrest, div_eq_iff hden.ne', ← Nat.cast_inj (R := ℚ)]
    push_cast
    constructor <;> intro h <;> linarith
  refine ⟨w, ?_, ?_, ?_⟩
  · rw [← sub_nonneg, hrest]
    positivity
  · rw [← sub_lt_iff_lt_add', hrest, div_lt_one hden]
    exact_mod_cast hlt
  · rw [roundEven]
    simp only [hw, hr]
    split
    · next h => exact .inl ⟨rfl, h.imp hhalf.mpr fun h => ⟨htie.mpr h.1, h.2⟩⟩
    · next h =>
      obtain ⟨hless, heven⟩ := not_or.mp h
      refine .inr ⟨rfl, ?_⟩
      rcases eq_or_ne (2 * r) q.den with heq | hne
      · exact .inr ⟨htie.mpr heq, by omega⟩
      · exact .inl (lt_of_le_of_ne (not_lt.mp (mt hhalf.mp hless)) (Ne.symm (mt htie.mp hne)))

theorem abs_roundEven_sub_le_half (hq : 0 ≤ q) : |roundEven q - q| ≤ 1 / 2 := by
  obtain ⟨w, hw, hw', ⟨heq, hside⟩ | ⟨heq, hside⟩⟩ := roundEven_cases hq
  · rw [heq, abs_le]
    constructor
    · rcases hside with h | h <;> linarith
    · linarith
  · rw [heq, abs_le]
    push_cast
    constructor
    · linarith
    · rcases hside with h | h <;> linarith

theorem roundEven_even (hq : 0 ≤ q) (h : |roundEven q - q| = 1 / 2) : roundEven q % 2 = 0 := by
  obtain ⟨w, hw, hw', ⟨heq, hside⟩ | ⟨heq, hside⟩⟩ := roundEven_cases hq
  · rw [heq, abs_sub_comm, abs_of_nonneg (sub_nonneg.mpr hw)] at h
    rcases hside with hlt | ⟨-, heven⟩
    · linarith
    · rwa [heq]
  · rw [heq] at h
    push_cast at h
    rw [abs_of_pos (sub_pos.mpr hw')] at h
    rcases hside with hlt | ⟨-, hodd⟩
    · linarith
    · omega

theorem one_sub_le (hne : j ≠ roundEven q) : 1 - |roundEven q - q| ≤ |j - q| := by
  have hone : (1 : ℚ) ≤ |(j : ℚ) - roundEven q| := by
    have hpos : 1 ≤ |j - roundEven q| := Int.one_le_abs (sub_ne_zero.mpr hne)
    exact_mod_cast hpos
  have htriangle := abs_sub_le (j : ℚ) q (roundEven q)
  rw [abs_sub_comm q] at htriangle
  linarith

theorem abs_roundEven_sub_le (hq : 0 ≤ q) (j : ℤ) : |roundEven q - q| ≤ |j - q| := by
  rcases eq_or_ne j (roundEven q) with rfl | hne
  · simp
  · have hhalf := abs_roundEven_sub_le_half hq
    have hj := one_sub_le hne
    linarith

theorem roundEven_even_of_tie (hq : 0 ≤ q) (hne : j ≠ roundEven q)
    (h : |j - q| = |roundEven q - q|) : roundEven q % 2 = 0 := by
  have hhalf := abs_roundEven_sub_le_half hq
  have hj := one_sub_le hne
  exact roundEven_even hq (by linarith)

theorem roundEven_le {n : ℕ} (hq : 0 ≤ q) (h : q < n) : roundEven q ≤ n := by
  obtain ⟨w, hw, -, ⟨heq, -⟩ | ⟨heq, -⟩⟩ := roundEven_cases hq
  all_goals
    have hlt : w < n := by exact_mod_cast hw.trans_lt h
    omega

theorem le_roundEven {n : ℕ} (h : n ≤ q) : n ≤ roundEven q := by
  obtain ⟨w, -, hw, ⟨heq, -⟩ | ⟨heq, -⟩⟩ := roundEven_cases ((Nat.cast_nonneg n).trans h)
  all_goals
    have hlt : n < w + 1 := by exact_mod_cast h.trans_lt hw
    omega

end Whole

section Log

variable {q : ℚ}

theorem log2_spec (hq : 0 < q) : (2 : ℚ) ^ log2 q ≤ q ∧ q < 2 ^ (log2 q + 1) := by
  have hden : (0 : ℚ) < q.den := by exact_mod_cast q.den_pos
  have hnum : 0 < q.num.toNat := by
    have hpos := Rat.num_pos.mpr hq
    omega
  have hmul := mul_den_eq hq.le
  have hlow : (2 : ℚ) ^ (q.num.toNat.log2 : ℤ) ≤ q * q.den := by
    rw [hmul, zpow_natCast]
    exact_mod_cast Nat.log2_self_le hnum.ne'
  have hhigh : q * q.den < (2 : ℚ) ^ (q.num.toNat.log2 + 1 : ℤ) := by
    rw [hmul]
    exact_mod_cast Nat.lt_log2_self
  have hlow' : (2 : ℚ) ^ (q.den.log2 : ℤ) ≤ q.den := by
    rw [zpow_natCast]
    exact_mod_cast Nat.log2_self_le q.den_nz
  have hhigh' : (q.den : ℚ) < (2 : ℚ) ^ (q.den.log2 + 1 : ℤ) := by
    exact_mod_cast Nat.lt_log2_self
  have hlower : (2 : ℚ) ^ ((q.num.toNat.log2 : ℤ) - q.den.log2 - 1) ≤ q := by
    have hexponent : (q.num.toNat.log2 : ℤ) - q.den.log2 - 1 + (q.den.log2 + 1) = q.num.toNat.log2 := by
      ring
    apply le_of_mul_le_mul_right _ (zpow_pos two_pos (q.den.log2 + 1 : ℤ))
    rw [← zpow_add₀ two_ne_zero, hexponent]
    exact hlow.trans (mul_le_mul_of_nonneg_left hhigh'.le hq.le)
  have hupper : q < (2 : ℚ) ^ ((q.num.toNat.log2 : ℤ) - q.den.log2 + 1) := by
    have hexponent : (q.num.toNat.log2 : ℤ) - q.den.log2 + 1 + q.den.log2 = q.num.toNat.log2 + 1 := by
      ring
    apply lt_of_mul_lt_mul_right _ (zpow_pos two_pos (q.den.log2 : ℤ)).le
    rw [← zpow_add₀ two_ne_zero, hexponent]
    exact (mul_le_mul_of_nonneg_left hlow' hq.le).trans_lt hhigh
  rw [log2]
  split
  · next h => exact ⟨h, hupper⟩
  · next h => exact ⟨hlower, by rw [sub_add_cancel]; exact not_le.mp h⟩

end Log

section Value

/-- The spacing of the doubles in the binade with number `k`, the two lowest of them taken as one. -/
def spacing (k : ℕ) : ℚ := 2 ^ (minExponent + k)

theorem spacing_pos (k : ℕ) : 0 < spacing k := zpow_pos (by decide) _

theorem spacing_le {k l : ℕ} (h : k ≤ l) : spacing k ≤ spacing l :=
  zpow_le_zpow_right₀ one_le_two (by omega)

theorem spacing_add (k n : ℕ) : spacing (k + n) = 2 ^ n * spacing k := by
  rw [spacing, spacing, Nat.cast_add, ← add_assoc, zpow_add₀ two_ne_zero, zpow_natCast, mul_comm]

theorem value_of_lt {place : ℕ} (h : place < binade) : value place = place * spacing 0 := by
  rw [value, if_pos h, Rat.mkRat_one]
  rfl

theorem value_of_le {k rest : ℕ} (h : rest < binade) :
    value ((k + 1) * binade + rest) = (binade + rest : ℕ) * spacing k := by
  have hle : ¬ (k + 1) * binade + rest < binade := by
    rw [Nat.succ_mul]
    omega
  have hdiv : ((k + 1) * binade + rest) / binade = k + 1 := by
    rw [Nat.add_comm, Nat.add_mul_div_right _ _ (by decide), Nat.div_eq_of_lt h, Nat.zero_add]
  have hmod : ((k + 1) * binade + rest) % binade = rest := by
    rw [Nat.add_comm, Nat.add_mul_mod_self_right, Nat.mod_eq_of_lt h]
  have hexponent : minExponent + ((k + 1 : ℕ) : ℤ) - 1 = minExponent + k := by omega
  rw [value, if_neg hle, hdiv, hmod, hexponent, Rat.mkRat_one]
  rfl

theorem value_block {k steps : ℕ} (hk : k = 0 ∨ binade ≤ steps) (hs : steps ≤ 2 * binade) :
    value (k * binade + steps) = steps * spacing k := by
  rcases Nat.lt_or_ge steps binade with hlt | hge
  · obtain rfl : k = 0 := by omega
    rw [Nat.zero_mul, Nat.zero_add, value_of_lt hlt]
  · obtain ⟨rest, rfl⟩ := Nat.exists_eq_add_of_le hge
    have hplace : k * binade + (binade + rest) = (k + 1) * binade + rest := by ring
    rw [hplace]
    rcases Nat.lt_or_ge rest binade with hlt | hge
    · exact value_of_le hlt
    · -- The next binade begins here, with twice the spacing.
      obtain rfl : rest = binade := by omega
      have hnext : (k + 1) * binade + binade = (k + 1 + 1) * binade + 0 := by ring
      rw [hnext, value_of_le (by decide), spacing_add]
      push_cast
      ring

theorem exists_block (place : ℕ) : ∃ k steps, place = k * binade + steps ∧
    (k = 0 ∨ binade ≤ steps) ∧ steps < 2 * binade := by
  have hpos : 0 < binade := by decide
  have hlt := Nat.mod_lt place hpos
  have hsum := Nat.div_add_mod' place binade
  cases hk : place / binade with
  | zero =>
    rw [hk, Nat.zero_mul, Nat.zero_add] at hsum
    exact ⟨0, place, by omega, .inl rfl, by omega⟩
  | succ k =>
    rw [hk, Nat.succ_mul] at hsum
    exact ⟨k, binade + place % binade, by omega, .inr (by omega), by omega⟩

theorem value_strictMono : StrictMono value := by
  apply strictMono_nat_of_lt_succ
  intro place
  obtain ⟨k, steps, rfl, hk, hs⟩ := exists_block place
  have hk' : k = 0 ∨ binade ≤ steps + 1 := by omega
  rw [Nat.add_assoc, value_block hk hs.le, value_block hk' hs]
  have hpos := spacing_pos k
  push_cast
  linarith

theorem value_multiple_or_lt (k place : ℕ) :
    (∃ j : ℤ, value place = j * spacing k) ∨ k ≠ 0 ∧ value place < binade * spacing k := by
  obtain ⟨l, steps, rfl, hl, hs⟩ := exists_block place
  rw [value_block hl hs.le]
  rcases Nat.lt_or_ge l k with hlt | hge
  · refine .inr ⟨by omega, ?_⟩
    obtain ⟨n, rfl⟩ := Nat.exists_eq_add_of_lt hlt
    have hsteps : (steps : ℚ) < 2 * binade := by exact_mod_cast hs
    have hone : (1 : ℚ) ≤ 2 ^ n := one_le_pow₀ one_le_two
    have hpos := spacing_pos l
    rw [Nat.add_assoc, spacing_add, pow_succ]
    calc (steps : ℚ) * spacing l < 2 * binade * spacing l := by gcongr
      _ ≤ 2 ^ n * (2 * binade * spacing l) := le_mul_of_one_le_left (by positivity) hone
      _ = binade * (2 ^ n * 2 * spacing l) := by ring
  · obtain ⟨n, rfl⟩ := Nat.exists_eq_add_of_le hge
    refine .inl ⟨steps * 2 ^ n, ?_⟩
    rw [spacing_add]
    push_cast
    ring

end Value

section Nearest

variable {q : ℚ} {k place : ℕ}

structure OnScale (q : ℚ) (k : ℕ) : Prop where
  low : k = 0 ∨ binade * spacing k ≤ q
  high : q < 2 * binade * spacing k

theorem OnScale.steps_le (h : OnScale q k) (hq : 0 ≤ q) :
    roundEven (q / spacing k) ≤ 2 * binade := by
  apply roundEven_le (div_nonneg hq (spacing_pos k).le)
  rw [div_lt_iff₀ (spacing_pos k)]
  exact_mod_cast h.high

theorem OnScale.le_steps (h : OnScale q k) : k = 0 ∨ binade ≤ roundEven (q / spacing k) :=
  h.low.imp_right fun h => le_roundEven ((le_div_iff₀ (spacing_pos k)).mpr h)

/-- The double at `place` is as near as another one or nearer; only an even place is just as near. -/
structure Nearer (q : ℚ) (place other : ℕ) : Prop where
  le : |value place - q| ≤ |value other - q|
  even : other ≠ place → |value other - q| = |value place - q| → place % 2 = 0

theorem nearest_block (hq : 0 ≤ q) (h : OnScale q k) (other : ℕ) :
    Nearer q (k * binade + roundEven (q / spacing k)) other := by
  have hpos := spacing_pos k
  have hnonneg : 0 ≤ q / spacing k := div_nonneg hq hpos.le
  have hvalue := value_block h.le_steps (h.steps_le hq)
  -- Distances are measured in units of the spacing.
  have hscale (y : ℚ) : |y * spacing k - q| = |y - q / spacing k| * spacing k := by
    rw [← abs_of_pos hpos, ← abs_mul, abs_of_pos hpos, sub_mul, div_mul_cancel₀ q hpos.ne']
  rcases value_multiple_or_lt k other with ⟨j, hj⟩ | ⟨hk, hlt⟩
  · constructor
    · rw [hvalue, hj, hscale, hscale]
      exact mul_le_mul_of_nonneg_right (abs_roundEven_sub_le hnonneg j) hpos.le
    · intro hne heq
      have hj' : j ≠ roundEven (q / spacing k) := by
        rintro rfl
        apply hne
        apply value_strictMono.injective
        rw [hj, hvalue]
        rfl
      rw [hvalue, hj, hscale, hscale] at heq
      have heven := roundEven_even_of_tie hnonneg hj' (mul_right_cancel₀ hpos.ne' heq)
      have hbinade : binade % 2 = 0 := by decide
      rw [Nat.add_mod, Nat.mul_mod, hbinade, heven]
      rfl
  · have hq := h.low.resolve_left hk
    have hnear := mul_le_mul_of_nonneg_right (abs_roundEven_sub_le hnonneg binade) hpos.le
    rw [← hscale, ← hscale, ← hvalue] at hnear
    have hless : |value (k * binade + roundEven (q / spacing k)) - q| < |value other - q| := by
      rw [abs_of_nonpos (sub_nonpos.mpr (hlt.le.trans hq))]
      refine hnear.trans_lt ?_
      rw [Int.cast_natCast, abs_of_nonpos (sub_nonpos.mpr hq)]
      linarith
    exact ⟨hless.le, fun _ heq => absurd heq hless.ne'⟩

theorem cast_binade : (binade : ℚ) = 2 ^ (52 : ℤ) := by norm_num [binade]

theorem exists_onScale (hq : 0 < q) : ∃ k, OnScale q k ∧
    nearest q = min (k * binade + roundEven (q / spacing k)) infinity := by
  obtain ⟨hlow, hhigh⟩ := log2_spec hq
  generalize hexponent : max (log2 q - 52) minExponent = exponent
  have hk : minExponent + ((exponent - minExponent).toNat : ℤ) = exponent := by omega
  have hspacing : spacing (exponent - minExponent).toNat = 2 ^ exponent := by rw [spacing, hk]
  refine ⟨(exponent - minExponent).toNat, ⟨?_, ?_⟩, ?_⟩
  · rcases le_or_gt (log2 q - 52) minExponent with hmin | hmin
    · exact .inl (by omega)
    · right
      have hsum : 52 + exponent = log2 q := by omega
      rwa [hspacing, cast_binade, ← zpow_add₀ two_ne_zero, hsum]
  · have hsum : log2 q + 1 ≤ 1 + (52 + exponent) := by omega
    rw [hspacing, cast_binade, mul_assoc, ← zpow_add₀ two_ne_zero, ← zpow_one_add₀ two_ne_zero]
    exact hhigh.trans_le (zpow_le_zpow_right₀ one_le_two hsum)
  · have hnum : q.num ≠ 0 := (Rat.num_pos.mpr hq).ne'
    rw [nearest, if_neg hnum, hspacing, div_eq_mul_inv, ← zpow_neg]
    simp only [hexponent]
    rfl

theorem value_infinity : value infinity = binade * spacing 2046 := by
  have hblock : infinity = 2046 * binade + binade := by decide
  rw [hblock, value_block (.inr (Nat.le_refl _)) (by decide)]

theorem nearest_nearer (hq : 0 ≤ q) {other : ℕ} (ho : other ≤ infinity) :
    Nearer q (nearest q) other := by
  rcases hq.eq_or_lt with rfl | hpos
  · have hzero : value 0 = 0 := (value_of_lt (by decide)).trans (by simp)
    have hnearest : nearest 0 = 0 := rfl
    rw [hnearest]
    exact ⟨by simp [hzero], fun _ _ => rfl⟩
  · obtain ⟨k, hscale, hk⟩ := exists_onScale hpos
    have hblock := nearest_block hq hscale other
    rcases le_or_gt (k * binade + roundEven (q / spacing k)) infinity with hle | hgt
    · rwa [hk, min_eq_left hle]
    · rw [hk, min_eq_right hgt.le]
      have hsteps := hscale.steps_le hq
      have hcount : 2046 ≤ k := by
        simp only [binade, infinity] at hgt hsteps
        omega
      -- The number is not below infinity, and so infinity is nearer than any double below it.
      have hinfinity : value infinity ≤ q := by
        rw [value_infinity]
        have hspacing := spacing_le hcount
        calc binade * spacing 2046 ≤ binade * spacing k := by gcongr
          _ ≤ q := hscale.low.resolve_left (by omega)
      have hother : value other ≤ value infinity := value_strictMono.monotone ho
      constructor
      · rw [abs_of_nonpos (sub_nonpos.mpr hinfinity), abs_of_nonpos (by linarith)]
        linarith
      · intro hne heq
        rw [abs_of_nonpos (sub_nonpos.mpr hinfinity), abs_of_nonpos (by linarith)] at heq
        exact absurd (value_strictMono.injective (by linarith)) hne

theorem nearest_eq_zero (hq : 0 ≤ q) (h : q < 2 ^ (-1075 : ℤ)) : nearest q = 0 := by
  by_contra hne
  have hnearer := (nearest_nearer hq (Nat.zero_le infinity)).le
  have hfirst : value 1 ≤ value (nearest q) := value_strictMono.monotone (Nat.pos_of_ne_zero hne)
  have hzero : value 0 = 0 := (value_of_lt (by decide)).trans (by simp)
  have hone : value 1 = 2 * 2 ^ (-1075 : ℤ) := by
    rw [value_of_lt (by decide), Nat.cast_one, one_mul, ← zpow_one_add₀ two_ne_zero]
    rfl
  rw [hzero, abs_of_nonneg (by linarith), zero_sub, abs_neg, abs_of_nonneg hq] at hnearer
  linarith

theorem nearest_eq_infinity (h : 2 ^ (1024 : ℤ) ≤ q) : nearest q = infinity := by
  have hq : 0 ≤ q := (zpow_nonneg zero_le_two 1024).trans h
  have hnearer := (nearest_nearer hq (Nat.le_refl infinity)).le
  have hvalue : value infinity = 2 ^ (1024 : ℤ) := by
    rw [value_infinity, cast_binade, spacing, ← zpow_add₀ two_ne_zero]
    rfl
  have hle : value (nearest q) ≤ value infinity := value_strictMono.monotone (nearest_le_infinity q)
  rw [abs_of_nonpos (by linarith), abs_of_nonpos (by linarith)] at hnearer
  exact value_strictMono.injective (by linarith)

end Nearest

end Binary64

namespace Decimal

variable {digits : List Char} {c : Char}

theorem toNat_bounds_of_isDigit (h : c.isDigit) : 48 ≤ c.toNat ∧ c.toNat ≤ 57 := by
  simpa [Char.isDigit, UInt32.le_iff_toNat_le] using h

theorem foldl_digits_bounds (hd : ∀ c ∈ digits, c.isDigit) (n : ℕ) :
    n * 10 ^ digits.length ≤ digits.foldl (fun n c => 10 * n + (c.toNat - '0'.toNat)) n ∧
      digits.foldl (fun n c => 10 * n + (c.toNat - '0'.toNat)) n < (n + 1) * 10 ^ digits.length := by
  induction digits generalizing n with
  | nil => simp
  | cons c digits ih =>
    obtain ⟨hc, hd⟩ := List.forall_mem_cons.mp hd
    obtain ⟨hlow, hhigh⟩ := ih hd (10 * n + (c.toNat - '0'.toNat))
    have hnine : c.toNat - '0'.toNat ≤ 9 := Nat.sub_le_sub_right (toNat_bounds_of_isDigit hc).2 48
    rw [List.foldl_cons, List.length_cons, pow_succ']
    constructor
    · calc n * (10 * 10 ^ digits.length) = 10 * n * 10 ^ digits.length := by ring
        _ ≤ (10 * n + (c.toNat - '0'.toNat)) * 10 ^ digits.length :=
          Nat.mul_le_mul_right _ (Nat.le_add_right _ _)
        _ ≤ _ := hlow
    · calc _ < (10 * n + (c.toNat - '0'.toNat) + 1) * 10 ^ digits.length := hhigh
        _ ≤ 10 * (n + 1) * 10 ^ digits.length := Nat.mul_le_mul_right _ (by omega)
        _ = (n + 1) * (10 * 10 ^ digits.length) := by ring

theorem ofDigits_bounds (hc : c ≠ '0') (hd : ∀ d ∈ c :: digits, d.isDigit) :
    10 ^ digits.length ≤ ofDigits (c :: digits) ∧ ofDigits (c :: digits) < 10 ^ (digits.length + 1) := by
  obtain ⟨hdigit, hdigits⟩ := List.forall_mem_cons.mp hd
  obtain ⟨h48, h57⟩ := toNat_bounds_of_isDigit hdigit
  have hne : c.toNat ≠ 48 := fun h => hc (Char.toNat_inj.mp h)
  have hzero : '0'.toNat = 48 := rfl
  obtain ⟨hlow, hhigh⟩ := foldl_digits_bounds hdigits (10 * 0 + (c.toNat - '0'.toNat))
  constructor
  · calc 10 ^ digits.length = 1 * 10 ^ digits.length := (Nat.one_mul _).symm
      _ ≤ (10 * 0 + (c.toNat - '0'.toNat)) * 10 ^ digits.length := Nat.mul_le_mul_right _ (by omega)
      _ ≤ _ := hlow
  · calc _ < (10 * 0 + (c.toNat - '0'.toNat) + 1) * 10 ^ digits.length := hhigh
      _ ≤ 10 * 10 ^ digits.length := Nat.mul_le_mul_right _ (by omega)
      _ = 10 ^ (digits.length + 1) := by ring

theorem ofDigits_dropWhile (digits : List Char) :
    ofDigits (digits.dropWhile (· == '0')) = ofDigits digits := by
  induction digits with
  | nil => rfl
  | cons c digits ih =>
    by_cases hc : c = '0'
    · subst hc
      rw [List.dropWhile_cons_of_pos (by rfl), ih]
      rfl
    · rw [List.dropWhile_cons_of_neg (by simpa using hc)]

theorem value_eq (coefficient : ℕ) (exponent : ℤ) :
    value ⟨coefficient, exponent⟩ = coefficient * 10 ^ exponent := by
  rw [value, Rat.mkRat_one]
  rfl

theorem ten_zpow_lt : (10 : ℚ) ^ (-324 : ℤ) < 2 ^ (-1075 : ℤ) := by
  have h : 2 ^ 1075 < 10 ^ 324 := by decide +kernel
  rw [zpow_neg, zpow_neg, inv_lt_inv₀ (zpow_pos (by norm_num) _) (zpow_pos two_pos _)]
  exact_mod_cast h

theorem le_ten_zpow : (2 : ℚ) ^ (1024 : ℤ) ≤ 10 ^ (309 : ℤ) := by
  have h : 2 ^ 1024 ≤ 10 ^ 309 := by decide +kernel
  exact_mod_cast h

/-- Very small and very great numbers are told by their digits alone, with the same result. -/
theorem placeOf_eq_nearest (hd : ∀ c ∈ digits, c.isDigit) (exponent : ℤ) :
    placeOf digits exponent = Binary64.nearest (value ⟨ofDigits digits, exponent⟩) := by
  have hten : (0 : ℚ) < 10 ^ exponent := zpow_pos (by norm_num) _
  have hone : (1 : ℚ) ≤ 10 := by norm_num
  have hne : (10 : ℚ) ≠ 0 := by norm_num
  rw [placeOf, ← ofDigits_dropWhile digits]
  have hmem (c : Char) (hc : c ∈ digits.dropWhile (· == '0')) : c.isDigit :=
    hd c ((List.dropWhile_sublist _).subset hc)
  have hhead := List.head?_dropWhile_not (· == '0') digits
  generalize digits.dropWhile (· == '0') = digits at hmem hhead
  cases digits with
  | nil =>
    rw [if_pos (.inl rfl), value_eq]
    exact (congrArg Binary64.nearest (zero_mul _)).symm
  | cons c rest =>
    have hc : c ≠ '0' := by simpa using hhead
    obtain ⟨hlow, hhigh⟩ := ofDigits_bounds hc hmem
    generalize ofDigits (c :: rest) = coefficient at hlow hhigh
    have hlow' : (10 : ℚ) ^ (rest.length : ℤ) ≤ coefficient := by exact_mod_cast hlow
    have hhigh' : (coefficient : ℚ) < 10 ^ (rest.length + 1 : ℤ) := by exact_mod_cast hhigh
    rw [value_eq]
    split
    · next h =>
      have htop : exponent + (rest.length + 1 : ℤ) ≤ -324 := by
        have htop := h.resolve_left (by simp)
        rw [List.length_cons] at htop
        omega
      refine (Binary64.nearest_eq_zero (by positivity) ?_).symm
      calc (coefficient : ℚ) * 10 ^ exponent < 10 ^ (rest.length + 1 : ℤ) * 10 ^ exponent := by gcongr
        _ = 10 ^ (exponent + (rest.length + 1)) := by rw [mul_comm, ← zpow_add₀ hne]
        _ ≤ 10 ^ (-324 : ℤ) := zpow_le_zpow_right₀ hone htop
        _ < 2 ^ (-1075 : ℤ) := ten_zpow_lt
    · split
      · next h =>
        have htop : 309 ≤ exponent + rest.length := by
          rw [List.length_cons] at h
          omega
        refine (Binary64.nearest_eq_infinity ?_).symm
        calc (2 : ℚ) ^ (1024 : ℤ) ≤ 10 ^ (309 : ℤ) := le_ten_zpow
          _ ≤ 10 ^ (exponent + rest.length) := zpow_le_zpow_right₀ hone htop
          _ = 10 ^ (rest.length : ℤ) * 10 ^ exponent := by rw [mul_comm, ← zpow_add₀ hne]
          _ ≤ coefficient * 10 ^ exponent := by gcongr
      · rfl

theorem read_eq_nearest {text : String} (hne : text.toList ≠ [])
    (hd : ∀ c ∈ text.toList, c.isDigit) :
    read text = .ok (Binary64.toFloat false (Binary64.nearest (ofDigits text.toList))) := by
  rw [read_of_digits hne hd, placeOf_eq_nearest hd, value_eq, zpow_zero, mul_one]

-- `2 ^ 53 + 1` lies in the middle between two doubles.
example : read "9007199254740993" = .ok (Float.ofBits 0x4340000000000000) := by decide +kernel

end Decimal

end Formula
