import FastKit.Text.Decimals
import Mathlib.Algebra.Order.Field.Rat
import Mathlib.Tactic.FieldSimp
import Mathlib.Tactic.Linarith
import Mathlib.Tactic.Ring

/-! # Decimal arithmetic

Decimal numbers as the language computes with them: a whole coefficient at a power of ten, kept to a
precision that every result is rounded to, where taking a number to a power of ten that would need
more digits is refused. A zero is told apart by its exponent and not by its sign.
-/

namespace FastKit.Decimals

open Text (decimal)

structure Decimal where
  coefficient : ℤ
  exponent : ℤ
  deriving DecidableEq, Repr

namespace Decimal

def value (d : Decimal) : ℚ := d.coefficient * (10 : ℚ) ^ d.exponent

def ofInt (n : ℤ) : Decimal := ⟨n, 0⟩

end Decimal

/-- The most digits a result is kept with. -/
def precision : ℕ := 28

def emax : ℤ := 999999

/-- The least exponent of the least number. -/
def etiny : ℤ := -1000026

def withSign (c : ℤ) (n : ℕ) : ℤ := if c < 0 then -n else n

/-- A whole number over a positive one, rounded to the nearest, and from halfway up or down as the
quotient says. -/
def rounded (halfUp : ℕ → Bool) (c : ℤ) (p : ℕ) : ℤ :=
  withSign c (c.natAbs / p +
    if p < 2 * (c.natAbs % p) ∨ (2 * (c.natAbs % p) = p ∧ halfUp (c.natAbs / p)) then 1 else 0)

/-- From halfway away from zero. -/
def roundHalfUp : ℤ → ℕ → ℤ := rounded fun _ => true

/-- From halfway to the even one. -/
def roundHalfEven : ℤ → ℕ → ℤ := rounded fun q => q % 2 == 1

/-- A result at the precision that is kept. -/
def fix (d : Decimal) : Decimal :=
  let k := (decimal d.coefficient.natAbs).length - precision
  if k = 0 then d
  else
    let c := roundHalfEven d.coefficient (10 ^ k)
    -- A carry makes one digit more, which is a zero.
    if c.natAbs = 10 ^ precision then ⟨withSign c (10 ^ (precision - 1)), d.exponent + k + 1⟩
    else ⟨c, d.exponent + k⟩

def mul (a b : Decimal) : Decimal := fix ⟨a.coefficient * b.coefficient, a.exponent + b.exponent⟩

/-- A coefficient without as many zeros behind it as `fuel` says, and how many it lost. -/
def trimmed : ℕ → ℕ → ℕ × ℕ
  | 0, c => (c, 0)
  | fuel + 1, c =>
    if c % 10 = 0 then ((trimmed fuel (c / 10)).1, (trimmed fuel (c / 10)).2 + 1) else (c, 0)

/-- A quotient by a number that is not zero, to one digit more than is kept where it is not exact and at the exponent closest to
that of the whole division where it is. -/
def div (a b : Decimal) : Decimal :=
  let n := a.coefficient.natAbs
  let m := b.coefficient.natAbs
  let sign := a.coefficient * b.coefficient
  if n = 0 then ⟨0, a.exponent - b.exponent⟩
  else
    let shift : ℤ := (decimal m).length - (decimal n).length + precision + 1
    let top := n * 10 ^ shift.toNat
    let bottom := m * 10 ^ (-shift).toNat
    let quotient := top / bottom
    let exponent := a.exponent - b.exponent - shift
    if top % bottom = 0 then
      fix ⟨withSign sign (trimmed shift.toNat quotient).1, exponent + (trimmed shift.toNat quotient).2⟩
    else
      fix ⟨withSign sign (if quotient % 5 = 0 then quotient + 1 else quotient), exponent⟩

/-- A number at another exponent, from halfway away from zero. -/
def rescale (d : Decimal) (exponent : ℤ) : Decimal :=
  if exponent ≤ d.exponent then ⟨d.coefficient * 10 ^ (d.exponent - exponent).toNat, exponent⟩
  else ⟨roundHalfUp d.coefficient (10 ^ (exponent - d.exponent).toNat), exponent⟩

/-- `d.quantize(…)` at an exponent, where the precision holds what comes out. -/
def quantize (d : Decimal) (exponent : ℤ) : Option Decimal :=
  let result := rescale d exponent
  if (etiny ≤ exponent ∧ exponent ≤ emax) ∧ result.coefficient.natAbs < 10 ^ precision ∧
      exponent + (decimal result.coefficient.natAbs).length - 1 ≤ emax then
    some result
  else none

/-- The exponent of one moved by so many places, where the arithmetic has one. -/
def scaleb (places : ℤ) : Option ℤ :=
  if |places| ≤ 2 * (emax + precision) ∧ places ≤ emax then some (max places etiny) else none

/-! ## Rounding -/

/-- The whole number closest to a number, and of two as close the one away from zero. -/
def RoundsAway (q : ℚ) (n : ℤ) : Prop := |q - n| ≤ 1 / 2 ∧ (|q - n| = 1 / 2 → |q| ≤ |(n : ℚ)|)

/-- Rounding away from zero keeps the order. -/
theorem RoundsAway.mono {q r : ℚ} {m n : ℤ} (hm : RoundsAway q m) (hn : RoundsAway r n)
    (h : q ≤ r) : m ≤ n := by
  by_contra! hlt
  have hstep : (n : ℚ) + 1 ≤ m := by exact_mod_cast hlt
  have hqm := abs_le.mp hm.1
  have hrn := abs_le.mp hn.1
  -- Both lie halfway, and away from zero is the same way for both.
  have hq : q = m - 1 / 2 := by linarith
  have hr : r = n + 1 / 2 := by linarith
  have hmn : (m : ℚ) = n + 1 := by linarith
  have hmn' : m = n + 1 := by exact_mod_cast hmn
  have hqa := hm.2 (by rw [hq, abs_of_nonpos] <;> linarith)
  have hra := hn.2 (by rw [hr, abs_of_nonneg] <;> linarith)
  obtain h0 | h0 : 0 ≤ n ∨ m ≤ 0 := by omega
  · have h0' : (0 : ℚ) ≤ n := by exact_mod_cast h0
    rw [hr, abs_of_nonneg (by linarith), abs_of_nonneg h0'] at hra
    linarith
  · have h0' : (m : ℚ) ≤ 0 := by exact_mod_cast h0
    rw [hq, abs_of_nonpos (by linarith), abs_of_nonpos h0'] at hqa
    linarith

theorem natAbs_withSign (c : ℤ) (n : ℕ) : (withSign c n).natAbs = n := by
  unfold withSign
  split_ifs <;> simp

theorem withSign_natAbs (c : ℤ) : withSign c c.natAbs = c := by
  unfold withSign
  split_ifs <;> omega

theorem withSign_mul (c : ℤ) (n p : ℕ) : withSign c (n * p) = withSign c n * p := by
  unfold withSign
  split_ifs <;> push_cast <;> ring

/-- A multiple is rounded to what it is one of. -/
theorem rounded_of_dvd {halfUp : ℕ → Bool} {c : ℤ} {p : ℕ} (hp : 0 < p) (h : p ∣ c.natAbs) :
    rounded halfUp c p = withSign c (c.natAbs / p) := by
  rw [rounded, Nat.mod_eq_zero_of_dvd h, if_neg (by omega), Nat.add_zero]

theorem RoundsAway.unique {q : ℚ} {m n : ℤ} (hm : RoundsAway q m) (hn : RoundsAway q n) : m = n :=
  le_antisymm (hm.mono hn le_rfl) (hn.mono hm le_rfl)

theorem roundsAway_intCast (n : ℤ) : RoundsAway (n : ℚ) n := ⟨by simp, fun _ => le_rfl⟩

theorem RoundsAway.natAbs_le {q : ℚ} {m : ℕ} {n : ℤ} (h : RoundsAway q n) (hq : |q| ≤ m) :
    n.natAbs ≤ m := by
  obtain ⟨hl, hu⟩ := abs_le.mp hq
  have hl' := (roundsAway_intCast (-m)).mono h (by push_cast; exact hl)
  have hu' := h.mono (roundsAway_intCast m) (by push_cast; exact hu)
  omega

theorem RoundsAway.neg {q : ℚ} {n : ℤ} (h : RoundsAway q n) : RoundsAway (-q) (-n) := by
  have hd : -q - ((-n : ℤ) : ℚ) = -(q - n) := by push_cast; ring
  rw [RoundsAway, hd, abs_neg, abs_neg, Int.cast_neg, abs_neg]
  exact h

/-- Half of the divisor or more is what makes one more of the quotient. -/
theorem roundsAway_quotient (n : ℕ) {p : ℕ} (hp : 0 < p) :
    RoundsAway (n / p) ((n / p + if p ≤ 2 * (n % p) then 1 else 0 : ℕ) : ℤ) := by
  generalize hN : (n / p + if p ≤ 2 * (n % p) then 1 else 0) = N
  have hmod := Nat.div_add_mod n p
  have hlt := Nat.mod_lt n hp
  have hN' : N * p = p * (n / p) + if p ≤ 2 * (n % p) then p else 0 := by
    rw [← hN, Nat.add_mul, Nat.mul_comm]
    split_ifs <;> simp
  have hu : 2 * n < 2 * (N * p) + p := by split_ifs at hN' <;> omega
  have hl : 2 * (N * p) ≤ 2 * n + p := by split_ifs at hN' <;> omega
  have hp' : (0 : ℚ) < p := by exact_mod_cast hp
  have hn' : (n : ℚ) / p * p = n := div_mul_cancel₀ _ hp'.ne'
  have hu' : (n : ℚ) / p - N < 1 / 2 := by
    have : (2 : ℚ) * n < 2 * (N * p) + p := by exact_mod_cast hu
    nlinarith
  have hl' : -(1 / 2) ≤ (n : ℚ) / p - N := by
    have : (2 : ℚ) * (N * p) ≤ 2 * n + p := by exact_mod_cast hl
    by_contra!
    nlinarith
  rw [RoundsAway, Int.cast_natCast]
  refine ⟨abs_le.mpr ⟨hl', hu'.le⟩, fun htie => ?_⟩
  obtain h | h := (abs_eq (by norm_num)).mp htie
  · exact absurd h hu'.ne
  · have hq : (0 : ℚ) ≤ n / p := div_nonneg (Nat.cast_nonneg _) hp'.le
    have hN : (0 : ℚ) ≤ N := Nat.cast_nonneg _
    rw [abs_of_nonneg hq, abs_of_nonneg hN]
    linarith

theorem roundsAway_roundHalfUp (c : ℤ) {p : ℕ} (hp : 0 < p) :
    RoundsAway (c / p) (roundHalfUp c p) := by
  have h := roundsAway_quotient c.natAbs hp
  have hq : (if p < 2 * (c.natAbs % p) ∨ (2 * (c.natAbs % p) = p ∧ true) then 1 else 0) =
      if p ≤ 2 * (c.natAbs % p) then 1 else 0 := by
    congr 1
    rw [eq_iff_iff]
    simp only [and_true]
    omega
  rw [roundHalfUp, rounded, hq, withSign]
  by_cases hc : c < 0
  · have hcn : (c : ℚ) = -(c.natAbs : ℚ) := by
      rw [← Int.cast_natCast, ← Int.cast_neg]
      congr 1
      omega
    rw [if_pos hc, hcn, neg_div]
    exact h.neg
  · have hcn : (c : ℚ) = c.natAbs := by
      rw [← Int.cast_natCast]
      congr 1
      omega
    rw [if_neg hc, hcn]
    exact h

/-! ## Results that are kept -/

open Decimal (value)

variable {a b d : Decimal} {m e : ℤ}

theorem value_eq_iff {c m e x : ℤ} (hxe : x ≤ e) :
    (c : ℚ) * (10 : ℚ) ^ x = m * (10 : ℚ) ^ e ↔ c = m * 10 ^ (e - x).toNat := by
  have h10 : (10 : ℚ) ^ x ≠ 0 := zpow_ne_zero _ (by norm_num)
  have he : (10 : ℚ) ^ e = 10 ^ (e - x).toNat * (10 : ℚ) ^ x := by
    rw [← zpow_natCast, ← zpow_add₀ (by norm_num), Int.toNat_of_nonneg (by omega)]
    congr 1
    omega
  rw [he, ← mul_assoc, mul_left_inj' h10]
  exact_mod_cast Iff.rfl

/-- A number the precision can write is kept as it is, whatever it is written as. -/
theorem value_fix (hm : m.natAbs < 10 ^ precision) (hd : d.value = m * (10 : ℚ) ^ e) :
    (fix d).value = d.value := by
  obtain ⟨c, x⟩ := d
  unfold fix
  generalize hk : (decimal c.natAbs).length - precision = k
  by_cases hk0 : k = 0
  · rw [if_pos hk0]
  rw [if_neg hk0]
  -- The digits beyond the precision are zeros, as the number has another way to be written.
  have hlo : 10 ^ (k + 27) ≤ c.natAbs := by
    by_contra! h
    have := Text.length_decimal_le h (by omega)
    unfold precision at hk
    omega
  have hhi : c.natAbs < 10 ^ (k + 28) := by
    by_contra! h
    have := Text.lt_length_decimal h
    unfold precision at hk
    omega
  have hxe : x ≤ e := by
    by_contra! h
    have hm' : m.natAbs = c.natAbs * 10 ^ (x - e).toNat := by
      rw [(value_eq_iff h.le).mp hd.symm, Int.natAbs_mul, Int.natAbs_pow]
      rfl
    have hge : c.natAbs ≤ m.natAbs := by
      rw [hm']
      exact Nat.le_mul_of_pos_right _ (by positivity)
    have hpow : 10 ^ precision ≤ 10 ^ (k + 27) := Nat.pow_le_pow_right (by decide) (by
      unfold precision; omega)
    omega
  have hc : c.natAbs = m.natAbs * 10 ^ (e - x).toNat := by
    have h : c = m * 10 ^ (e - x).toNat := (value_eq_iff hxe).mp hd
    rw [h, Int.natAbs_mul, Int.natAbs_pow]
    rfl
  have hkj : k ≤ (e - x).toNat := by
    have hlt : 10 ^ (k + 27) < 10 ^ (precision + (e - x).toNat) := by
      rw [Nat.pow_add _ precision]
      exact lt_of_le_of_lt (hc ▸ hlo) (Nat.mul_lt_mul_of_pos_right hm (by positivity))
    have := (Nat.pow_lt_pow_iff_right (by decide)).mp hlt
    unfold precision at this
    omega
  have hdvd : 10 ^ k ∣ c.natAbs := hc ▸ Dvd.dvd.mul_left (pow_dvd_pow 10 hkj) _
  have hlt : c.natAbs / 10 ^ k < 10 ^ precision := by
    rw [Nat.div_lt_iff_lt_mul (by positivity), ← Nat.pow_add, Nat.add_comm]
    exact hhi
  rw [roundHalfEven, rounded_of_dvd (by positivity) hdvd]
  dsimp only
  rw [natAbs_withSign, if_neg hlt.ne]
  have hxk : x ≤ x + k := by omega
  refine ((value_eq_iff hxk).mpr ?_).symm
  rw [show (x + k - x).toNat = k by omega]
  calc c = withSign c c.natAbs := (withSign_natAbs c).symm
    _ = withSign c (c.natAbs / 10 ^ k * 10 ^ k) := by rw [Nat.div_mul_cancel hdvd]
    _ = withSign c (c.natAbs / 10 ^ k) * 10 ^ k := by rw [withSign_mul]; push_cast; rfl

theorem trimmed_spec (fuel c : ℕ) :
    (trimmed fuel c).1 * 10 ^ (trimmed fuel c).2 = c := by
  induction fuel generalizing c with
  | zero => simp [trimmed]
  | succ fuel ih =>
    rw [trimmed]
    split_ifs with h
    · rw [pow_succ, ← mul_assoc, ih]
      omega
    · simp

/-- A quotient the precision can write is exact, where the divisor divides a power of ten the
precision has room for. -/
theorem value_div (hb : 0 < b.coefficient) (hlen : (decimal a.coefficient.natAbs).length ≤ precision)
    (hdvd : b.coefficient.natAbs ∣ 10 ^ (decimal b.coefficient.natAbs).length)
    (hm : m.natAbs < 10 ^ precision) (h : a.value / b.value = m * (10 : ℚ) ^ e) :
    (div a b).value = a.value / b.value := by
  obtain ⟨c, x⟩ := a
  obtain ⟨g, y⟩ := b
  unfold div
  dsimp only at *
  by_cases hc : c.natAbs = 0
  · obtain rfl := Int.natAbs_eq_zero.mp hc
    simp [value]
  rw [if_neg hc]
  generalize hs : ((decimal g.natAbs).length - (decimal c.natAbs).length + precision + 1 : ℤ) = s
  obtain ⟨n, rfl⟩ : ∃ n : ℕ, s = n := Int.eq_ofNat_of_zero_le (by omega)
  have hn : (decimal g.natAbs).length ≤ n := by omega
  have htop : g.natAbs ∣ c.natAbs * 10 ^ n :=
    (hdvd.trans (pow_dvd_pow 10 hn)).mul_left _
  have hsign (k : ℕ) : withSign (c * g) k = withSign c k := by
    unfold withSign
    by_cases hneg : c < 0
    · rw [if_pos hneg, if_pos (mul_neg_of_neg_of_pos hneg hb)]
    · rw [if_neg hneg, if_neg (not_lt.mpr (mul_nonneg (not_lt.mp hneg) hb.le))]
  simp only [Int.toNat_natCast, Int.toNat_neg_natCast, pow_zero, mul_one,
    Nat.mod_eq_zero_of_dvd htop, if_true, hsign]
  generalize hq : c.natAbs * 10 ^ n / g.natAbs = q
  generalize ht : trimmed n q = t
  have htq : t.1 * 10 ^ t.2 = q := ht ▸ trimmed_spec n q
  have hcg : withSign c t.1 * 10 ^ t.2 * g = c * 10 ^ n := by
    have hg : (g.natAbs : ℤ) = g := by omega
    calc withSign c t.1 * 10 ^ t.2 * g
        = withSign c (t.1 * 10 ^ t.2 * g.natAbs) := by
          rw [withSign_mul, withSign_mul, hg]
          push_cast
          rfl
      _ = withSign c (c.natAbs * 10 ^ n) := by rw [htq, ← hq, Nat.div_mul_cancel htop]
      _ = c * 10 ^ n := by rw [withSign_mul, withSign_natAbs]; push_cast; rfl
  have hv : (⟨withSign c t.1, x - y - n + t.2⟩ : Decimal).value =
      (⟨c, x⟩ : Decimal).value / (⟨g, y⟩ : Decimal).value := by
    have h10 : (10 : ℚ) ≠ 0 := by norm_num
    have hg : (g : ℚ) ≠ 0 := by exact_mod_cast hb.ne'
    have hcg' : (withSign c t.1 : ℚ) * 10 ^ t.2 * g = c * 10 ^ n := by exact_mod_cast hcg
    simp only [value, zpow_add₀ h10, zpow_sub₀ h10, zpow_natCast]
    field_simp
    linarith
  exact (value_fix hm (hv.trans h)).trans hv

theorem fix_of_lt (h : d.coefficient.natAbs < 10 ^ precision) : fix d = d := by
  have := Text.length_decimal_le h (by decide)
  rw [fix, if_pos (by omega)]

/-- A number at another exponent is rounded away from zero to as many places. -/
theorem roundsAway_rescale (d : Decimal) (x : ℤ) :
    RoundsAway (d.value / (10 : ℚ) ^ x) (rescale d x).coefficient := by
  have h10 : (10 : ℚ) ≠ 0 := by norm_num
  have hv : d.value / (10 : ℚ) ^ x = d.coefficient * (10 : ℚ) ^ (d.exponent - x) := by
    rw [value, zpow_sub₀ h10, mul_div_assoc]
  rw [hv, rescale]
  split_ifs with h
  · have hn : (10 : ℚ) ^ (d.exponent - x) = (10 ^ (d.exponent - x).toNat : ℤ) := by
      rw [← Int.toNat_of_nonneg (by omega : 0 ≤ d.exponent - x), zpow_natCast]
      push_cast
      rw [Int.toNat_of_nonneg (by omega)]
    rw [hn, ← Int.cast_mul]
    exact roundsAway_intCast _
  · have hn : (d.coefficient : ℚ) * (10 : ℚ) ^ (d.exponent - x) =
        d.coefficient / (10 ^ (x - d.exponent).toNat : ℕ) := by
      have : d.exponent - x = -((x - d.exponent).toNat : ℤ) := by omega
      rw [this, zpow_neg, zpow_natCast, div_eq_mul_inv]
      push_cast
      rfl
    rw [hn]
    exact roundsAway_roundHalfUp _ (by positivity)

theorem exponent_rescale (d : Decimal) (x : ℤ) : (rescale d x).exponent = x := by
  unfold rescale
  split_ifs <;> rfl

/-- A number taken to so many decimals is the whole number it rounds to, of as many digits as the
precision holds. -/
theorem quantize_eq {c x : ℤ} (hc : RoundsAway (d.value / (10 : ℚ) ^ x) c)
    (hlt : c.natAbs < 10 ^ precision) (hx : etiny ≤ x ∧ x ≤ 0) : quantize d x = some ⟨c, x⟩ := by
  have hr : rescale d x = ⟨c, x⟩ := by
    calc rescale d x = ⟨(rescale d x).coefficient, (rescale d x).exponent⟩ := rfl
      _ = ⟨c, x⟩ := by rw [exponent_rescale, (roundsAway_rescale d x).unique hc]
  have hl := Text.length_decimal_le hlt (by decide)
  have he : x ≤ emax := hx.2.trans (by decide)
  have ha : x + (decimal c.natAbs).length - 1 ≤ emax := by
    unfold emax
    unfold precision at hl
    omega
  rw [quantize, hr, if_pos ⟨⟨hx.1, he⟩, hlt, ha⟩]

end FastKit.Decimals
