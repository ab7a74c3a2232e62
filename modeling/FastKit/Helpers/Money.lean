import FastKit.Helpers.Decimals
import FastKit.Text.Cuts
import FastKit.Text.Groups
import Mathlib.Algebra.Order.Field.Basic
import Mathlib.Tactic.Common

/-! # Money

The smallest unit of each currency, which is what a gateway charges in, and how a person reads an
amount of it. A code of a currency is lowered as the language lowers a text.
-/

namespace FastKit.Money

open Decimals
open Text (decimal padded numeral grouped before beyond)

def zeroDecimal : List String :=
  ["bif", "clp", "djf", "gnf", "jpy", "kmf", "krw", "mga", "pyg", "rwf", "ugx", "vnd", "vuv", "xaf",
    "xof", "xpf"]

def threeDecimal : List String := ["bhd", "jod", "kwd", "omr", "tnd"]

def factor (lower : String → String) (currency : String) : ℕ :=
  let lowered := lower currency
  if lowered ∈ zeroDecimal then 1
  else if lowered ∈ threeDecimal then 1000
  else 100

/-- `int(amount)`, which cuts what stands behind the point. -/
def integral (amount : Decimal) : ℤ :=
  if 0 ≤ amount.exponent then amount.coefficient * 10 ^ amount.exponent.toNat
  else amount.coefficient.tdiv (10 ^ (-amount.exponent).toNat)

def minorUnits (lower : String → String) (amount : Decimal) (currency : String) : Option ℤ :=
  (quantize (mul amount (.ofInt (factor lower currency))) 0).map integral

def fromMinorUnits (lower : String → String) (amount : ℤ) (currency : String) : Decimal :=
  div (.ofInt amount) (.ofInt (factor lower currency))

/-- The languages amounts are read in. -/
inductive Locale | en | pt | es
  deriving DecidableEq, Repr

/-- The mark between groups of three digits, and the one in front of the decimals. -/
def grouping : Locale → Char × Char
  | .en => (',', '.')
  | .pt => ('.', ',')
  | .es => ('.', ',')

def places (lower : String → String) (currency : String) : ℕ :=
  (decimal (factor lower currency)).length - 1

/-- The digits of a coefficient at an exponent, with a point where it has decimals. -/
def fixedPoint (n : ℕ) (exponent : ℤ) : List Char :=
  if 0 ≤ exponent then decimal n ++ List.replicate exponent.toNat '0'
  else
    let k := (-exponent).toNat
    let digits := padded (k + 1) n
    digits.take (digits.length - k) ++ '.' :: digits.drop (digits.length - k)

def number (value : Decimal) (locale : Locale) (decimals : ℤ) : Option (List Char) := do
  let (thousands, point) := grouping locale
  let quantized ← quantize value (← scaleb (-decimals))
  let text := fixedPoint quantized.coefficient.natAbs quantized.exponent
  let whole := before '.' text
  let fraction := beyond '.' text
  let grouped := (grouped ',' (numeral whole)).map fun c => if c = ',' then thousands else c
  let sign := if quantized.coefficient < 0 then ['-'] else []
  return if fraction ≠ [] then sign ++ grouped ++ point :: fraction else sign ++ grouped

/-! ## Amounts -/

/-- What a column of money holds: thousandths, of twelve digits at most. -/
structure Amount where
  thousandths : ℤ
  within : |thousandths| < 10 ^ 12

namespace Amount

def decimal (a : Amount) : Decimal := ⟨a.thousandths, -3⟩

def value (a : Amount) : ℚ := a.thousandths / 1000

theorem value_decimal (a : Amount) : a.decimal.value = a.value := by
  simp [decimal, Decimal.value, value, div_eq_mul_inv]
  norm_num

end Amount

variable (lower : String → String) (currency : String)

theorem factor_cases : factor lower currency = 1 ∨ factor lower currency = 100 ∨
    factor lower currency = 1000 := by
  unfold factor
  dsimp only
  split_ifs <;> simp

/-- The smallest unit of a currency is what its decimals say. -/
theorem factor_eq_pow : factor lower currency = 10 ^ places lower currency := by
  unfold places
  obtain h | h | h := factor_cases lower currency <;> rw [h] <;> decide

theorem places_le : places lower currency ≤ 3 := by
  unfold places
  obtain h | h | h := factor_cases lower currency <;> rw [h] <;> decide

theorem factor_pos : 0 < factor lower currency := by
  obtain h | h | h := factor_cases lower currency <;> rw [h] <;> decide

theorem factor_le : factor lower currency ≤ 1000 := by
  obtain h | h | h := factor_cases lower currency <;> rw [h] <;> decide

variable (a : Amount)

theorem mul_factor : mul a.decimal (.ofInt (factor lower currency)) =
    ⟨a.thousandths * factor lower currency, -3⟩ := by
  refine fix_of_lt (d := ⟨_, _⟩) ?_
  have ht := abs_lt.mp a.within
  have hf := factor_le lower currency
  dsimp only [Amount.decimal, Decimal.ofInt]
  rw [Int.natAbs_mul, Int.natAbs_natCast]
  calc a.thousandths.natAbs * factor lower currency
      ≤ 10 ^ 12 * 1000 := Nat.mul_le_mul (by omega) hf
    _ < 10 ^ precision := by decide

theorem value_lt : |a.value| < 10 ^ 9 := by
  have ht : |(a.thousandths : ℚ)| < 10 ^ 12 := by exact_mod_cast a.within
  rw [Amount.value, abs_div, abs_of_pos (by norm_num : (0 : ℚ) < 1000)]
  linarith

/-- A gateway is told the amount in the smallest unit, from halfway away from zero. -/
theorem minorUnits_spec : ∃ n, minorUnits lower a.decimal currency = some n ∧
    n.natAbs ≤ 10 ^ 12 ∧ RoundsAway (a.value * factor lower currency) n := by
  have hv : (⟨a.thousandths * factor lower currency, -3⟩ : Decimal).value / (10 : ℚ) ^ (0 : ℤ) =
      a.value * factor lower currency := by
    simp only [Decimal.value, Amount.value]
    push_cast
    norm_num
    ring
  have hq : |a.value * factor lower currency| ≤ ((10 ^ 12 : ℕ) : ℚ) := by
    have hf : (factor lower currency : ℚ) ≤ 1000 := by exact_mod_cast factor_le lower currency
    have hf0 : (0 : ℚ) ≤ factor lower currency := Nat.cast_nonneg _
    rw [abs_mul, abs_of_nonneg hf0]
    calc |a.value| * factor lower currency
        ≤ 10 ^ 9 * 1000 := mul_le_mul (value_lt a).le hf hf0 (by norm_num)
      _ = ((10 ^ 12 : ℕ) : ℚ) := by norm_num
  have hr := roundsAway_rescale ⟨a.thousandths * factor lower currency, -3⟩ 0
  generalize (rescale ⟨a.thousandths * factor lower currency, -3⟩ 0).coefficient = n at hr
  have hn : n.natAbs ≤ 10 ^ 12 := (hv ▸ hr).natAbs_le hq
  refine ⟨n, ?_, hn, hv ▸ hr⟩
  rw [minorUnits, mul_factor, quantize_eq hr (hn.trans_lt (by decide)) ⟨by decide, le_rfl⟩]
  simp [integral]

/-- What a gateway answers in the smallest unit is read back as it is. -/
theorem value_fromMinorUnits {n : ℤ} (hn : n.natAbs ≤ 10 ^ 12) :
    (fromMinorUnits lower n currency).value = n / factor lower currency := by
  have hp := places_le lower currency
  have hf := factor_eq_pow lower currency
  have hof (k : ℤ) : (Decimal.ofInt k).value = k := by simp [Decimal.ofInt, Decimal.value]
  have h10 : (10 : ℚ) ≠ 0 := by norm_num
  have hq : (Decimal.ofInt n).value / (Decimal.ofInt (factor lower currency)).value =
      n * (10 : ℚ) ^ (-(places lower currency : ℤ)) := by
    rw [hof, hof, hf, zpow_neg, zpow_natCast, div_eq_mul_inv]
    push_cast
    rfl
  rw [fromMinorUnits, value_div ?_ ?_ ?_ (hn.trans_lt (by decide)) hq, hof, hof, Int.cast_natCast]
  · exact Int.natCast_pos.mpr (factor_pos lower currency)
  · exact Text.length_decimal_le (hn.trans_lt (by decide)) (by decide)
  · obtain h | h | h := factor_cases lower currency <;> rw [h] <;> decide

/-! ## Amounts as they are read -/

/-- A text without its sign. -/
def unsigned : List Char → List Char
  | '-' :: t => t
  | t => t

/-- The number a text of a language writes, its group marks left out and its decimal mark read. -/
def reads (locale : Locale) (t : List Char) : Option ℚ :=
  let (thousands, point) := grouping locale
  let plain := (unsigned t).filter (· ≠ thousands)
  let whole := before point plain
  let fraction := beyond point plain
  if whole ≠ [] ∧ (whole ++ fraction).all Char.isDigit then
    some ((if t.head? = some '-' then -1 else 1) *
      (numeral (whole ++ fraction) / 10 ^ fraction.length))
  else none

/-- What stands in front of the decimal mark is in groups of three digits, the first of which may
have less. -/
def InGroups (locale : Locale) (t : List Char) : Prop :=
  ∃ g gs, (before (grouping locale).2 (unsigned t)).splitOn (grouping locale).1 = g :: gs ∧
    (0 < g.length ∧ g.length ≤ 3) ∧ ∀ h ∈ gs, h.length = 3

/-- The text of a whole part and its decimals. -/
def written (locale : Locale) (negative : Prop) [Decidable negative] (w : ℕ)
    (fraction : List Char) : List Char :=
  (if negative then ['-'] else []) ++ grouped (grouping locale).1 w ++
    if fraction ≠ [] then (grouping locale).2 :: fraction else []

/-- A coefficient as it stands before and behind the point. -/
theorem fixedPoint_spec (n k : ℕ) :
    (∀ c ∈ beyond '.' (fixedPoint n (-k)), c.isDigit) ∧
      (beyond '.' (fixedPoint n (-k))).length = k ∧
      10 ^ k * numeral (before '.' (fixedPoint n (-k))) +
        numeral (beyond '.' (fixedPoint n (-k))) = n := by
  have hdot {t : List Char} (ht : ∀ c ∈ t, c.isDigit) : '.' ∉ t := fun h =>
    absurd (ht '.' h) (by decide)
  by_cases hk : k = 0
  · subst hk
    have hd := hdot (Text.isDigit_decimal n)
    have ht : fixedPoint n (-(0 : ℕ)) = decimal n := by simp [fixedPoint]
    rw [ht, Text.before_of_not_mem hd, Text.beyond_of_not_mem hd, Text.numeral_decimal]
    simp [numeral]
  · have hd := Text.isDigit_padded (k + 1) n
    have hlen : k ≤ (padded (k + 1) n).length := by
      rw [padded, List.length_leftpad]
      omega
    have hnum := Text.numeral_padded (k + 1) n
    have ht : fixedPoint n (-k) = (padded (k + 1) n).take ((padded (k + 1) n).length - k) ++
        '.' :: (padded (k + 1) n).drop ((padded (k + 1) n).length - k) := by
      rw [fixedPoint, if_neg (by omega), Int.neg_neg, Int.toNat_natCast]
    generalize padded (k + 1) n = u at hd hlen hnum ht
    have htake : '.' ∉ u.take (u.length - k) :=
      hdot fun c hc => hd c (List.mem_of_mem_take hc)
    have hl : (u.drop (u.length - k)).length = k := by
      rw [List.length_drop]
      omega
    rw [ht, Text.before_append htake, Text.beyond_append htake]
    refine ⟨fun c hc => hd c (List.mem_of_mem_drop hc), hl, ?_⟩
    have happ := Text.numeral_append (u.take (u.length - k)) (u.drop (u.length - k))
    rw [List.take_append_drop, hnum, hl] at happ
    exact happ.symm

variable {locale : Locale} {negative : Prop} [Decidable negative] {w : ℕ} {fraction : List Char}

theorem grouping_spec (locale : Locale) :
    ¬ (grouping locale).1.isDigit ∧ ¬ (grouping locale).2.isDigit ∧
      (grouping locale).1 ≠ (grouping locale).2 ∧
      (grouping locale).1 ≠ '-' ∧ (grouping locale).2 ≠ '-' := by
  cases locale <;> decide

theorem head_grouped (sep : Char) (w : ℕ) : ∃ c t, grouped sep w = c :: t ∧ c.isDigit := by
  obtain ⟨g, gs, hg, ⟨hl, -⟩, -⟩ := Text.groups_cons w
  obtain ⟨c, t, rfl⟩ := List.exists_cons_of_length_pos hl
  have hc := Text.isDigit_groups w (c :: t) (by simp [hg]) c List.mem_cons_self
  rw [grouped, hg]
  cases gs with
  | nil => exact ⟨c, t, by simp [List.intercalate], hc⟩
  | cons h hs =>
    exact ⟨c, t ++ sep :: [sep].intercalate (h :: hs), by simp [List.intercalate], hc⟩

theorem unsigned_of_isDigit {c : Char} {t : List Char} (hc : c.isDigit) :
    unsigned (c :: t) = c :: t := by
  unfold unsigned
  split
  case h_1 h =>
    obtain ⟨rfl, -⟩ := List.cons.inj h
    exact absurd hc (by decide)
  case h_2 => rfl

theorem unsigned_written : unsigned (written locale negative w fraction) =
    grouped (grouping locale).1 w ++
      if fraction ≠ [] then (grouping locale).2 :: fraction else [] := by
  obtain ⟨c, t, hg, hc⟩ := head_grouped (grouping locale).1 w
  rw [written, hg]
  by_cases hn : negative
  · rw [if_pos hn]
    rfl
  · rw [if_neg hn, List.nil_append]
    exact unsigned_of_isDigit hc

theorem head_written : (written locale negative w fraction).head? = some '-' ↔ negative := by
  obtain ⟨c, t, hg, hc⟩ := head_grouped (grouping locale).1 w
  rw [written, hg]
  by_cases hn : negative
  · simp [hn]
  · simp only [hn, if_false, List.nil_append, List.cons_append, List.head?_cons, iff_false,
      Option.some.injEq]
    rintro rfl
    exact absurd hc (by decide)

/-- The number written by a whole part and its decimals is read, whatever the language. -/
theorem reads_written (hd : ∀ c ∈ fraction, c.isDigit) :
    reads locale (written locale negative w fraction) =
      some ((if negative then -1 else 1) *
        (((10 ^ fraction.length * w + numeral fraction : ℕ) : ℚ) / 10 ^ fraction.length)) := by
  obtain ⟨hs, hp, hsp, -⟩ := grouping_spec locale
  have hflat : ∀ c ∈ (Text.groups w).flatten, c.isDigit := fun c hc => by
    obtain ⟨g, hg, hcg⟩ := List.mem_flatten.mp hc
    exact Text.isDigit_groups w g hg c hcg
  have hpf : (grouping locale).2 ∉ (Text.groups w).flatten := fun h => hp (hflat _ h)
  have hff : fraction.filter (· ≠ (grouping locale).1) = fraction :=
    List.filter_eq_self.mpr fun c hc => by
      rw [decide_eq_true_eq]
      rintro rfl
      exact hs (hd _ hc)
  have hplain : (unsigned (written locale negative w fraction)).filter (· ≠ (grouping locale).1) =
      (Text.groups w).flatten ++ if fraction ≠ [] then (grouping locale).2 :: fraction else [] := by
    rw [unsigned_written, List.filter_append, Text.filter_grouped hs]
    congr 1
    split_ifs
    · rw [List.filter_cons_of_pos (by simpa using hsp.symm), hff]
    · rfl
  have hbefore : before (grouping locale).2 ((Text.groups w).flatten ++
      if fraction ≠ [] then (grouping locale).2 :: fraction else []) =
      (Text.groups w).flatten := by
    split_ifs with hf
    · exact Text.before_append hpf
    · rw [List.append_nil, Text.before_of_not_mem hpf]
  have hbeyond : beyond (grouping locale).2 ((Text.groups w).flatten ++
      if fraction ≠ [] then (grouping locale).2 :: fraction else []) = fraction := by
    split_ifs with hf
    · exact Text.beyond_append hpf
    · rw [List.append_nil, Text.beyond_of_not_mem hpf, not_not.mp hf]
  have hne : (Text.groups w).flatten ≠ [] := by
    obtain ⟨g, gs, hg, ⟨hl, -⟩, -⟩ := Text.groups_cons w
    obtain ⟨c, t, rfl⟩ := List.exists_cons_of_length_pos hl
    simp [hg]
  have hall : ∀ c ∈ (Text.groups w).flatten ++ fraction, c.isDigit := fun c hc =>
    (List.mem_append.mp hc).elim (hflat c) (hd c)
  simp only [reads, hplain, hbefore, hbeyond]
  rw [if_pos ⟨hne, List.all_eq_true.mpr hall⟩, Text.numeral_append, Text.numeral_groups]
  simp only [head_written]

theorem before_written : before (grouping locale).2 (unsigned (written locale negative w fraction)) =
    grouped (grouping locale).1 w := by
  obtain ⟨hs, hp, hsp, -⟩ := grouping_spec locale
  have hpg : (grouping locale).2 ∉ grouped (grouping locale).1 w := fun h =>
    (Text.mem_grouped hs h).elim (fun he => hsp he.symm) hp
  rw [unsigned_written]
  split_ifs with hf
  · exact Text.before_append hpg
  · rw [List.append_nil, Text.before_of_not_mem hpg]

theorem beyond_written :
    beyond (grouping locale).2 (unsigned (written locale negative w fraction)) = fraction := by
  obtain ⟨hs, hp, hsp, -⟩ := grouping_spec locale
  have hpg : (grouping locale).2 ∉ grouped (grouping locale).1 w := fun h =>
    (Text.mem_grouped hs h).elim (fun he => hsp he.symm) hp
  rw [unsigned_written]
  split_ifs with hf
  · exact Text.beyond_append hpg
  · rw [List.append_nil, Text.beyond_of_not_mem hpg, not_not.mp hf]

theorem inGroups_written : InGroups locale (written locale negative w fraction) := by
  obtain ⟨g, gs, hg, hl, hgs⟩ := Text.groups_cons w
  refine ⟨g, gs, ?_, hl, hgs⟩
  rw [before_written, Text.splitOn_grouped (grouping_spec locale).1, hg]

/-- A number taken to so many decimals is written as the whole number it rounds to. -/
theorem number_eq {value : Decimal} (locale : Locale) {k : ℕ} {c : ℤ}
    (hk : k ≤ 1000026) (hc : RoundsAway (value.value * 10 ^ k) c)
    (hlt : c.natAbs < 10 ^ precision) :
    ∃ w fraction, number value locale k = some (written locale (c < 0) w fraction) ∧
      (∀ d ∈ fraction, d.isDigit) ∧ fraction.length = k ∧
      10 ^ k * w + numeral fraction = c.natAbs := by
  obtain ⟨hd, hl, hn⟩ := fixedPoint_spec c.natAbs k
  refine ⟨_, _, ?_, hd, hl, hn⟩
  have hscale : scaleb (-(k : ℤ)) = some (-(k : ℤ)) := by
    have hm : max (-(k : ℤ)) etiny = -k := max_eq_left (by unfold etiny; omega)
    rw [scaleb, if_pos, hm]
    rw [abs_neg, Nat.abs_cast]
    unfold emax precision
    omega
  have hq : quantize value (-k) = some ⟨c, -k⟩ := by
    refine quantize_eq ?_ hlt ⟨by unfold etiny; omega, by omega⟩
    rwa [zpow_neg, zpow_natCast, div_inv_eq_mul]
  have hmap (w : ℕ) : (grouped ',' w).map (fun d => if d = ',' then (grouping locale).1 else d) =
      grouped (grouping locale).1 w := by
    rw [Text.map_grouped, if_pos rfl]
    intro d hd
    rw [if_neg]
    rintro rfl
    exact absurd hd (by decide)
  simp only [number, hscale, hq, bind, Option.bind_some, hmap, written]
  split_ifs <;> simp

/-- Money survives the units of the gateway and the language of the reader: a gateway is told an
amount in the smallest unit of its currency, from halfway away from zero and never less for more,
and an amount the currency can represent is read back as it was; and what is written of an amount to
so many decimals, where the digits it rounds to are no more than the arithmetic keeps, reads as the
amount rounded away from zero, with that many decimals, in groups of three, and with a minus sign
exactly where it is below zero. -/
theorem money_survives (lower : String → String) :
    (∀ (a : Amount) (currency : String), ∃ n, minorUnits lower a.decimal currency = some n ∧
      RoundsAway (a.value * factor lower currency) n ∧
      ((∃ z : ℤ, a.value * factor lower currency = z) →
        (fromMinorUnits lower n currency).value = a.value)) ∧
    (∀ (a b : Amount) (currency : String) (m n : ℤ), a.value ≤ b.value →
      minorUnits lower a.decimal currency = some m → minorUnits lower b.decimal currency = some n →
      m ≤ n) ∧
    ∀ (a : Amount) (locale : Locale) (decimals : ℕ) (c : ℤ), decimals ≤ 1000026 →
      RoundsAway (a.value * 10 ^ decimals) c → c.natAbs < 10 ^ precision →
      ∃ text, number a.decimal locale decimals = some text ∧
        reads locale text = some ((c : ℚ) / 10 ^ decimals) ∧
        (beyond (grouping locale).2 (unsigned text)).length = decimals ∧
        InGroups locale text ∧ (text.head? = some '-' ↔ c < 0) := by
  refine ⟨?units, ?mono, ?text⟩
  case units =>
    intro a currency
    obtain ⟨n, hn, hb, hr⟩ := minorUnits_spec lower currency a
    refine ⟨n, hn, hr, ?_⟩
    rintro ⟨z, hz⟩
    have hzn : z = n := (roundsAway_intCast z).unique (hz ▸ hr)
    have hf : (factor lower currency : ℚ) ≠ 0 := by
      exact_mod_cast (factor_pos lower currency).ne'
    rw [value_fromMinorUnits lower currency hb, ← hzn, ← hz, mul_div_cancel_right₀ _ hf]
  case mono =>
    intro a b currency m n hab hm hn
    obtain ⟨m', hm', -, hrm⟩ := minorUnits_spec lower currency a
    obtain ⟨n', hn', -, hrn⟩ := minorUnits_spec lower currency b
    obtain rfl : m' = m := Option.some.inj (hm'.symm.trans hm)
    obtain rfl : n' = n := Option.some.inj (hn'.symm.trans hn)
    exact hrm.mono hrn (mul_le_mul_of_nonneg_right hab (Nat.cast_nonneg _))
  case text =>
    intro a locale decimals c hk hc hlt
    obtain ⟨w, fraction, htext, hd, hl, hn⟩ :=
      number_eq locale hk (a.value_decimal.symm ▸ hc) hlt
    refine ⟨_, htext, ?_, by rw [beyond_written, hl], inGroups_written, head_written⟩
    rw [reads_written hd, hl, hn]
    congr 1
    split_ifs with hneg
    · have hcn : (c : ℚ) = -(c.natAbs : ℚ) := by
        rw [← Int.cast_natCast, ← Int.cast_neg]
        congr 1
        omega
      rw [hcn]
      ring
    · have hcn : (c : ℚ) = c.natAbs := by
        rw [← Int.cast_natCast]
        congr 1
        omega
      rw [hcn, one_mul]

/-- One is not written to twenty-eight decimals, which would be twenty-nine digits. -/
theorem number_refused : ¬ ∀ (a : Amount) (locale : Locale) (decimals : ℕ) (c : ℤ),
    RoundsAway (a.value * 10 ^ decimals) c →
    ∃ text, number a.decimal locale decimals = some text ∧
      reads locale text = some ((c : ℚ) / 10 ^ decimals) := by
  intro h
  have hr : RoundsAway ((⟨1000, by decide⟩ : Amount).value * 10 ^ 28) (10 ^ 28) := by
    have hv : (⟨1000, by decide⟩ : Amount).value * 10 ^ 28 = ((10 ^ 28 : ℤ) : ℚ) := by
      norm_num [Amount.value]
    rw [hv]
    exact roundsAway_intCast _
  obtain ⟨text, ht, -⟩ := h ⟨1000, by decide⟩ .en 28 (10 ^ 28) hr
  have hnone : number (Amount.decimal ⟨1000, by decide⟩) .en 28 = none := by decide +kernel
  exact absurd (hnone.symm.trans ht) (by simp)

end FastKit.Money
