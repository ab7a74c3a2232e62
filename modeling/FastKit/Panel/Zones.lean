import Mathlib.Tactic.Linarith
import Mathlib.Algebra.Order.Ring.Int

/-! # Time zones

A time zone says how many minutes its wall clock is ahead of the world's at each instant, and the
minutes change now and then. Reading a wall clock measures them at the instant the clock would
name without a zone, and once more at the instant found so: with changes far enough apart, that is
enough to find the instant the clock names, where it names one.
-/

namespace FastKit.Zones

/-- A time zone: the minutes its wall clock is ahead, within fourteen hours either way, constant
between changes more than two days apart. -/
structure Zone where
  offset : ℤ → ℤ
  within : ∀ t, |offset t| ≤ 840
  apart : ∀ c d, c < d → offset (c - 1) ≠ offset c → offset (d - 1) ≠ offset d → 172800000 < d - c

/-- A property that holds at one of two whole numbers and not at the other is lost at a step between
them. -/
theorem exists_step {p : ℤ → Prop} {x y : ℤ} (hxy : x ≤ y) (hx : p x) (hy : ¬ p y) :
    ∃ c, x < c ∧ c ≤ y ∧ p (c - 1) ∧ ¬ p c := by
  induction y, hxy using Int.leInduction with
  | base => exact absurd hx hy
  | succ y hxy ih =>
    by_cases hp : p y
    · exact ⟨y + 1, by omega, le_rfl, by rwa [Int.add_sub_cancel], hy⟩
    · obtain ⟨c, hxc, hcy, hc⟩ := ih hp
      exact ⟨c, hxc, by omega, hc⟩

namespace Zone

variable (Z : Zone) {c n s t u x y z : ℤ}

/-- The milliseconds the wall clock is ahead. -/
def ahead (t : ℤ) : ℤ := Z.offset t * 60000

/-- What the wall clock shows, as the instant that a clock without a zone would name with it. -/
def wall (t : ℤ) : ℤ := t + Z.ahead t

def Changes (c : ℤ) : Prop := Z.offset (c - 1) ≠ Z.offset c

/-- The wall clock shows it at some instant. -/
def Occurs (n : ℤ) : Prop := ∃ t, Z.wall t = n

/-- The wall clock jumps over it at a change of its offset. -/
def Skips (c n : ℤ) : Prop := Z.Changes c ∧ c + Z.ahead (c - 1) ≤ n ∧ n < Z.wall c

/-- How much the wall clock jumps over at a change. -/
def skipped (c : ℤ) : ℤ := Z.ahead c - Z.ahead (c - 1)

/-- The instant found for what a wall clock shows. -/
def found (n : ℤ) : ℤ :=
  if Z.offset (n - Z.ahead n) = Z.offset n then n - Z.ahead n else n - Z.ahead (n - Z.ahead n)

theorem ahead_within (t : ℤ) : -50400000 ≤ Z.ahead t ∧ Z.ahead t ≤ 50400000 := by
  have := abs_le.mp (Z.within t)
  unfold ahead
  omega

theorem ahead_eq : Z.ahead t = Z.ahead u ↔ Z.offset t = Z.offset u := by
  unfold ahead
  omega

theorem exists_change (hxy : x ≤ y) (h : Z.offset x ≠ Z.offset y) :
    ∃ c, x < c ∧ c ≤ y ∧ Z.Changes c := by
  obtain ⟨c, hxc, hcy, hp, hn⟩ :=
    exists_step (p := fun t => Z.offset t = Z.offset x) hxy rfl (Ne.symm h)
  exact ⟨c, hxc, hcy, fun he => hn (he ▸ hp)⟩

/-- The offset is settled between two instants or between the second of them and a third, where the
three lie within two days. -/
theorem settled (hxy : x ≤ y) (hyz : y ≤ z) (hd : z - x ≤ 172800000) :
    Z.offset x = Z.offset y ∨ Z.offset y = Z.offset z := by
  by_contra! h
  obtain ⟨c, hxc, hcy, hc⟩ := Z.exists_change hxy h.1
  obtain ⟨d, hyd, hdz, hd'⟩ := Z.exists_change hyz h.2
  have := Z.apart c d (by omega) hc hd'
  omega

theorem offset_after (hc : Z.Changes c) (hct : c ≤ t) (htc : t - c ≤ 172800000) :
    Z.offset t = Z.offset c := by
  by_contra h
  obtain ⟨d, hcd, hdt, hd⟩ := Z.exists_change hct (Ne.symm h)
  have := Z.apart c d hcd hc hd
  omega

theorem offset_before (hc : Z.Changes c) (htc : t < c) (hct : c - t ≤ 172800000) :
    Z.offset t = Z.offset (c - 1) := by
  by_contra h
  obtain ⟨d, htd, hdc, hd⟩ := Z.exists_change (by omega : t ≤ c - 1) h
  have := Z.apart d c (by omega) hd hc
  omega

/-- Of three instants within two days, two have the same offset. -/
theorem offset_eq_of_ne (htn : |t - n| ≤ 86400000) (hun : |u - n| ≤ 86400000)
    (h : Z.offset u ≠ Z.offset n) : Z.offset t = Z.offset n ∨ Z.offset t = Z.offset u := by
  rw [abs_le] at htn hun
  obtain htn' | htn' := le_total t n <;> obtain hun' | hun' := le_total u n <;>
    obtain htu | htu := le_total t u
  · have := Z.settled htu hun' (by omega); omega
  · have := Z.settled htu htn' (by omega); omega
  · have := Z.settled htn' hun' (by omega); omega
  · have := Z.settled htn' hun' (by omega); omega
  · have := Z.settled hun' htn' (by omega); omega
  · have := Z.settled hun' htn' (by omega); omega
  · have := Z.settled htn' htu (by omega); omega
  · have := Z.settled hun' htu (by omega); omega

/-- The instant found for what a wall clock does show is one it shows it at. -/
theorem wall_found (h : Z.Occurs n) : Z.wall (Z.found n) = n := by
  obtain ⟨t, ht⟩ := h
  have hn := Z.ahead_within n
  have hat := Z.ahead_within t
  unfold found
  split_ifs with ho
  · rw [wall, Z.ahead_eq.mpr ho, Int.sub_add_cancel]
  · -- The clock shows it at the offset measured second, as it cannot at the first.
    unfold wall at ht
    have hoff : Z.offset t = Z.offset (n - Z.ahead n) := by
      obtain h | h := Z.offset_eq_of_ne (t := t) (abs_le.mpr (by omega)) (abs_le.mpr (by omega)) ho
      · have := Z.ahead_eq.mpr h
        rw [show t = n - Z.ahead n by omega] at h
        exact absurd h ho
      · exact h
    have := Z.ahead_eq.mpr hoff
    rw [← this, show n - Z.ahead t = t by omega]
    exact ht

theorem found_wall (h : ∀ u, Z.wall u = Z.wall t → u = t) : Z.found (Z.wall t) = t :=
  h _ (Z.wall_found ⟨t, rfl⟩)

/-- What a change jumps over is read as far off as the change jumps. -/
theorem wall_found_of_skips (h : Z.Skips c n) : |Z.wall (Z.found n) - n| = Z.skipped c := by
  obtain ⟨hc, hl, hu⟩ := h
  have hbefore := Z.ahead_within (c - 1)
  have hafter := Z.ahead_within c
  unfold wall at hu
  by_cases hn : n < c
  · -- Measured before the change, then behind it.
    have h₁ := Z.ahead_eq.mpr (Z.offset_before hc hn (by omega))
    have ho : Z.offset (n - Z.ahead n) = Z.offset c := Z.offset_after hc (by omega) (by omega)
    have h₂ := Z.ahead_eq.mpr ho
    have h₃ := Z.ahead_eq.mpr
      (Z.offset_before hc (by omega : n - Z.ahead (n - Z.ahead n) < c) (by omega))
    have hne : Z.offset (n - Z.ahead n) ≠ Z.offset n := fun he => by
      have := Z.ahead_eq.mpr he
      omega
    rw [found, if_neg hne, wall, skipped, abs_eq (by omega)]
    omega
  · -- Measured behind the change, then before it.
    have h₁ := Z.ahead_eq.mpr (Z.offset_after hc (by omega : c ≤ n) (by omega))
    have ho : Z.offset (n - Z.ahead n) = Z.offset (c - 1) :=
      Z.offset_before hc (by omega) (by omega)
    have h₂ := Z.ahead_eq.mpr ho
    have h₃ := Z.ahead_eq.mpr
      (Z.offset_after hc (by omega : c ≤ n - Z.ahead (n - Z.ahead n)) (by omega))
    have hne : Z.offset (n - Z.ahead n) ≠ Z.offset n := fun he => by
      have := Z.ahead_eq.mpr he
      omega
    rw [found, if_neg hne, wall, skipped, abs_eq (by omega)]
    omega

/-- A wall clock shows everything that no change jumps over. -/
theorem occurs_or_skips (n : ℤ) : Z.Occurs n ∨ ∃ c, Z.Skips c n := by
  have hl := Z.ahead_within (n - 50400001)
  have hu := Z.ahead_within (n + 50400000)
  obtain ⟨c, -, -, hc, hn⟩ := exists_step (p := fun t => Z.wall t < n)
    (by omega : n - 50400001 ≤ n + 50400000) (by unfold wall; omega) (by unfold wall; omega)
  by_cases h : Z.wall c = n
  · exact .inl ⟨c, h⟩
  · refine .inr ⟨c, fun he => ?_, ?_, ?_⟩
    · have := Z.ahead_eq.mpr he
      unfold wall at hc hn h
      omega
    · unfold wall at hc
      omega
    · omega

end Zone

end FastKit.Zones
