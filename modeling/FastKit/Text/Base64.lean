import FastKit.Text.Cuts

/-! # Base64 for addresses

The writing of bytes by the letters of base64url, padded to groups of four, and its reading, which
passes over what is no letter and stops at the padding of a group.
-/

namespace FastKit.Text.Base64

def alphabet : List Char :=
  "ABCDEFGHIJKLMNOPQRSTUVWXYZabcdefghijklmnopqrstuvwxyz0123456789-_".toList

def letter (n : ℕ) : Char := alphabet.getD n '='

/-- The six bits a letter stands for, those of the other two variants of base64 read as well. -/
def sextet (c : Char) : Option ℕ :=
  if c = '+' then some 62 else if c = '/' then some 63
  else if c ∈ alphabet then some (alphabet.idxOf c) else none

/-- The bits of some bytes, six by six. -/
def sextets : List UInt8 → List ℕ
  | [] => []
  | [a] => [a.toNat / 4, a.toNat % 4 * 16]
  | [a, b] => [a.toNat / 4, a.toNat % 4 * 16 + b.toNat / 16, b.toNat % 16 * 4]
  | a :: b :: c :: rest =>
    [a.toNat / 4, a.toNat % 4 * 16 + b.toNat / 16, b.toNat % 16 * 4 + c.toNat / 64, c.toNat % 64] ++
      sextets rest

/-- What a text of letters lacks to groups of four. -/
def padding (t : List Char) : List Char := List.replicate ((4 - t.length % 4) % 4) '='

/-- `base64.urlsafe_b64encode(bytes)` -/
def encode (bytes : List UInt8) : List Char :=
  let t := (sextets bytes).map letter
  t ++ padding t

/-- Reads letters on from a place in their group, with the bits left over there and the padding
met since the last letter. `none` is a group that was cut short. -/
def decodeFrom (place left pads : ℕ) : List Char → Option (List UInt8)
  | [] => if place = 0 then some [] else none
  | c :: t =>
    if c = '=' then
      if 2 ≤ place ∧ 4 ≤ place + (pads + 1) then some []
      else decodeFrom place left (if 2 ≤ place then pads + 1 else pads) t
    else
      match sextet c with
      | none => decodeFrom place left pads t
      | some v =>
        match place with
        | 0 => decodeFrom 1 v 0 t
        | 1 => (decodeFrom 2 (v % 16) 0 t).map (.ofNat (left * 4 + v / 16) :: ·)
        | 2 => (decodeFrom 3 (v % 4) 0 t).map (.ofNat (left * 16 + v / 4) :: ·)
        | _ => (decodeFrom 0 0 0 t).map (.ofNat (left * 64 + v) :: ·)

/-- `base64.urlsafe_b64decode(t)` of a text in ASCII. -/
def decode (t : List Char) : Option (List UInt8) := decodeFrom 0 0 0 t

theorem sextet_letter {n : ℕ} (h : n < 64) : sextet (letter n) = some n := by
  have hall : ∀ n : Fin 64, sextet (letter n) = some n.val := by decide +kernel
  exact hall ⟨n, h⟩

theorem letter_mem {n : ℕ} (h : n < 64) : letter n ∈ alphabet := by
  have hall : ∀ n : Fin 64, letter n ∈ alphabet := by decide +kernel
  exact hall ⟨n, h⟩

theorem letter_ne {n : ℕ} (h : n < 64) {c : Char} (hc : c ∉ alphabet) : letter n ≠ c := by
  rintro rfl
  exact hc (letter_mem h)

theorem sextets_lt {bytes : List UInt8} : ∀ n ∈ sextets bytes, n < 64 := by
  induction bytes using sextets.induct with
  | case1 => simp [sextets]
  | case2 a =>
    have := a.toNat_lt
    simp only [sextets, List.mem_cons, List.not_mem_nil, or_false]
    omega
  | case3 a b =>
    have := a.toNat_lt
    have := b.toNat_lt
    simp only [sextets, List.mem_cons, List.not_mem_nil, or_false]
    omega
  | case4 a b c rest ih =>
    have := a.toNat_lt
    have := b.toNat_lt
    have := c.toNat_lt
    simp only [sextets, List.mem_append, List.mem_cons, List.not_mem_nil, or_false]
    rintro n (h | h)
    · omega
    · exact ih n h

section Places
variable {n left pads : ℕ} {t : List Char} (h : n < 64)
include h

theorem decodeFrom_zero : decodeFrom 0 left pads (letter n :: t) = decodeFrom 1 n 0 t := by
  have hne : letter n ≠ '=' := letter_ne h (by decide)
  rw [decodeFrom, if_neg hne, sextet_letter h]
  rfl

theorem decodeFrom_one : decodeFrom 1 left pads (letter n :: t) =
    (decodeFrom 2 (n % 16) 0 t).map (.ofNat (left * 4 + n / 16) :: ·) := by
  have hne : letter n ≠ '=' := letter_ne h (by decide)
  rw [decodeFrom, if_neg hne, sextet_letter h]
  rfl

theorem decodeFrom_two : decodeFrom 2 left pads (letter n :: t) =
    (decodeFrom 3 (n % 4) 0 t).map (.ofNat (left * 16 + n / 4) :: ·) := by
  have hne : letter n ≠ '=' := letter_ne h (by decide)
  rw [decodeFrom, if_neg hne, sextet_letter h]
  rfl

theorem decodeFrom_three : decodeFrom 3 left pads (letter n :: t) =
    (decodeFrom 0 0 0 t).map (.ofNat (left * 64 + n) :: ·) := by
  have hne : letter n ≠ '=' := letter_ne h (by decide)
  rw [decodeFrom, if_neg hne, sextet_letter h]
  rfl

end Places

theorem ofNat_eq {n : ℕ} {a : UInt8} (h : n = a.toNat) : UInt8.ofNat n = a := by
  rw [h, UInt8.ofNat_toNat]

/-- What was written is read back. -/
theorem decode_encode (bytes : List UInt8) : decode (encode bytes) = some bytes := by
  have hgroups : ∀ pads : List Char, (∀ k, ((sextets bytes).map letter).length % 4 = k →
      pads = List.replicate ((4 - k) % 4) '=') →
      decodeFrom 0 0 0 ((sextets bytes).map letter ++ pads) = some bytes := by
    induction bytes using sextets.induct with
    | case1 =>
      intro pads hpads
      rw [hpads 0 rfl]
      rfl
    | case2 a =>
      intro pads hpads
      rw [hpads 2 rfl]
      have ha := a.toNat_lt
      have h1 : a.toNat / 4 * 4 + a.toNat % 4 * 16 / 16 = a.toNat := by omega
      simp only [sextets, List.map_cons, List.map_nil, List.cons_append, List.nil_append]
      rw [decodeFrom_zero (by omega), decodeFrom_one (by omega), ofNat_eq h1]
      rfl
    | case3 a b =>
      intro pads hpads
      rw [hpads 3 rfl]
      have ha := a.toNat_lt
      have hb := b.toNat_lt
      have h1 : a.toNat / 4 * 4 + (a.toNat % 4 * 16 + b.toNat / 16) / 16 = a.toNat := by omega
      have h2 : (a.toNat % 4 * 16 + b.toNat / 16) % 16 * 16 + b.toNat % 16 * 4 / 4 = b.toNat := by
        omega
      simp only [sextets, List.map_cons, List.map_nil, List.cons_append, List.nil_append]
      rw [decodeFrom_zero (by omega), decodeFrom_one (by omega), decodeFrom_two (by omega),
        ofNat_eq h1, ofNat_eq h2]
      rfl
    | case4 a b c rest ih =>
      intro pads hpads
      have ha := a.toNat_lt
      have hb := b.toNat_lt
      have hc := c.toNat_lt
      have h1 : a.toNat / 4 * 4 + (a.toNat % 4 * 16 + b.toNat / 16) / 16 = a.toNat := by omega
      have h2 : (a.toNat % 4 * 16 + b.toNat / 16) % 16 * 16 +
          (b.toNat % 16 * 4 + c.toNat / 64) / 4 = b.toNat := by omega
      have h3 : (b.toNat % 16 * 4 + c.toNat / 64) % 4 * 64 + c.toNat % 64 = c.toNat := by omega
      have hrest : ∀ k, ((sextets rest).map letter).length % 4 = k →
          pads = List.replicate ((4 - k) % 4) '=' := by
        intro k hk
        refine hpads k ?_
        simp only [sextets, List.map_append, List.length_append, List.length_map, List.length_cons,
          List.length_nil] at hk ⊢
        omega
      simp only [sextets, List.map_cons, List.cons_append, List.nil_append]
      rw [decodeFrom_zero (by omega), decodeFrom_one (by omega), decodeFrom_two (by omega),
        decodeFrom_three (by omega), ih pads hrest, ofNat_eq h1, ofNat_eq h2, ofNat_eq h3]
      rfl
  exact hgroups _ fun k hk => by rw [padding, hk]

theorem letters_mem {bytes : List UInt8} {c : Char} (h : c ∈ (sextets bytes).map letter) :
    c ∈ alphabet := by
  obtain ⟨n, hn, rfl⟩ := List.mem_map.mp h
  exact letter_mem (sextets_lt n hn)

/-- The letters without their padding. -/
theorem rstrip_encode (bytes : List UInt8) :
    (encode bytes).rdropWhile (· == '=') = (sextets bytes).map letter := by
  have hpad : ∀ c ∈ (padding ((sextets bytes).map letter)).reverse, (c == '=') = true := by
    intro c hc
    rw [padding, List.reverse_replicate] at hc
    simp [List.eq_of_mem_replicate hc]
  rw [encode, List.rdropWhile, List.reverse_append, List.dropWhile_append_of_pos hpad]
  have hletters : ((sextets bytes).map letter).reverse.dropWhile (· == '=') =
      ((sextets bytes).map letter).reverse := by
    cases hlast : ((sextets bytes).map letter).reverse with
    | nil => rfl
    | cons c t =>
      have hc : c ∈ (sextets bytes).map letter := by
        rw [← List.mem_reverse, hlast]
        exact List.mem_cons_self
      have hne : (c == '=') = false := by
        rw [beq_eq_false_iff_ne]
        rintro rfl
        exact absurd (letters_mem hc) (by decide)
      simp [hne]
  rw [hletters, List.reverse_reverse]

/-- The letters are read once they are padded again. -/
theorem decode_padded (bytes : List UInt8) : decode ((sextets bytes).map letter ++
    List.replicate ((4 - ((sextets bytes).map letter).length % 4) % 4) '=') = some bytes :=
  decode_encode bytes

end FastKit.Text.Base64
