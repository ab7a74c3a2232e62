import Mathlib.Tactic.Common

/-! # What a stored secret is worth

Secrets are sealed with a list of keys. The first key writes and every one of them reads, so a key is
replaced by putting the new one in front and rewriting what is stored.
-/

namespace FastKit.Secrets

/-- What a key writes with a draw of its own, and what it reads, none where it did not write that. -/
structure Fernet (κ δ : Type) where
  encrypt : κ → δ → String → String
  decrypt : κ → String → Option String

variable {κ δ : Type} {F : Fernet κ δ}

/-- A key reads what it wrote, and what is written is never empty. -/
structure Fernet.Lawful (F : Fernet κ δ) : Prop where
  opens : ∀ key draw text, F.decrypt key (F.encrypt key draw text) = some text
  filled : ∀ key draw text, F.encrypt key draw text ≠ ""

/-- The keys that are configured, which are one at least. -/
structure Keys (κ : Type) where
  first : κ
  rest : List κ

/-- The keys once all but the first one are removed. -/
def Keys.alone (keys : Keys κ) : Keys κ := ⟨keys.first, []⟩

/-- A column that holds no secret. -/
def Blank (kept : Option String) : Prop := kept = none ∨ kept = some ""

instance (kept : Option String) : Decidable (Blank kept) :=
  inferInstanceAs (Decidable (kept = none ∨ kept = some ""))

def encrypt (F : Fernet κ δ) (keys : Keys κ) (draw : δ) (raw : Option String) : Option String :=
  if Blank raw then none else raw.map (F.encrypt keys.first draw)

def decrypt (F : Fernet κ δ) (keys : Keys κ) (encrypted : Option String) : Option String :=
  if Blank encrypted then none
  else encrypted.bind fun value => (keys.first :: keys.rest).findSome? (F.decrypt · value)

variable {keys : Keys κ} {draw : δ} {text : String} {kept : Option String}

@[simp] theorem blank_none : Blank none := .inl rfl

theorem not_blank_some : ¬ Blank (some text) ↔ text ≠ "" := by simp [Blank]

theorem decrypt_blank (h : Blank kept) : decrypt F keys kept = none := if_pos h

theorem encrypt_blank {raw : Option String} (h : Blank raw) : encrypt F keys draw raw = none :=
  if_pos h

theorem encrypt_some (h : text ≠ "") :
    encrypt F keys draw (some text) = some (F.encrypt keys.first draw text) :=
  if_neg (not_blank_some.mpr h)

/-- What is encrypted is read with the same keys. -/
theorem decrypt_encrypt (hF : F.Lawful) (h : text ≠ "") :
    decrypt F keys (encrypt F keys draw (some text)) = some text := by
  rw [encrypt_some h, decrypt, if_neg (not_blank_some.mpr (hF.filled _ _ _)), Option.bind_some,
    List.findSome?_cons, hF.opens]

/-- And with the first one alone. -/
theorem decrypt_alone (hF : F.Lawful) (h : text ≠ "") :
    decrypt F keys.alone (encrypt F keys draw (some text)) = some text :=
  decrypt_encrypt hF h

end FastKit.Secrets
