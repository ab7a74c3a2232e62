import FastKit.Secrets.Batches
import Mathlib.Data.Prod.Lex
import Mathlib.Tactic.FinCases

/-! # A key that is replaced

A rewrite leaves every secret to the first key alone, each as it was, or nothing is seen of it; what
others do meanwhile is neither undone nor written over; and left alone it comes to an end.
-/

namespace FastKit.Secrets.Rotation

variable {κ δ : Type} {F : Fernet κ δ} {keys : Keys κ} {registry : Registry} {s s' : Rotation}
  {db : Database} {before models : List Model} {rows : List Row} {last : ℕ}

/-- What holds at every point of a rewrite. -/
def Stands (F : Fernet κ δ) (keys : Keys κ) (registry : Registry) (db : Database)
    (s : Rotation) : Prop :=
  match s.phase with
  | .ended (.ok _) =>
    Others F keys db s.elsewhere ∧ Sound F keys s.committed ∧ Committed F keys registry s
  | _ => Inv F keys registry db s ∧ At F keys registry s

theorem stands_of_ne (hphase : ∀ n, s.phase ≠ .ended (.ok n)) :
    Stands F keys registry db s ↔ Inv F keys registry db s ∧ At F keys registry s := by
  rw [Stands]
  split
  · rename_i n hp
    exact absurd hp (hphase n)
  · rfl

theorem Inv.moved (h : Inv F keys registry db s) (phase : Phase) (n : ℕ) :
    Inv F keys registry db { s with phase := phase, rewritten := n } :=
  ⟨h.others, h.alike, h.sound, h.held⟩

theorem Walk.moved (h : Walk F keys s before models rows last) (phase : Phase) (n : ℕ) :
    Walk F keys { s with phase := phase, rewritten := n } before models rows last :=
  ⟨h.past, h.current, h.pending, h.inside, h.ids, h.ahead, h.later⟩

theorem stands_reading {n : ℕ} (h : Inv F keys registry db s)
    (hstored : stored registry = before ++ models) (hwalk : Walk F keys s before models [] last) :
    Stands F keys registry db { s with phase := .reading models last, rewritten := n } :=
  ⟨h.moved _ _, before, hstored, hwalk.moved _ _⟩

theorem stands_writing {n : ℕ} {model : Model} (h : Inv F keys registry db s)
    (hstored : stored registry = before ++ model :: models)
    (hwalk : Walk F keys s before (model :: models) rows last) :
    Stands F keys registry db { s with phase := .writing model models rows last, rewritten := n } :=
  ⟨h.moved _ _, before, hstored, hwalk.moved _ _⟩

theorem stands_rollback (h : Inv F keys registry db s) (e : Error) :
    Stands F keys registry db (s.rollback e) :=
  ⟨inv_rollback h e, trivial⟩

/-- Its next statement keeps what holds of a rewrite. -/
theorem stands_advance (hF : F.Lawful) (hrun : s.Running) (h : Stands F keys registry db s)
    (draws : String → δ) : Stands F keys registry db (s.advance F keys draws) := by
  obtain ⟨hinv, hat⟩ := (stands_of_ne fun n => hrun (.ok n)).mp h
  rw [At] at hat
  rw [advance]
  cases hp : s.phase with
  | ended result => exact absurd hp (hrun result)
  | reading models last =>
    rw [hp] at hat
    obtain ⟨before, hstored, hwalk⟩ := hat
    cases models with
    | nil =>
      rw [List.append_nil] at hstored
      exact ⟨hinv.others, sound_view hinv, committed_view hF hinv (hstored ▸ hwalk)⟩
    | cons model models =>
      dsimp only
      cases hlast : (s.select model.1 last).getLast? with
      | none => exact stands_reading hinv (by simp [hstored]) (walk_next hinv hwalk hlast)
      | some row => exact stands_writing hinv hstored (walk_select hinv hwalk hlast)
  | writing model models rows last =>
    rw [hp] at hat
    obtain ⟨before, hstored, hwalk⟩ := hat
    cases rows with
    | nil => exact stands_reading hinv hstored hwalk
    | cons row rows =>
      dsimp only
      cases hchanges : rewriteRow F keys draws row model.2 with
      | error e => exact stands_rollback hinv e
      | ok changes =>
        dsimp only
        split_ifs with hnone
        · obtain rfl := hnone
          have hblank {column : String} (hc : column ∈ model.2) := blank_of_rewriteRow hchanges hc
          exact stands_writing hinv hstored (walk_pass hwalk fun _ hc => hblank hc)
        · split
          · rename_i current hcurrent
            have hw : s.written model.1 row.id = none := hwalk.pending model rfl row (by simp)
            have hmem : current ∈ s.unchanged model row := by simp [hcurrent]
            obtain ⟨hcommitted, hid, hsame⟩ := mem_unchanged hinv hw hmem
            have hmodel : model ∈ stored registry := by simp [hstored]
            exact stands_writing (inv_wrote hF hinv hmodel hchanges hcommitted hid hsame) hstored
              (walk_wrote hstored (current.set changes) hwalk)
          · exact stands_rollback hinv .changed

theorem stands_step (hF : F.Lawful) (hstep : Step F keys s s') (h : Stands F keys registry db s) :
    Stands F keys registry db s' := by
  cases hstep with
  | own draws hrun => exact stands_advance hF hrun h draws
  | raises hrun =>
    obtain ⟨hinv, -⟩ := (stands_of_ne fun n => hrun (.ok n)).mp h
    exact stands_rollback hinv .failed
  | others db' hrun hother =>
    obtain ⟨hinv, hat⟩ := (stands_of_ne fun n => hrun (.ok n)).mp h
    exact (stands_of_ne (s := s.changed db') fun n => hrun (.ok n)).mpr
      ⟨inv_changed hF hother hinv, at_changed hother hat⟩

theorem stands_start (hdb : Sound F keys db) : Stands F keys registry db (start registry db) := by
  refine ⟨⟨.refl, rfl, hdb, fun _ _ _ _ hw => absurd hw.symm (Option.some_ne_none _)⟩, [], rfl, ?_⟩
  refine ⟨by simp, fun model hm row hrow hle => ?_, by simp, by simp, by simp, fun _ _ _ _ => rfl,
    fun _ _ _ => rfl⟩
  exact absurd (hdb.positive model.1 row hrow) (by omega)

theorem stands_of_reaches (hF : F.Lawful) (hdb : Sound F keys db)
    (h : Reaches F keys (start registry db) s) : Stands F keys registry db s := by
  induction h with
  | refl => exact stands_start hdb
  | tail _ hstep ih => exact stands_step hF hstep ih

/-! ## Left alone -/

/-- The rows of the first of some models behind an id. -/
def above (db : Database) (models : List Model) (last : ℕ) : ℕ :=
  ((models.head?.elim [] fun model => db model.1).filter (last < ·.id)).length

/-- What a rewrite has left to do: models, rows that are not read, rows that are not written. -/
def left (s : Rotation) : ℕ ×ₗ ℕ ×ₗ ℕ :=
  match s.phase with
  | .reading models last => toLex (models.length + 1, toLex (above s.committed models last, 0))
  | .writing model models rows last => toLex (models.length + 2,
      toLex (above s.committed (model :: models) last, rows.length + 1))
  | .ended _ => toLex (0, toLex (0, 0))

/-- Fewer rows are behind a row that was not passed. -/
theorem above_lt {model : Model} {row : Row} (hrow : row ∈ db model.1) (hlast : last < row.id) :
    above db (model :: models) row.id < above db (model :: models) last := by
  have hsub : ((db model.1).filter (row.id < ·.id)).Sublist ((db model.1).filter (last < ·.id)) := by
    refine List.monotone_filter_right _ fun r hr => ?_
    exact decide_eq_true (hlast.trans (of_decide_eq_true hr))
  refine lt_of_le_of_ne hsub.length_le fun he => ?_
  have hmem : row ∈ (db model.1).filter (last < ·.id) :=
    List.mem_filter.mpr ⟨hrow, decide_eq_true hlast⟩
  rw [← hsub.eq_of_length he] at hmem
  exact absurd (of_decide_eq_true (List.mem_filter.mp hmem).2) (lt_irrefl _)

/-- Each statement leaves less to do. -/
theorem left_advance (hrun : s.Running) (h : Stands F keys registry db s) (draws : String → δ) :
    (s.advance F keys draws).left < s.left := by
  obtain ⟨hinv, hat⟩ := (stands_of_ne fun n => hrun (.ok n)).mp h
  have hended {n : ℕ} {more : ℕ ×ₗ ℕ} : toLex (0, toLex (0, 0)) < toLex (n + 1, more) :=
    Prod.Lex.toLex_lt_toLex.mpr (.inl (Nat.succ_pos n))
  rw [At] at hat
  rw [advance]
  cases hp : s.phase with
  | ended result => exact absurd hp (hrun result)
  | reading models last =>
    rw [hp] at hat
    obtain ⟨before, hstored, hwalk⟩ := hat
    have hleft : s.left =
        toLex (models.length + 1, toLex (above s.committed models last, 0)) := by rw [left, hp]
    rw [hleft]
    cases models with
    | nil => exact hended
    | cons model models =>
      dsimp only
      cases hlast : (s.select model.1 last).getLast? with
      | none => exact Prod.Lex.toLex_lt_toLex.mpr (.inl (by simp))
      | some row =>
        obtain ⟨hrow, hbehind⟩ :=
          mem_select hinv (List.mem_of_getLast? hlast) (hwalk.ahead model rfl)
        refine Prod.Lex.toLex_lt_toLex.mpr (.inr ⟨rfl, ?_⟩)
        exact Prod.Lex.toLex_lt_toLex.mpr (.inl (above_lt hrow hbehind))
  | writing model models rows last =>
    have hfewer {n : ℕ} : toLex (models.length + 2, toLex (above s.committed (model :: models) last, n)) <
        toLex (models.length + 2, toLex (above s.committed (model :: models) last, n + 1)) :=
      Prod.Lex.toLex_lt_toLex.mpr (.inr ⟨rfl, Prod.Lex.toLex_lt_toLex.mpr (.inr ⟨rfl, n.lt_succ_self⟩)⟩)
    have hleft : s.left = toLex (models.length + 2,
        toLex (above s.committed (model :: models) last, rows.length + 1)) := by rw [left, hp]
    rw [hleft]
    cases rows with
    | nil => exact hfewer
    | cons row rows =>
      dsimp only
      cases hchanges : rewriteRow F keys draws row model.2 with
      | error e => exact hended
      | ok changes =>
        dsimp only
        split_ifs with hnone
        · exact hfewer
        · split
          · exact hfewer
          · exact hended

variable (F keys) in
/-- Statements of a rewrite while others do nothing. -/
def alone (draws : ℕ → String → δ) : ℕ → Rotation → Rotation
  | 0, s => s
  | n + 1, s => alone (fun k => draws (k + 1)) n (s.advance F keys (draws 0))

/-- Left alone, a rewrite comes to an end. -/
theorem ends_of_stands (hF : F.Lawful) (h : Stands F keys registry db s)
    (draws : ℕ → String → δ) :
    ∃ n result, (alone F keys draws n s).phase = .ended result := by
  induction hleft : s.left using WellFoundedLT.induction generalizing s draws with
  | ind size ih =>
    by_cases hrun : s.Running
    · have hless := left_advance hrun h (draws 0)
      obtain ⟨n, result, hn⟩ := ih _ (hleft ▸ hless) (stands_advance hF hrun h (draws 0))
        (fun k => draws (k + 1)) rfl
      exact ⟨n + 1, result, hn⟩
    · obtain ⟨result, hp⟩ := not_forall_not.mp hrun
      exact ⟨0, result, hp⟩

/-- Its own statements are among all that a rewrite may come to. -/
theorem reaches_alone (draws : ℕ → String → δ) (n : ℕ) :
    Reaches F keys s (alone F keys draws n s) := by
  induction n generalizing s draws with
  | zero => exact .refl
  | succ n ih =>
    refine Relation.ReflTransGen.trans ?_ (ih fun k => draws (k + 1))
    by_cases hrun : s.Running
    · exact .single (.own (draws 0) hrun)
    · obtain ⟨result, hp⟩ := not_forall_not.mp hrun
      rw [advance, hp]

/-! ## All or nothing -/

/-- What a rewrite that began with a database is at any point of it. -/
structure AllOrNothing (F : Fernet κ δ) (keys : Keys κ) (registry : Registry) (db : Database)
    (s : Rotation) : Prop where
  /-- What others left of the database is their doing. -/
  others : Others F keys db s.elsewhere
  /-- Where it is not committed, or raised, nothing is seen of it. -/
  nothing : (∀ n, s.phase ≠ .ended (.ok n)) → s.committed = s.elsewhere
  /-- Where it is committed, every secret is carried over to the first key. -/
  all : ∀ n, s.phase = .ended (.ok n) → Committed F keys registry s
  /-- From any point it comes to an end by itself. -/
  ends : ∀ draws, ∃ n result, (alone F keys draws n s).phase = .ended result

theorem Stands.sound (h : Stands F keys registry db s) : Sound F keys s.committed := by
  by_cases hp : ∃ n, s.phase = .ended (.ok n)
  · obtain ⟨n, hp⟩ := hp
    rw [Stands, hp] at h
    exact h.2.1
  · exact ((stands_of_ne (not_exists.mp hp)).mp h).1.sound

theorem Stands.allOrNothing (hF : F.Lawful) (h : Stands F keys registry db s) :
    AllOrNothing F keys registry db s := by
  refine ⟨?_, fun hp => ((stands_of_ne hp).mp h).1.alike, fun n hp => ?_, ends_of_stands hF h⟩
  · by_cases hp : ∃ n, s.phase = .ended (.ok n)
    · obtain ⟨n, hp⟩ := hp
      rw [Stands, hp] at h
      exact h.1
    · exact ((stands_of_ne (not_exists.mp hp)).mp h).1.others
  · rw [Stands, hp] at h
    exact h.2.2

/-- Replacing a key is all or nothing, and so it is again from wherever it ended. -/
theorem rewrite_all_or_nothing (hF : F.Lawful) (hdb : Sound F keys db)
    (h : Reaches F keys (start registry db) s) :
    AllOrNothing F keys registry db s ∧
      ∀ s', Reaches F keys (start registry s.committed) s' →
        AllOrNothing F keys registry s.committed s' := by
  have hstands := stands_of_reaches hF hdb h
  refine ⟨hstands.allOrNothing hF, fun s' h' => ?_⟩
  exact (stands_of_reaches hF hstands.sound h').allOrNothing hF

/-- How many secrets were rewritten, where it is committed. -/
def result? (s : Rotation) : Option ℕ :=
  match s.phase with
  | .ended (.ok n) => some n
  | _ => none

/-! Two columns of two rows, sealed with the key before. -/

/-- Texts that begin with the key that wrote them. -/
def plain : Fernet Char Char where
  encrypt key draw text := String.ofList (key :: draw :: text.toList)
  decrypt key value :=
    match value.toList with
    | k :: _ :: text => if k = key then some (String.ofList text) else none
    | _ => none

theorem plain_lawful : plain.Lawful where
  opens key draw text := by simp [plain]
  filled key draw text := by simp [plain, String.ext_iff]

def integrations : Registry := ⟨[⟨"Integration", "integration", ["id", "key_encrypted", "secret_encrypted"]⟩], by decide⟩

def sealedRow (id : ℕ) (key : String) (secret : Option String) : Row where
  id := id
  secrets := fun column =>
    if column = "key_encrypted" then some key
    else if column = "secret_encrypted" then secret
    else none

/-- An integration without a secret, and one with both. -/
def sealed (table : String) : List Row :=
  if table = "integration" then [sealedRow 7 "o1sk" none, sealedRow 9 "o1pk" (some "o1hook")] else []

theorem sound_sealed : Sound plain ⟨'n', ['o']⟩ sealed where
  ids table := by
    unfold sealed
    split_ifs <;> simp [sealedRow]
  positive table row hrow := by
    unfold sealed at hrow
    split_ifs at hrow
    · fin_cases hrow <;> decide
    · cases hrow
  filled table row hrow column := by
    have hblank : decrypt plain ⟨'n', ['o']⟩ none ≠ some "" := by
      rw [decrypt_blank blank_none]
      exact (Option.some_ne_none _).symm
    unfold sealed at hrow
    split_ifs at hrow
    · fin_cases hrow <;> unfold sealedRow <;> dsimp only <;> split_ifs <;>
        first
          | exact hblank
          | decide
    · cases hrow

/-- The secrets of the rows are left to the key in front. -/
theorem integration_rewritten : ∃ s,
    Reaches plain ⟨'n', ['o']⟩ (start integrations sealed) s ∧ s.result? = some 3 ∧
    (s.committed "integration").map (fun row => (row.secrets "key_encrypted",
      row.secrets "secret_encrypted")) = [(some "n2sk", none), (some "n2pk", some "n2hook")] ∧
    AllOrNothing plain ⟨'n', ['o']⟩ integrations sealed s := by
  refine ⟨_, reaches_alone (fun _ _ => '2') 10, by decide +kernel, by decide +kernel, ?_⟩
  exact (rewrite_all_or_nothing plain_lawful sound_sealed (reaches_alone _ 10)).1

end FastKit.Secrets.Rotation
