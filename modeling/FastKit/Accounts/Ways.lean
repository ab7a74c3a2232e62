import FastKit.Services.Accounts
import FastKit.Transaction.Steps

/-! # A way in

An account signs in by its password, by its address, or by an identity of a provider that is
offered where its role opens. An update is checked against the role the account had before it,
so a role that closes the panel is what the law asks of the caller.
-/

namespace FastKit.Accounts
open Transaction Transaction.Program

variable {c : Setup} {call : Call} {g m : Memory} {b v s t : Store} {row user : User} {d : UserData}
  {id : ℕ} {providers : List SocialProvider} {hash : Option String}

theorem connectedTo_iff : connectedTo id providers s = true ↔
    ∃ i ∈ s.identities, i.userId = id ∧ i.provider ∈ providers := by
  simp [connectedTo, Table.isSome_find]

theorem mem_enabledProviders {m : Settings} {p : MethodSettings → Bool} {provider : SocialProvider} :
    provider ∈ enabledProviders m p ↔ ∃ entry ∈ m.social, p entry.2 = true ∧ entry.1 = provider := by
  simp [enabledProviders]

theorem enabledProviders_mono {m : Settings} {p p' : MethodSettings → Bool}
    (h : ∀ entry, p entry = true → p' entry = true) :
    enabledProviders m p ⊆ enabledProviders m p' := by
  intro provider hp
  obtain ⟨entry, hmem, hentry, heq⟩ := mem_enabledProviders.mp hp
  exact mem_enabledProviders.mpr ⟨entry, hmem, h _ hentry, heq⟩

theorem connectedTo_mono {providers' : List SocialProvider} (h : providers ⊆ providers')
    (hc : connectedTo id providers s = true) : connectedTo id providers' s = true := by
  obtain ⟨i, hmem, huser, hprovider⟩ := connectedTo_iff.mp hc
  exact connectedTo_iff.mpr ⟨i, hmem, huser, h hprovider⟩

/-- What an account signs in by. -/
def wayIn (c : Setup) (s : Store) (u : User) : Bool :=
  u.hasPassword || u.email.isSome ||
    connectedTo u.id (enabledProviders c.settings (·.opens u.role)) s

/-- Every account that was not erased has a way in. -/
def EveryWay (c : Setup) (s : Store) : Prop :=
  ∀ u ∈ s.users, u.status ≠ .erased → wayIn c s u = true

instance : Decidable (EveryWay c s) :=
  inferInstanceAs (Decidable (∀ u ∈ s.users, u.status ≠ .erased → wayIn c s u = true))

/-- What a write of an account leaves it, where `role` is the role it is left with. -/
def leavesWay (c : Setup) (d : UserData) (role : UserRole) (u : User) (s : Store) : Bool :=
  u.hasPassword || (d.password.filter (· ≠ "")).isSome || (declared d (some u) .email).isSome ||
    connectedTo u.id (enabledProviders c.settings (·.opens role)) s

/-- An account that leaves the panel keeps a way in that the site offers too. -/
def keepsRole (c : Setup) (s : Store) (id : ℕ) (d : UserData) : Bool :=
  match s.users.get id with
  | none => true
  | some u => u.status == .erased || !u.role.panel || d.role != some .normal ||
      leavesWay c d .normal u s

def keepsWay (c : Setup) (s : Store) : Call → Bool
  | .updateUser id payload operator =>
    keepsRole c s id (normalize c.alphabet (stamped payload.data operator))
  | _ => true

/-- Updates of accounts, connections and disconnections, and time passing. -/
def Call.ways : Call → Bool
  | .updateUser .. | .updateMe .. | .connect .. | .disconnect .. | .tick .. => true
  | _ => false

/-- A segment that keeps a way in for every account, where the call it is of is one that does. -/
def Keeps (c : Setup) (call : Call) : Memory → Store → Memory → Store → Prop :=
  fun _ s _ t => keepsWay c s call = true → EveryWay c s → EveryWay c t

/-- The same accounts, connected to the same providers. -/
structure Untouched (b v : Store) : Prop where
  users : v.users = b.users
  connected : ∀ id providers, connectedTo id providers v = connectedTo id providers b

theorem untouched_refl (s : Store) : Untouched s s := ⟨rfl, fun _ _ => rfl⟩

theorem Untouched.everyWay (h : Untouched b v) (hb : EveryWay c b) : EveryWay c v := by
  intro u hu hne
  rw [wayIn, h.connected]
  exact hb u (h.users ▸ hu) hne

theorem Untouched.keeps (h : Untouched b v) (m m' : Memory) : Keeps c call m b m' v :=
  fun _ => h.everyWay

/-- Accounts rewritten where nothing of what they sign in by changes. -/
theorem everyWay_modify {p : User → Bool} {f : User → User} (hf : Still f)
    (same : ∀ u, (f u).role = u.role ∧ (f u).passwordHash = u.passwordHash ∧
      (f u).email = u.email ∧ (f u).status = u.status)
    (h : EveryWay c s) : EveryWay c { s with users := s.users.modify p f hf } := by
  intro u hu hne
  obtain ⟨row, hrow, rfl⟩ := (Table.mem_modify hf).mp hu
  change wayIn c s _ = true
  split_ifs at hne ⊢
  · obtain ⟨hrole, hhash, hemail, hstatus⟩ := same row
    have hid : (f row).id = row.id := (hf row).1
    have hold : wayIn c s row = true := h row hrow (hstatus ▸ hne)
    rwa [wayIn, User.hasPassword, hid, hrole, hhash, hemail]
  · exact h row hrow hne

/-- A role that opens as much as the one before it keeps what a provider gave. -/
theorem connected_role {role role' : UserRole} (h : role.panel = true → role'.panel = true)
    (hc : connectedTo id (enabledProviders c.settings (·.opens role)) s = true) :
    connectedTo id (enabledProviders c.settings (·.opens role')) s = true := by
  refine connectedTo_mono (enabledProviders_mono fun entry hopens => ?_) hc
  simp only [MethodSettings.opens, Bool.and_eq_true, Bool.or_eq_true] at hopens ⊢
  exact ⟨hopens.1, hopens.2.imp_right fun hadmin => ⟨hadmin.1, h hadmin.2⟩⟩

/-- A write leaves the role it names, and with it the way in it leaves. -/
theorem leavesWay_role (hrow : s.users.get id = some row) (hne : row.status ≠ .erased)
    (hkeeps : keepsRole c s id d = true) (hleaves : leavesWay c d row.role row s = true) :
    leavesWay c d (d.role.getD row.role) row s = true := by
  have hpanel : ∀ {role}, (row.role.panel = true → role.panel = true) →
      leavesWay c d role row s = true := by
    intro role h
    simp only [leavesWay, Bool.or_eq_true] at hleaves ⊢
    exact hleaves.imp_right (connected_role h)
  by_cases hleft : row.role.panel = true ∧ d.role = some .normal
  · simpa [keepsRole, hrow, hne, hleft] using hkeeps
  · refine hpanel fun h => ?_
    cases hrole : d.role with
    | none => exact h
    | some role =>
      cases role with
      | normal => exact absurd ⟨h, hrole⟩ hleft
      | editor => rfl
      | administrator => rfl

/-- The row a write leaves has the way in the write leaves it. -/
theorem wayIn_edited (hhash : ∀ h ∈ hash, h ≠ "")
    (given : hash = none → d.password.filter (· ≠ "") = none)
    (h : leavesWay c d (d.role.getD row.role) row s = true) :
    wayIn c s (edited d hash row) = true := by
  have hemail : (edited d hash row).email = declared d (some row) .email :=
    edited_identity d hash row .email
  rw [wayIn, User.hasPassword, hemail, edited_passwordHash, edited_role, edited_id]
  cases hash with
  | some hash => simp [hhash hash rfl]
  | none =>
    rw [leavesWay, given rfl] at h
    simpa [User.hasPassword] using h

theorem Untouched.wayIn (h : Untouched b v) (u : User) : wayIn c v u = wayIn c b u := by
  rw [Accounts.wayIn, Accounts.wayIn, h.connected]

/-- An update that leaves its account a way in keeps one for every account. -/
theorem Untouched.updated (h : Untouched b v) {users : Table User}
    (halter : v.users.alter (·.id == id) (edited d hash) = some users)
    (hrow : b.users.get id = some row) (hne : row.status ≠ .erased)
    (hleaves : leavesWay c d row.role row b = true) (hhash : ∀ h ∈ hash, h ≠ "")
    (given : hash = none → d.password.filter (· ≠ "") = none)
    (hkeeps : keepsWay c b call = true → keepsRole c b id d = true) (m m' : Memory) :
    Keeps c call m b m' { v with users := users } := by
  intro hcall hb u hu hopen
  obtain ⟨old, hold, rfl⟩ := (Table.mem_alter halter).mp hu
  change Accounts.wayIn c v _ = true
  rw [h.wayIn]
  rw [h.users] at hold
  split_ifs at hopen ⊢ with hid
  · obtain rfl : old = row := Table.eq_of_id hold (Table.mem_of_get hrow)
      ((beq_iff_eq.mp hid).trans (Table.id_of_get hrow).symm)
    exact wayIn_edited hhash given (leavesWay_role hrow hne (hkeeps hcall) hleaves)
  · exact hb old hold hopen

/-- A connection that is added takes nothing from anyone. -/
theorem Untouched.connect (h : Untouched b v) {make : ℕ → SocialIdentity}
    {inserted : SocialIdentity × Table SocialIdentity}
    (hins : v.identities.insert make = some inserted) (m m' : Memory) :
    Keeps c call m b m' { v with identities := inserted.2 } := by
  intro _ hb u hu hne
  have hw : Accounts.wayIn c v u = true := h.everyWay hb u hu hne
  simp only [Accounts.wayIn, Bool.or_eq_true] at hw ⊢
  refine hw.imp_right fun hc => ?_
  obtain ⟨i, hmem, hi⟩ := connectedTo_iff.mp hc
  exact connectedTo_iff.mpr ⟨i, (Table.mem_insert hins).mpr (.inl hmem), hi⟩

/-- The other connections of who disconnects stay, and so do those of everyone else. -/
theorem Untouched.disconnect (h : Untouched b v) {provider : SocialProvider}
    {surface : AuthenticationSurface} (hget : v.users.get id = some user)
    (hsurface : surface = .admin → user.role.panel = true)
    (hleaves : user.hasPassword = true ∨ user.email.isSome = true ∨ connectedTo user.id
      ((enabledProviders c.settings (·.available surface)).filter (· ≠ provider)) v = true)
    (m m' : Memory) : Keeps c call m b m' { v with
      identities := v.identities.erase (fun i => i.userId == user.id && i.provider == provider) } := by
  intro _ hb u hu hne
  have hw : Accounts.wayIn c v u = true := h.everyWay hb u hu hne
  have stays : ∀ i ∈ v.identities, (i.userId = user.id → i.provider ≠ provider) →
      i ∈ v.identities.erase (fun i => i.userId == user.id && i.provider == provider) :=
    fun i hi hother => Table.mem_erase.mpr ⟨hi, by simpa using hother⟩
  simp only [Accounts.wayIn, Bool.or_eq_true] at hw ⊢
  by_cases hid : u.id = user.id
  · obtain rfl : u = user := Table.eq_of_id hu (Table.mem_of_get hget) hid
    rcases hleaves with hleft | hleft | hleft
    · exact .inl (.inl hleft)
    · exact .inl (.inr hleft)
    · obtain ⟨i, hmem, huser, hprovider⟩ := connectedTo_iff.mp hleft
      obtain ⟨havailable, hother⟩ := List.mem_filter.mp hprovider
      refine .inr (connectedTo_iff.mpr ⟨i, stays i hmem fun _ => by simpa using hother, huser, ?_⟩)
      refine enabledProviders_mono (fun entry hopens => ?_) havailable
      cases surface <;> simp_all [MethodSettings.available, MethodSettings.opens]
  · refine hw.imp_right fun hc => ?_
    obtain ⟨i, hmem, huser, hprovider⟩ := connectedTo_iff.mp hc
    exact connectedTo_iff.mpr ⟨i, stays i hmem fun hsame => absurd (huser.symm.trans hsame) hid,
      huser, hprovider⟩

/-- A program that keeps every account and what it is connected to within each segment. -/
abbrev Keeping (c : Setup) (call : Call) {α : Type} (p : Db α) : Prop :=
  p.Within (Keeps c call) Untouched

theorem keeping_publish : Keeping c call publish :=
  within_publish (fun _ m _ _ h => h.keeps _ m) untouched_refl

theorem keeping_pass : Keeping c call pass :=
  within_yield (fun _ m s => (untouched_refl s).keeps _ m) untouched_refl

theorem keeping_draw : Keeping c call draw :=
  (reads_query _).within.bind fun _ => (within_execute fun _ _ h => ⟨h.users, h.connected⟩).bind
    fun _ => (reads_pure _).within

theorem keeping_recall (user : Option User) : Keeping c call (keepAccount user) := within_remember _

/-- Moving identities to a brand connects nobody and disconnects nobody. -/
theorem moveIdentities_meets {C : Contract Memory Memory Store} {tenantId : Option ℕ}
    {post : Memory → Except Fault (Unit × Memory) → Store → Store → Prop}
    (hok : ∀ w, Untouched v w → post g (.ok ((), m)) b w) (herr : ∀ e, post g (.error e) b v) :
    (moveIdentities id tenantId).Meets C post g m b v := by
  simp only [moveIdentities, meets_bind, meets_query, ending_ok]
  cases halter : v.identities.alter (·.userId == id) (fun i => { i with tenantId := tenantId }) with
  | none => exact herr _
  | some identities =>
    refine hok _ ⟨rfl, fun id' providers => ?_⟩
    rw [Bool.eq_iff_iff, connectedTo_iff, connectedTo_iff]
    have same : ∀ i : SocialIdentity, ((if (i.userId == id) = true then
        { i with tenantId := tenantId } else i).userId = i.userId) ∧ ((if (i.userId == id) = true then
        { i with tenantId := tenantId } else i).provider = i.provider) := by
      intro i
      split_ifs <;> exact ⟨rfl, rfl⟩
    constructor
    · rintro ⟨_, hmem, hi⟩
      obtain ⟨i, hi', rfl⟩ := (Table.mem_alter halter).mp hmem
      rw [(same i).1, (same i).2] at hi
      exact ⟨i, hi', hi⟩
    · rintro ⟨i, hmem, hi⟩
      refine ⟨_, (Table.mem_alter halter).mpr ⟨i, hmem, rfl⟩, ?_⟩
      rwa [(same i).1, (same i).2]

/-- A write passes only where it leaves its account a way in, under the role it had. -/
theorem validate_meets (data : UserData) (id : ℕ) (g m : Memory) (s : Store) :
    (validate c data (some id)).Meets (stepping (Keeps c call)) (ending (fun _ _ b v =>
      Untouched b v ∧ ∃ row, b.users.get id = some row ∧ row.status ≠ .erased ∧
        leavesWay c (normalize c.alphabet data) row.role row b = true) fun _ _ _ _ => True)
      g m s s := by
  simp only [validate, meets_bind]
  refine hold_meets (fun row hget hne => ?_) fun _ => trivial
  simp only [meets_pure, meets_bind, ending_ok]
  refine (ensureEachFree_reads _ _ _ _).meets (fun _ => ?_) fun _ => trivial
  simp only [meets_bind, ending_ok]
  refine (ensureIdentity_reads _ _).meets (fun _ => ?_) fun _ => trivial
  have hrest : leavesWay c (normalize c.alphabet data) row.role row s = true →
      (if declaredTenant (normalize c.alphabet data) (some row) = row.tenantId then
        pure (some row)
      else do
        moveIdentities row.id (declaredTenant (normalize c.alphabet data) (some row))
        pure (some row) : Db (Option User)).Meets (stepping (Keeps c call)) (ending (fun _ _ b v =>
          Untouched b v ∧ ∃ row, b.users.get id = some row ∧ row.status ≠ .erased ∧
            leavesWay c (normalize c.alphabet data) row.role row b = true) fun _ _ _ _ => True)
        g m s s := by
    intro hleaves
    refine meets_ite.mpr ⟨fun _ => ⟨untouched_refl s, row, hget, hne, hleaves⟩, fun _ => ?_⟩
    rw [meets_bind]
    exact moveIdentities_meets (fun w hw => ⟨hw, row, hget, hne, hleaves⟩) fun _ => trivial
  simp only [ensureWayIn, meets_bind, ending_ok]
  refine meets_ite.mpr ⟨fun hway => ?_, fun hno => ?_⟩
  · exact hrest (by simp only [leavesWay, hway, Bool.true_or])
  · simp only [meets_bind, meets_query, ending_ok]
    refine meets_ite.mpr ⟨fun hconnected => ?_, fun _ => trivial⟩
    exact hrest (by simp only [leavesWay, hconnected, Bool.or_true])

/-- A password that is given is hashed, and a hash is no empty text. -/
theorem hashOf_meets {vault : Vault} {password : Option String} {C : Contract Memory Memory Store}
    {post : Memory → Except Fault (Option String × Memory) → Store → Store → Prop}
    (hok : ∀ hash w, Untouched v w → (∀ h ∈ hash, h ≠ "") →
      (hash = none → password.filter (· ≠ "") = none) → post g (.ok (hash, m)) b w) :
    (hashOf vault password).Meets C post g m b v := by
  unfold hashOf
  cases hp : password.filter (· ≠ "") with
  | none => exact hok none v (untouched_refl v) (by simp) fun _ => hp
  | some word =>
    simp only [draw, meets_bind, meets_query, meets_execute, meets_pure, ending_ok]
    refine hok _ _ ⟨rfl, fun _ _ => rfl⟩ ?_ (by simp)
    rintro _ ⟨⟩
    exact vault.hash_ne _ _

theorem getUser_keeping (id : ℕ) : Keeping c call (getUser id) :=
  (reads_query _).within.bind fun o => (reads_require _ o).within.bind fun row =>
    (keeping_recall _).bind fun _ => (reads_pure row).within

/-- An update keeps a way in for every account where the role it writes does. -/
theorem updateUser_keeping (data : UserData) (operator : Option ℕ)
    (hkeeps : ∀ s, keepsWay c s call = true →
      keepsRole c s id (normalize c.alphabet (stamped data operator)) = true) :
    Keeping c call (updateUser c id data operator) := by
  refine (reads_query _).within.bind fun o => (reads_require _ o).within.bind fun loaded =>
    (keeping_recall _).bind fun _ => (ensureReferrersStillReach_reads _ _).within.bind fun _ => ?_
  intro g m b v _
  simp only [pass, meets_bind, steps_yield, id_eq, ending_ok]
  refine ⟨(untouched_refl b).keeps _ _, fun t => ?_⟩
  refine (validate_meets (stamped data operator) id m m t).mono ?_
  rintro g (e | ⟨_, m⟩) b v h
  · trivial
  obtain ⟨h, row, hget, hne, hleaves⟩ := h
  simp only [meets_bind, ending_ok]
  refine hashOf_meets fun hash w hw hhash given => ?_
  have hopen : Untouched b w :=
    ⟨hw.users.trans h.users, fun _ _ => (hw.connected _ _).trans (h.connected _ _)⟩
  simp only [alterUser, meets_bind, meets_query, ending_ok]
  cases halter : w.users.alter (·.id == id)
      (edited (normalize c.alphabet (stamped data operator)) hash) with
  | none => trivial
  | some users =>
    simp only [meets_require_some, meets_bind, meets_execute, ending_ok, steps_publish]
    exact ⟨hopen.updated halter hget hne hleaves hhash given (hkeeps b) _ _,
      fun t => getUser_keeping id _ _ t t (untouched_refl t)⟩

theorem refresh_keeping (user : User) : Keeping c call (refresh user) :=
  (reads_query _).within.bind fun o => (reads_require _ o).within.bind fun row =>
    (keeping_recall _).bind fun _ => (reads_pure row).within

theorem post_keeping (letter : Letter) : Keeping c call (post letter) :=
  within_execute fun _ _ h => ⟨h.users, h.connected⟩

/-- The letter an update sends changes nothing an account signs in by. -/
theorem mailConfirmation_keeping (user : User) : Keeping c call (mailConfirmation c user) := by
  have hclaim : Keeping c call (claimConfirmation c user) := by
    refine (reads_query _).within.bind fun moment => keeping_draw.bind fun token =>
      (reads_query _).within.bind fun claimed => ?_
    intro g m b v h
    simp only [writeUsers, meets_bind, meets_execute, ending_ok, steps_publish]
    refine ⟨fun _ hb => everyWay_modify _ (fun _ => ⟨rfl, rfl, rfl, rfl⟩) (h.everyWay hb), fun t => ?_⟩
    exact (refresh_keeping user _ _ t t (untouched_refl t)).mono fun _ r _ _ hr => by
      cases r with
      | error e => trivial
      | ok a => exact hr
  refine hclaim.bind fun claimed => within_ite (reads_pure _).within (keeping_pass.bind fun _ => ?_)
  cases claimed.2.pendingEmail with
  | none => exact (post_keeping _).bind fun _ => keeping_publish.bind fun _ => (reads_pure _).within
  | some address =>
    exact (post_keeping _).bind fun _ => keeping_publish.bind fun _ => (reads_pure _).within

/-- An update with no role of its own keeps the role. -/
theorem keepsRole_none (h : d.role = none) : keepsRole c s id d = true := by
  unfold keepsRole
  cases s.users.get id with
  | none => rfl
  | some u => simp [h]

theorem updateMe_keeping (request : AccountUpdateRequest) :
    Keeping c call (updateMe c id request.data) := by
  have hrole : ∀ (user : User) (data : UserData), data.role = none →
      Keeping c call (updateUser c user.id data none) := fun user data h =>
    updateUser_keeping data none fun _ _ => keepsRole_none h
  refine (getUser_keeping id).bind fun user => keeping_pass.bind fun _ => within_ite ?_ ?_
  · refine (ensureFree_reads _ _ _ _).within.bind fun _ => keeping_pass.bind fun _ => ?_
    refine (hrole user _ ?_).bind fun updated => mailConfirmation_keeping updated
    dsimp only
    split_ifs <;> rfl
  · refine hrole user _ ?_
    split_ifs <;> rfl

theorem connect_keeping (attempt : SocialLoginAttempt) (userId : ℕ) (profile : SocialProfile) :
    Keeping c call (connect c attempt userId profile) := by
  refine (requireSocial_reads c _ _).within.bind fun _ => (reads_query _).within.bind fun o =>
    (reads_require _ o).within.bind fun loaded => (keeping_recall _).bind fun _ =>
    within_ite (reads_raise _).within ((ensureAccess_reads _ _).within.bind fun _ =>
    keeping_pass.bind fun _ => (hold_reads _).within.bind fun user =>
    (ensureAccess_reads _ _).within.bind fun _ => (ensureScope_reads _ _ _).within.bind fun _ =>
    within_ite (reads_raise _).within ((reads_query _).within.bind fun linked => ?_))
  cases linked with
  | some linked =>
    exact within_ite (reads_raise _).within ((keeping_recall _).bind fun _ =>
      keeping_publish.bind fun _ => (reads_pure _).within)
  | none =>
    intro g m b v h
    simp only [meets_bind, meets_query, ending_ok]
    cases hins : v.identities.insert (fun id => (⟨id, user.tenantId, user.id, attempt.provider,
        profile.subject⟩ : SocialIdentity)) with
    | none => trivial
    | some inserted =>
      simp only [keepAccount, meets_require_some, meets_bind, meets_execute, meets_remember, meets_pure,
        ending_ok, steps_publish]
      exact ⟨h.connect hins _ _, untouched_refl⟩

theorem disconnect_keeping (userId : ℕ) (provider : SocialProvider)
    (surface : AuthenticationSurface) : Keeping c call (disconnect c userId provider surface) := by
  intro g m b v h
  rw [disconnect, meets_bind]
  refine hold_meets (fun user hget _ => ?_) fun _ => trivial
  rw [ending_ok, meets_bind]
  refine meets_ite.mpr ⟨fun _ => trivial, fun _ => meets_ite.mpr ⟨fun _ => trivial, fun hpanel => ?_⟩⟩
  simp only [meets_pure, meets_bind, meets_query, ending_ok]
  refine meets_ite.mpr ⟨fun _ => trivial, fun hleft => ?_⟩
  simp only [deleteIdentities, meets_bind, meets_execute, ending_ok, steps_publish]
  have hsurface : surface = .admin → user.role.panel = true := by
    intro hadmin
    by_contra hrole
    exact hpanel ⟨hadmin, Bool.eq_false_iff.mpr hrole⟩
  refine ⟨h.disconnect hget hsurface ?_ _ _, untouched_refl⟩
  by_contra hnone
  simp only [not_or, Bool.not_eq_true, Option.isSome_eq_false_iff, Option.isNone_iff_eq_none]
    at hnone
  obtain ⟨hpassword, hemail, hother⟩ := hnone
  exact hleft (by rw [hpassword, hemail, hother]; rfl)

/-- Every call of a run of updates and connections keeps a way in for every account. -/
theorem serve_keeping (h : call.ways = true) : Keeping c call (call.serve c) := by
  have silently : ∀ {α : Type} {p : Db α}, Keeping c call p → Keeping c call (silent p) :=
    fun hp => hp.bind fun _ => (reads_pure none).within
  cases call with
  | updateUser id payload operator => exact silently (updateUser_keeping _ _ fun _ hk => hk)
  | updateMe id request => exact silently (updateMe_keeping request)
  | connect attempt userId profile => exact silently (connect_keeping attempt userId profile)
  | disconnect userId provider surface => exact silently (disconnect_keeping userId provider surface)
  | tick by' =>
    exact silently ((within_execute fun _ _ h => ⟨h.users, h.connected⟩).bind fun _ => keeping_publish)
  | _ => cases h

variable {calls : List Call} {l : List (Turn Store)} {q r : Sessions}
  {ok : Sessions → ℕ → Sessions → Prop}

theorem stepping_ways (hcalls : ∀ call ∈ calls, call.ways = true) (s : Store) :
    Pool.Stepping (fun i m s m' t => ∃ call ∈ calls[i]?, Keeps c call m s m' t)
      (fun i g r b v => ∃ call ∈ calls[i]?,
        ending (fun _ _ b v => Untouched b v) (fun _ _ _ _ => True) g r b v) (sessions c calls s) :=
  Pool.stepping_calls (Call.serve c) (fun _ => Memory.empty) s calls fun _ hcall t =>
    serve_keeping (hcalls _ hcall) _ _ t t (untouched_refl t)

/-- Someone of the panel with no password and no address. -/
def Desk.keeper : User := { Desk.reader with passwordHash := "", role := .administrator }

/-- A site where the keeper signs in by a provider that only the panel offers. -/
def Desk.staffed : Store :=
  { Desk.only Desk.keeper rfl with
    identities := ⟨[⟨0, none, 0, .google, "keeper"⟩], 1, List.pairwise_singleton _ _, by simp [Keyed.id]⟩ }

def Desk.panel : Setup := Desk.setup [(.google, ⟨true, false, true⟩)]

/-- An update that moves an account off the panel, and gives it an address or not. -/
def Desk.leave (email : Option String) : UserPayload where
  username := none
  email := email.map some
  document := none
  mobilePhone := none
  tenantId := none
  password := none
  role := some .normal
  status := none
  operated := by decide

/-- In every run of updates, connections and disconnections each turn of which moves nobody off
the panel whose only way in is a provider of the panel, every account keeps a way in. -/
theorem account_keeps_way_in {calls : List Call} {s : Store}
    (hcalls : ∀ call ∈ calls, call.ways = true) (hs : EveryWay c s)
    (run : Pool.Run (fun q i _ => ∀ call ∈ calls[i]?, keepsWay c q.store call = true)
      (sessions c calls s) l q) : EveryWay c q.store :=
  run.invariant (I := fun q => EveryWay c q.store) (stepping_ways hcalls s) hs
    fun q i r hok turn h => by
  obtain ⟨m, -, ⟨-, -, -, hsame, -⟩ | ⟨m', -, call, hcall, hstep⟩⟩ := turn.step
  · exact hsame ▸ h
  · exact hstep (hok call hcall) h

/-- The keeper is given an address as it leaves the panel, and may disconnect then. -/
theorem account_keeps_way_in_once : ∃ q : Sessions, q.store.identities.rows = [] ∧
    EveryWay Desk.panel q.store := by
  obtain ⟨l, q, run, hq⟩ := Pool.exists_run
    (fun q i _ => ∀ call ∈ ([.updateUser 0 (Desk.leave (some "keeper@site")) none,
      .disconnect 0 .google .site] : List Call)[i]?, keepsWay Desk.panel q.store call = true)
    (sessions Desk.panel [.updateUser 0 (Desk.leave (some "keeper@site")) none,
      .disconnect 0 .google .site] Desk.staffed) [0, 0, 0, 1, 1]
    (fun q => q.store.identities.rows = []) (by decide +kernel)
  exact ⟨q, hq, account_keeps_way_in (by decide) (by decide +kernel) run⟩

/-- The update is checked against the role it takes away. -/
theorem account_loses_way_in : ¬∀ (c : Setup) (calls : List Call) (s : Store) (l : List (Turn Store))
    (q : Sessions), (∀ call ∈ calls, call.ways = true) → EveryWay c s →
    Pool.Run (fun _ _ _ => True) (sessions c calls s) l q → EveryWay c q.store := by
  intro h
  obtain ⟨l, q, run, hq⟩ := Pool.exists_run (fun _ _ _ => True)
    (sessions Desk.panel [.updateUser 0 (Desk.leave none) none] Desk.staffed) [0, 0, 0]
    (fun q => ¬EveryWay Desk.panel q.store) (by decide +kernel)
  exact hq (h _ _ _ _ _ (by decide) (by decide +kernel) run)

end FastKit.Accounts
