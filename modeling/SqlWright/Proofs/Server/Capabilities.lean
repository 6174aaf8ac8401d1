import SqlWright.Proofs.Command.Complete

/-!
# Capabilities and spellings

What a server is said to do decides which statements are made for it, and its spelling decides how
they are written. The two have thresholds of their own for the versions that brought a feature;
`Server.build_agrees` says that they are the same.
-/

namespace SqlWright

/-- A server is said to do what a spelling has words for. -/
structure Server.Agrees (server : Server) (spelling : Spelling) : Prop where
  limit : ∃ p, spelling.paging = .ok p ∧ (server.limit ↔ p ≠ .unsupported)
  offset : ∃ p, spelling.paging = .ok p ∧ (server.offset ↔ p = .limitOffset ∨ p = .offsetFetch)
  rowNumber : ∃ b, spelling.windowFunctions = .ok b ∧ (server.rowNumber ↔ b = true)
  nullsOrdering : ∃ b, spelling.nullsOrdering = .ok b ∧ (server.nullsOrdering ↔ b = true)
  skipLocked : server.skipLocked ↔ ∃ clause, spelling.lock ⟨.update, .skipLocked⟩ = .ok clause
  fillFactor : server.fillFactor ↔
    ∀ percent : UInt8, 1 ≤ percent → percent ≤ 100 →
      ∃ clause, spelling.fillFactor percent = .ok (some clause)

namespace Spelling

variable {s : Spelling}

/-- A rule that gives a clause for every fill factor gives one for those in question. -/
theorem gives_fillFactor {clause : UInt8 → String}
    (h : ∀ percent, s.fillFactor percent = .ok (some (clause percent))) :
    ∀ percent : UInt8, 1 ≤ percent → percent ≤ 100 →
      ∃ clause, s.fillFactor percent = .ok (some clause) :=
  fun percent _ _ ↦ ⟨clause percent, h percent⟩

/-- A rule that leaves all fill factors out leaves out one of those in question. -/
theorem not_gives_fillFactor (h : ∀ percent, s.fillFactor percent = .ok none) :
    ¬∀ percent : UInt8, 1 ≤ percent → percent ≤ 100 →
      ∃ clause, s.fillFactor percent = .ok (some clause) := by
  intro gives
  obtain ⟨clause, hc⟩ := gives 1 (by decide) (by decide)
  rw [h 1] at hc
  cases hc

/-- A lock has the clause that the rule has for it. -/
theorem lock_ok {rule : Lock → Option LockClause} {l : Lock} {clause : LockClause}
    (h : s.resolve .lock (·.lock) = .ok rule) : s.lock l = .ok clause ↔ rule l = some clause := by
  rw [lock, h]
  simp only [bind, Except.bind]
  cases rule l with
  | none => exact ⟨nofun, nofun⟩
  | some given =>
    constructor
    · rintro ⟨⟩
      rfl
    · rintro ⟨⟩
      rfl

/-- A lock is accepted if the rule has a clause for it. -/
theorem lock_isOk_iff {rule : Lock → Option LockClause} {l : Lock}
    (h : s.resolve .lock (·.lock) = .ok rule) :
    (∃ clause, s.lock l = .ok clause) ↔ (rule l).isSome := by
  simp only [lock_ok h, Option.isSome_iff_exists]

namespace PostgreSql

theorem nullsOrdering_eq (v : Version) :
    (PostgreSql.spelling v).nullsOrdering = .ok (v.isSince ⟨8, 3⟩) := by
  unfold PostgreSql.spelling
  by_cases h : v.isSince ⟨8, 3⟩
  · rw [if_pos h, h]
    split <;> split <;> split <;> rfl
  · rw [if_neg h, Bool.eq_false_iff.2 h]
    split <;> split <;> split <;> rfl

theorem resolve_lock_eq (v : Version) : (PostgreSql.spelling v).resolve .lock (·.lock) =
    .ok (if v.isSince ⟨8, 1⟩ then PostgreSql.lock else waitingLock) := by
  unfold PostgreSql.spelling
  split <;> split <;> split <;> split <;> rfl

theorem fillFactor_eq (v : Version) (percent : UInt8) :
    (PostgreSql.spelling v).fillFactor percent = .ok (if v.isSince ⟨8, 2⟩ then
      some s!" WITH (FILLFACTOR = {percent.toNat.repr})" else none) := by
  unfold PostgreSql.spelling
  split <;> split <;> split <;> split <;> rfl

theorem agrees (v : Version) :
    (Server.capabilities .postgreSql v).Agrees (PostgreSql.spelling v) where
  limit := ⟨_, paging_eq v, by simp [Server.capabilities]⟩
  offset := ⟨_, paging_eq v, by simp [Server.capabilities]⟩
  rowNumber := ⟨_, windowFunctions_eq v, Iff.rfl⟩
  nullsOrdering := ⟨_, nullsOrdering_eq v, Iff.rfl⟩
  skipLocked := by
    rw [lock_isOk_iff (resolve_lock_eq v)]
    split <;> exact Iff.rfl
  fillFactor := by
    change v.isSince ⟨8, 2⟩ ↔ _
    by_cases h : v.isSince ⟨8, 2⟩
    · have gives (percent : UInt8) := fillFactor_eq v percent
      simp only [if_pos h] at gives
      exact iff_of_true h (gives_fillFactor gives)
    · have omits (percent : UInt8) := fillFactor_eq v percent
      simp only [if_neg h] at omits
      exact iff_of_false h (not_gives_fillFactor omits)

end PostgreSql

namespace SqlServer

theorem nullsOrdering_eq (v : Version) : (SqlServer.spelling v).nullsOrdering = .ok false := by
  unfold SqlServer.spelling
  split <;> split <;> rfl

theorem resolve_lock_eq (v : Version) :
    (SqlServer.spelling v).resolve .lock (·.lock) = .ok SqlServer.lock := by
  unfold SqlServer.spelling
  split <;> split <;> rfl

theorem fillFactor_eq (v : Version) (percent : UInt8) :
    (SqlServer.spelling v).fillFactor percent =
      .ok (some s!" WITH (FILLFACTOR = {percent.toNat.repr})") := by
  unfold SqlServer.spelling
  split <;> split <;> rfl

theorem agrees (v : Version) :
    (Server.capabilities .sqlServer v).Agrees (SqlServer.spelling v) where
  limit := ⟨_, paging_eq v, by split <;> simp [Server.capabilities]⟩
  offset := by
    refine ⟨_, paging_eq v, ?_⟩
    change v.isSince ⟨11, 0⟩ ↔ _
    split <;> simp [*]
  rowNumber := ⟨_, windowFunctions_eq v, Iff.rfl⟩
  nullsOrdering := ⟨_, nullsOrdering_eq v, Iff.rfl⟩
  skipLocked := by
    rw [lock_isOk_iff (resolve_lock_eq v)]
    exact Iff.rfl
  fillFactor := iff_of_true rfl (gives_fillFactor (fillFactor_eq v))

end SqlServer

namespace Oracle

theorem nullsOrdering_eq (v : Version) : (Oracle.spelling v).nullsOrdering = .ok true := by
  unfold Oracle.spelling
  split <;> split <;> split <;> rfl

theorem resolve_lock_eq (v : Version) : (Oracle.spelling v).resolve .lock (·.lock) =
    .ok (if v.isSince ⟨11, 0⟩ then lock11 else Oracle.lock) := by
  unfold Oracle.spelling
  split <;> split <;> split <;> rfl

theorem fillFactor_eq (v : Version) (percent : UInt8) :
    (Oracle.spelling v).fillFactor percent = .ok (some (freeSpace percent)) := by
  unfold Oracle.spelling
  split <;> split <;> split <;> rfl

theorem agrees (v : Version) : (Server.capabilities .oracle v).Agrees (Oracle.spelling v) where
  limit := by
    refine ⟨_, paging_eq v, ?_⟩
    change v.isSince ⟨12, 0⟩ ↔ _
    split <;> simp [*]
  offset := by
    refine ⟨_, paging_eq v, ?_⟩
    change v.isSince ⟨12, 0⟩ ↔ _
    split <;> simp [*]
  rowNumber := ⟨_, windowFunctions_eq v, Iff.rfl⟩
  nullsOrdering := ⟨_, nullsOrdering_eq v, Iff.rfl⟩
  skipLocked := by
    rw [lock_isOk_iff (resolve_lock_eq v)]
    change v.isSince ⟨11, 0⟩ ↔ _
    by_cases h : v.isSince ⟨11, 0⟩
    · rw [if_pos h]
      exact iff_of_true h rfl
    · rw [if_neg h]
      exact iff_of_false h (by decide)
  fillFactor := iff_of_true rfl (gives_fillFactor (fillFactor_eq v))

end Oracle

end Spelling

/-- A server of a supported version is said to do what the spelling of the version has words
for, and nothing else. -/
theorem Server.build_agrees (dialect : Dialect) (version : Version)
    (supported : version.isSince dialect.oldest) :
    ∃ server, Server.build dialect version = .ok server ∧ server.dialect = dialect ∧
      server.version = version ∧ server.Agrees (dialect.spelling version) := by
  refine ⟨capabilities dialect version, if_pos supported, ?_, ?_, ?_⟩
  · cases dialect <;> rfl
  · cases dialect <;> rfl
  · cases dialect with
    | postgreSql => exact Spelling.PostgreSql.agrees version
    | sqlServer => exact Spelling.SqlServer.agrees version
    | oracle => exact Spelling.Oracle.agrees version

/-- Oracle 11.2 passes over locked rows and limits no rows, and both are said of it. -/
theorem Server.build_agrees_of_oracle :
    ∃ server, Server.build .oracle ⟨11, 2⟩ = .ok server ∧ server.skipLocked ∧ ¬server.limit ∧
      server.Agrees (Dialect.oracle.spelling ⟨11, 2⟩) := by
  obtain ⟨server, built, -, -, agrees⟩ := Server.build_agrees .oracle ⟨11, 2⟩ (by decide)
  refine ⟨server, built, ?_, ?_, agrees⟩ <;> (cases built; decide)

end SqlWright
