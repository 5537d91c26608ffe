import OpenKeyV.Library.Machine
import OpenKeyV.Migration
import OpenKeyV.Redis.Store

/-!
# `migrate_into_keyspace`

The scan collects the flat identities to move; then each is moved by up to
five commands.  One step is one page of the scan or one command, so a run that
stops anywhere is a migration that was cut off there.  Nobody else writes; the
clock of the server may move between any two steps.  `ValkeyStore` has the
same text.
-/

namespace OpenKeyV.Redis

open Library Program

/-- Milliseconds to live: `-2` without the key, `-1` without a deadline. -/
def pttl (key : String) : Script Int :=
  .ofFn fun s =>
    match s.find key with
    | none => (.ok (-2), s)
    | some ⟨_, none⟩ => (.ok (-1), s)
    | some ⟨_, some deadline⟩ => (.ok (deadline - s.clock), s)

structure Candidate where
  legacyKey : String
  key : String
  targetCollection : String
  deriving DecidableEq, Repr

def candidate? (keyspace : Subspace) (options : MigrationOptions)
    (identity : String) : Option Candidate :=
  match subspaceDecompoundKey keyspace identity with
  | some _ => none
  | none =>
      match decompoundKey identity with
      | .error _ => none
      | .ok (collection, key) =>
          if options.selected collection then
            match options.targetCollection collection with
            | none => none
            | some target =>
                if (stripPrefix keyspace.frame identity).isSome ∧
                    target = collection then none
                else some ⟨identity, key, target⟩
          else none

def Candidate.newKey (keyspace : Subspace) (c : Candidate) : String :=
  subspaceCompoundKey keyspace c.targetCollection c.key

/-- The next command for the current candidate, with what it has read. -/
inductive Point where
  | get
  | exists (value : Bytes)
  | pttl (value : Bytes)
  | psetex (value : Bytes) (milliseconds : Nat)
  | set (value : Bytes)
  /-- Decode the value, build a permanent entry, and `SET` it. -/
  | renew (value : Bytes)
  | sadd
  | del
  deriving DecidableEq, Repr

inductive Phase where
  | scanning (seen : List String)
  | copying (point : Point) (current : Candidate) (rest : List Candidate)
  | finished (result : Except Error Unit)

structure Migration where
  server : Server
  phase : Phase
  report : MigrationReport

inductive MigrationStep where
  | scan (page : List String) (last : Bool)
  /-- The next command; a renewal reads the clock and the random source. -/
  | command (now : DateTime) (fresh : Option Revision)
  | tick (clock : Int)
  deriving DecidableEq, Repr

def Server.liveKeys (s : Server) : List String :=
  s.objects.keys.filter fun key => (s.find key).isSome

def begin (rest : List Candidate) : Phase :=
  match rest with
  | [] => .finished (.ok ())
  | c :: rest => .copying .get c rest

namespace Migration

variable (keyspace : Subspace) (options : MigrationOptions)

def start (s : Server) : Migration :=
  ⟨s, if keyspace.isEmpty then
      .finished (.error (.invalidOperation
        "keyspace migration requires a non-empty target keyspace"))
    else .scanning [], .zero⟩

def perform {α : Type} (m : Migration) (script : Script α)
    (next : α → Phase × MigrationReport) : Migration :=
  match eval script m.server with
  | (.ok reply, s) => ⟨s, (next reply).1, (next reply).2⟩
  | (.error error, s) =>
      ⟨s, .finished (.error (mapRedisErr error)), m.report⟩

def renewed (value : Bytes) (now : DateTime) (fresh : Option Revision) :
    Except Error Bytes := do
  match ← Cas.decode (some value) with
  -- Never taken: a value that is there decodes to an entry or an error.
  | none => .error (.deserialization "no envelope")
  | some cas =>
      match fresh with
      | none => .error (.revisionGeneration "random source failed")
      | some revision =>
          return Cas.encode (ManagedEntry.new now cas.entry.value) revision

def command (m : Migration) (point : Point) (current : Candidate)
    (rest : List Candidate) (now : DateTime) (fresh : Option Revision) :
    Migration :=
  let newKey := current.newKey keyspace
  let copied := { m.report with copied := m.report.copied + 1 }
  let go (point : Point) : Phase := .copying point current rest
  match point with
  | .get => m.perform (Redis.get current.legacyKey) fun value =>
      match value with
      | none => (begin rest, m.report)
      | some value => (go (.exists value), m.report)
  | .exists value => m.perform (existsKey newKey) fun present =>
      (go (if present then .sadd
        else if options.preserveTtl then .pttl value else .renew value),
        m.report)
  | .pttl value => m.perform (Redis.pttl current.legacyKey) fun ttl =>
      if ttl = -2 ∨ ttl = 0 then
        (begin rest,
          { m.report with skippedExpired := m.report.skippedExpired + 1 })
      else if 0 < ttl then (go (.psetex value ttl.toNat), m.report)
      else (go (.set value), m.report)
  | .psetex value milliseconds =>
      m.perform (Redis.psetex newKey milliseconds value) fun _ =>
        (go .sadd, copied)
  | .set value => m.perform (Redis.set newKey value) fun _ => (go .sadd, copied)
  | .renew value =>
      match renewed value now fresh with
      | .error error => { m with phase := .finished (.error error) }
      | .ok envelope =>
          m.perform (Redis.set newKey envelope) fun _ => (go .sadd, copied)
  | .sadd =>
      m.perform (Redis.sadd (registryKey keyspace) current.targetCollection)
        fun _ => (go .del, m.report)
  | .del => m.perform (Redis.del current.legacyKey) fun _ =>
      (begin rest, m.report)

def step (m : Migration) : MigrationStep → Option Migration
  | .scan page last =>
      match m.phase with
      | .scanning seen =>
          if (∀ key ∈ page, key ∈ m.server.liveKeys) ∧
              (last = true → ∀ key ∈ m.server.liveKeys, key ∈ seen ++ page) then
            some { m with
              phase :=
                if last then
                  begin ((seen ++ page).filterMap (candidate? keyspace options))
                else .scanning (seen ++ page)
              report := { m.report with
                scanned := m.report.scanned + page.length } }
          else none
      | _ => none
  | .command now fresh =>
      match m.phase with
      | .copying point current rest =>
          some (m.command keyspace options point current rest now fresh)
      | _ => none
  | .tick clock =>
      if m.server.clock ≤ clock then
        some { m with server := { m.server with clock := clock } }
      else none

end Migration

/-- The identities that the filters hold back although their collection is
selected and mapped: those of the collection named like the keyspace, when it
keeps its name or the key reads as a compound identity. -/
def Skips (keyspace : Subspace) (collection key target : String) : Prop :=
  collection = keyspace.name ∧ (target = collection ∨
    ∃ collection' key', key = compoundKey collection' key' ∧
      collection'.utf8ByteSize < 2 ^ 64)

section Candidates

variable {keyspace : Subspace} {options : MigrationOptions}

theorem stripPrefix_frame_compoundKey (h : keyspace.isEmpty = false)
    (collection key : String) :
    (stripPrefix keyspace.frame (compoundKey collection key)).isSome = true ↔
      collection = keyspace.name := by
  rw [Option.isSome_iff_exists]
  constructor
  · rintro ⟨rest, hrest⟩
    have heq := stripPrefix_eq_some.mp hrest
    rw [← Subspace.scope, Subspace.scope_eq_compoundKey h,
      compoundKey_inj] at heq
    exact heq.1
  · rintro rfl
    refine ⟨key, stripPrefix_eq_some.mpr ?_⟩
    rw [← Subspace.scope, Subspace.scope_eq_compoundKey h]

theorem subspaceDecompoundKey_compoundKey (h : keyspace.isEmpty = false)
    (collection key : String) :
    (subspaceDecompoundKey keyspace (compoundKey collection key)).isSome =
        true ↔
      collection = keyspace.name ∧ ∃ collection' key',
        key = compoundKey collection' key' ∧
          collection'.utf8ByteSize < 2 ^ 64 := by
  rw [Option.isSome_iff_exists]
  simp only [Prod.exists, subspaceDecompoundKey_eq_some, subspaceCompoundKey,
    Subspace.scope_eq_compoundKey h, compoundKey_inj]
  constructor
  · rintro ⟨collection', key', ⟨hname, hkey⟩, hsize⟩
    exact ⟨hname, collection', key', hkey, hsize⟩
  · rintro ⟨hname, collection', key', hkey, hsize⟩
    exact ⟨collection', key', ⟨hname, hkey⟩, hsize⟩

theorem candidate?_eq_some (h : keyspace.isEmpty = false) {identity : String}
    {c : Candidate} :
    candidate? keyspace options identity = some c ↔
      ∃ collection, identity = compoundKey collection c.key ∧
        collection.utf8ByteSize < 2 ^ 64 ∧
        options.selected collection = true ∧
        options.targetCollection collection = some c.targetCollection ∧
        ¬ Skips keyspace collection c.key c.targetCollection ∧
        c.legacyKey = identity := by
  constructor
  · intro hc
    unfold candidate? at hc
    split at hc
    · cases hc
    · rename_i hforeign
      split at hc
      · cases hc
      · rename_i collection key hcut
        obtain ⟨rfl, hsize⟩ := compoundKey_of_decompoundKey hcut
        split at hc
        · rename_i hselected
          split at hc
          · cases hc
          · rename_i target htarget
            split at hc
            · cases hc
            · rename_i hkept
              cases hc
              refine ⟨collection, rfl, hsize, hselected, htarget, ?_, rfl⟩
              rintro ⟨hname, hskip⟩
              rcases hskip with hsame | hcompound
              · apply hkept
                exact ⟨(stripPrefix_frame_compoundKey h _ _).mpr hname, hsame⟩
              · have hsome := (subspaceDecompoundKey_compoundKey h collection
                  key).mpr ⟨hname, hcompound⟩
                rw [hforeign] at hsome
                cases hsome
        · cases hc
  · rintro ⟨collection, hidentity, hsize, hselected, htarget, hkept, hlegacy⟩
    have hforeign : subspaceDecompoundKey keyspace identity = none := by
      rw [← Option.not_isSome_iff_eq_none, hidentity,
        subspaceDecompoundKey_compoundKey h]
      exact fun hskip => hkept ⟨hskip.1, .inr hskip.2⟩
    have hcut := decompoundKey_eq_ok.mpr ⟨hidentity, hsize⟩
    simp only [candidate?, hforeign, hcut, hselected, if_true, htarget]
    rw [if_neg]
    · cases c
      simp_all
    · rintro ⟨hframed, hsame⟩
      rw [hidentity, stripPrefix_frame_compoundKey h] at hframed
      exact hkept ⟨hframed, .inl hsame⟩

theorem newKey_inj (h : keyspace.isEmpty = false) {first second : Candidate}
    (hfirst : candidate? keyspace options first.legacyKey = some first)
    (hsecond : candidate? keyspace options second.legacyKey = some second)
    (heq : first.newKey keyspace = second.newKey keyspace) :
    first = second := by
  obtain ⟨collection, hkey, -, -, htarget, -, -⟩ :=
    (candidate?_eq_some h).mp hfirst
  obtain ⟨collection', hkey', -, -, htarget', -, -⟩ :=
    (candidate?_eq_some h).mp hsecond
  obtain ⟨hsame, hsame'⟩ := subspaceCompoundKey_inj.mp heq
  rw [← hsame] at htarget'
  have hcollection : collection = collection' :=
    MigrationOptions.targetCollection_inj htarget htarget'
  cases first
  cases second
  simp_all

end Candidates

def Slot.text : Slot → Option Bytes
  | ⟨.string bytes, _⟩ => some bytes
  | ⟨.integer value, _⟩ => some (toString value).toUTF8.toList
  | _ => none

inductive Advances (keyspace : Subspace) (options : MigrationOptions)
    (m : Migration) (current : Candidate) (rest : List Candidate) :
    Point → Migration → Prop where
  | missing : m.server.find current.legacyKey = none →
      Advances keyspace options m current rest .get
        ⟨m.server, begin rest, m.report⟩
  | read (slot : Slot) (value : Bytes) :
      m.server.find current.legacyKey = some slot → slot.text = some value →
      Advances keyspace options m current rest .get
        ⟨m.server, .copying (.exists value) current rest, m.report⟩
  | present (value : Bytes) :
      (m.server.find (current.newKey keyspace)).isSome = true →
      Advances keyspace options m current rest (.exists value)
        ⟨m.server, .copying .sadd current rest, m.report⟩
  | absent (value : Bytes) :
      m.server.find (current.newKey keyspace) = none →
      Advances keyspace options m current rest (.exists value)
        ⟨m.server, .copying
          (if options.preserveTtl then .pttl value else .renew value)
          current rest, m.report⟩
  | expired (value : Bytes) :
      (m.server.find current.legacyKey = none ∨
        ∃ datum, m.server.find current.legacyKey =
          some ⟨datum, some m.server.clock⟩) →
      Advances keyspace options m current rest (.pttl value)
        ⟨m.server, begin rest,
          { m.report with skippedExpired := m.report.skippedExpired + 1 }⟩
  | temporary (value : Bytes) (datum : Datum) (deadline : Int) :
      m.server.find current.legacyKey = some ⟨datum, some deadline⟩ →
      m.server.clock < deadline →
      Advances keyspace options m current rest (.pttl value)
        ⟨m.server, .copying
          (.psetex value (deadline - m.server.clock).toNat) current rest,
          m.report⟩
  | permanent (value : Bytes) (datum : Datum) :
      m.server.find current.legacyKey = some ⟨datum, none⟩ →
      Advances keyspace options m current rest (.pttl value)
        ⟨m.server, .copying (.set value) current rest, m.report⟩
  | copied (point : Point) (bytes : Bytes) (deadline : Option Int) :
      (point = .set bytes ∧ deadline = none ∨
        (∃ milliseconds : Nat, point = .psetex bytes milliseconds ∧
          deadline = some (m.server.clock + milliseconds)) ∨
        ∃ value now fresh, point = .renew value ∧ deadline = none ∧
          Migration.renewed value now fresh = .ok bytes) →
      Advances keyspace options m current rest point
        ⟨m.server.store (current.newKey keyspace) ⟨.string bytes, deadline⟩,
          .copying .sadd current rest,
          { m.report with copied := m.report.copied + 1 }⟩
  | registered (members : List String) (deadline : Option Int) :
      (m.server.find (registryKey keyspace) = none ∧
          members = [current.targetCollection] ∧ deadline = none ∨
        ∃ before, m.server.find (registryKey keyspace) =
            some ⟨.set before, deadline⟩ ∧
          members = before.insert current.targetCollection) →
      Advances keyspace options m current rest .sadd
        ⟨m.server.store (registryKey keyspace) ⟨.set members, deadline⟩,
          .copying .del current rest, m.report⟩
  | deleted :
      Advances keyspace options m current rest .del
        ⟨m.server.remove current.legacyKey, begin rest, m.report⟩
  | refusedRead (slot : Slot) (error : Error) :
      m.server.find current.legacyKey = some slot → slot.text = none →
      Advances keyspace options m current rest .get
        ⟨m.server, .finished (.error error), m.report⟩
  | refusedRenewal (value : Bytes) (now : DateTime) (fresh : Option Revision)
      (error : Error) :
      Migration.renewed value now fresh = .error error →
      Advances keyspace options m current rest (.renew value)
        ⟨m.server, .finished (.error error), m.report⟩
  | refusedName (slot : Slot) (error : Error) :
      m.server.find (registryKey keyspace) = some slot →
      (∀ members, slot.datum ≠ .set members) →
      Advances keyspace options m current rest .sadd
        ⟨m.server, .finished (.error error), m.report⟩

theorem command_advances (keyspace : Subspace) (options : MigrationOptions)
    (m : Migration) (point : Point) (current : Candidate)
    (rest : List Candidate) (now : DateTime) (fresh : Option Revision) :
    Advances keyspace options m current rest point
      (m.command keyspace options point current rest now fresh) := by
  cases point with
  | get =>
      cases hslot : m.server.find current.legacyKey with
      | none =>
          simp only [Migration.command, Migration.perform, Redis.get,
            eval_ofFn, hslot]
          exact .missing hslot
      | some slot =>
          obtain ⟨datum, deadline⟩ := slot
          cases datum <;>
            simp only [Migration.command, Migration.perform, Redis.get,
              eval_ofFn, hslot]
          · exact .read _ _ hslot rfl
          · exact .read _ _ hslot rfl
          · exact .refusedRead _ _ hslot rfl
          · exact .refusedRead _ _ hslot rfl
  | «exists» value =>
      cases hslot : m.server.find (current.newKey keyspace) with
      | none =>
          simp only [Migration.command, Migration.perform, existsKey,
            eval_ofFn, hslot, Option.isSome_none, Bool.false_eq_true,
            if_false]
          exact .absent value hslot
      | some slot =>
          simp only [Migration.command, Migration.perform, existsKey,
            eval_ofFn, hslot, Option.isSome_some, if_true]
          exact .present value (by rw [hslot]; rfl)
  | pttl value =>
      cases hslot : m.server.find current.legacyKey with
      | none =>
          simp only [Migration.command, Migration.perform, Redis.pttl,
            eval_ofFn, hslot, true_or, if_true]
          exact .expired value (.inl hslot)
      | some slot =>
          obtain ⟨datum, deadline⟩ := slot
          cases deadline with
          | none =>
              simp only [Migration.command, Migration.perform, Redis.pttl,
                eval_ofFn, hslot]
              exact .permanent value datum hslot
          | some deadline =>
              have hlive : m.server.clock ≤ deadline := by
                have hfilter := (Option.filter_eq_some_iff.mp hslot).2
                simpa [Slot.live] using hfilter
              simp only [Migration.command, Migration.perform, Redis.pttl,
                eval_ofFn, hslot]
              by_cases hnow : deadline = m.server.clock
              · subst hnow
                rw [if_pos (.inr (by omega))]
                exact .expired value (.inr ⟨datum, hslot⟩)
              · rw [if_neg (by omega), if_pos (by omega)]
                exact .temporary value datum deadline hslot (by omega)
  | psetex value milliseconds =>
      exact .copied _ value _ (.inr (.inl ⟨milliseconds, rfl, rfl⟩))
  | set value => exact .copied _ value _ (.inl ⟨rfl, rfl⟩)
  | renew value =>
      simp only [Migration.command]
      cases hrenewed : Migration.renewed value now fresh with
      | error error => exact .refusedRenewal value now fresh error hrenewed
      | ok envelope =>
          exact .copied _ envelope _
            (.inr (.inr ⟨value, now, fresh, rfl, rfl, hrenewed⟩))
  | sadd =>
      cases hslot : m.server.find (registryKey keyspace) with
      | none =>
          simp only [Migration.command, Migration.perform, Redis.sadd,
            eval_ofFn, hslot]
          exact .registered _ _ (.inl ⟨hslot, rfl, rfl⟩)
      | some slot =>
          obtain ⟨datum, deadline⟩ := slot
          cases datum <;>
            simp only [Migration.command, Migration.perform, Redis.sadd,
              eval_ofFn, hslot]
          · exact .refusedName _ _ hslot (by simp)
          · exact .refusedName _ _ hslot (by simp)
          · exact .refusedName _ _ hslot (by simp)
          · exact .registered _ _ (.inr ⟨_, hslot, rfl⟩)
  | del => exact .deleted

section Step

variable {keyspace : Subspace} {options : MigrationOptions}
  {m m' : Migration}

theorem step_scan {page : List String} {last : Bool}
    (h : m.step keyspace options (.scan page last) = some m') :
    ∃ seen, m.phase = .scanning seen ∧
      (∀ key ∈ page, key ∈ m.server.liveKeys) ∧
      (last = true → ∀ key ∈ m.server.liveKeys, key ∈ seen ++ page) ∧
      m' = { m with
        phase :=
          if last then
            begin ((seen ++ page).filterMap (candidate? keyspace options))
          else .scanning (seen ++ page)
        report := { m.report with
          scanned := m.report.scanned + page.length } } := by
  simp only [Migration.step] at h
  split at h
  · rename_i seen hphase
    split at h
    · rename_i hpage
      exact ⟨seen, hphase, hpage.1, hpage.2, (Option.some.inj h).symm⟩
    · cases h
  · cases h

theorem step_command {now : DateTime} {fresh : Option Revision}
    (h : m.step keyspace options (.command now fresh) = some m') :
    ∃ point current rest, m.phase = .copying point current rest ∧
      Advances keyspace options m current rest point m' := by
  simp only [Migration.step] at h
  split at h
  · rename_i point current rest hphase
    cases h
    exact ⟨point, current, rest, hphase,
      command_advances keyspace options m point current rest now fresh⟩
  · cases h

theorem step_tick {clock : Int}
    (h : m.step keyspace options (.tick clock) = some m') :
    m.server.clock ≤ clock ∧
      m' = { m with server := { m.server with clock := clock } } := by
  simp only [Migration.step] at h
  split at h
  · rename_i hle
    exact ⟨hle, (Option.some.inj h).symm⟩
  · cases h

theorem begin_copying {rest : List Candidate} {point : Point}
    {current : Candidate} {rest' : List Candidate}
    (h : begin rest = .copying point current rest') :
    rest = current :: rest' ∧ point = .get := by
  cases rest with
  | nil => cases h
  | cons c rest =>
      cases h
      exact ⟨rfl, rfl⟩

theorem begin_ne_scanning (rest : List Candidate) (seen : List String) :
    begin rest ≠ .scanning seen := by
  cases rest <;> simp [begin]

end Step

end OpenKeyV.Redis
