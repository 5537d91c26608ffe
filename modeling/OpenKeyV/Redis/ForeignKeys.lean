import OpenKeyV.Redis.Isolation
import OpenKeyV.Redis.Migration

/-!
# Foreign keys in the way of a migration

A key of another keyspace reads as a flat identity whose collection has the
name of that keyspace, and an internal key of the target as one whose
collection has the name of the target.  The scan takes them for legacy
identities when that collection is selected and mapped.
-/

namespace OpenKeyV.Redis

open Library Program

section Foreign

variable (target : Subspace) (others : List Subspace)
  (options : MigrationOptions)

inductive InternalKey (keyspace : Subspace) : String → Prop where
  | revision : InternalKey keyspace (revisionKey keyspace)
  | stream : InternalKey keyspace (streamKey keyspace)
  | registry : InternalKey keyspace (registryKey keyspace)

/-- The keys of the other keyspaces and the internal keys of the target. -/
def Foreign (key : String) : Prop :=
  (∃ other ∈ others, PhysicalKey other key) ∨ InternalKey target key

/-- The step reads a foreign key as an entry. -/
def ReadsForeign (m : Migration) : MigrationStep → Prop
  | .command _ _ => ∃ current rest, m.phase = .copying .get current rest ∧
      Foreign target others current.legacyKey
  | _ => False

/-- Compared with the database that the migration found, the keys of the other
keyspaces are as they were, and of the internal keys of the target only the
registry has been written. -/
structure Untouched (s : Server) (m : Migration) : Prop where
  others : ∀ other ∈ others, ∀ key, PhysicalKey other key →
    m.server.objects.lookup key = s.objects.lookup key
  revision : m.server.objects.lookup (revisionKey target) =
    s.objects.lookup (revisionKey target)
  stream : m.server.objects.lookup (streamKey target) =
    s.objects.lookup (streamKey target)
  registry : (s.objects.lookup (registryKey target)).isSome = true →
    (m.server.objects.lookup (registryKey target)).isSome = true

/-- No run of the migration reads, moves or deletes a foreign key. -/
def SparesForeign (s : Server) : Prop :=
  ∀ labels,
    Along (Migration.step target options)
      (fun m label => ¬ ReadsForeign target others m label)
      (.start target s) labels ∧
    ∀ m, run (Migration.step target options) (.start target s) labels =
      some m → Untouched target others s m

def Mapped (name : String) : Prop :=
  name.utf8ByteSize < 2 ^ 64 ∧ options.selected name = true ∧
    (options.targetCollection name).isSome = true

def Renamed (name : String) : Prop :=
  name.utf8ByteSize < 2 ^ 64 ∧ options.selected name = true ∧
    ∃ renamed, options.targetCollection name = some renamed ∧ renamed ≠ name

/-- No other keyspace with keys in the database is named like a collection
that the options move; if the target has internal keys, it is not named like
one that the options rename. -/
def NamesApart (s : Server) : Prop :=
  (∀ other ∈ others,
    (∃ key, PhysicalKey other key ∧ (s.find key).isSome = true) →
      ¬ Mapped options other.name) ∧
  ((∃ key, InternalKey target key ∧ (s.find key).isSome = true) →
    ¬ Renamed options target.name)

end Foreign

section Candidates

variable {target : Subspace} {options : MigrationOptions}

theorem physicalKey_eq_compoundKey {keyspace : Subspace} {key : String}
    (h : PhysicalKey keyspace key) (hkeyspace : keyspace.isEmpty = false) :
    ∃ rest, key = compoundKey keyspace.name rest := by
  obtain ⟨rest, rfl⟩ := h.within
  exact ⟨rest, Subspace.scope_eq_compoundKey hkeyspace rest⟩

theorem InternalKey.name {keyspace : Subspace} {key : String}
    (h : InternalKey keyspace key) (hkeyspace : keyspace.isEmpty = false) :
    ∃ name, key = compoundKey keyspace.name name ∧
      ∀ collection key, name ≠ compoundKey collection key := by
  have hname : ∀ name : String, name.toList.head? = some '_' →
      ∀ collection key, name ≠ compoundKey collection key := by
    intro name hhead collection key heq
    have hscope := subspaceCompoundKey_ne_scope keyspace collection key name
      hhead
    apply hscope
    rw [heq]
    rfl
  cases h with
  | revision =>
      exact ⟨_, Subspace.scope_eq_compoundKey hkeyspace _,
        hname _ (by decide)⟩
  | stream =>
      exact ⟨_, Subspace.scope_eq_compoundKey hkeyspace _,
        hname _ (by decide)⟩
  | registry =>
      exact ⟨_, Subspace.scope_eq_compoundKey hkeyspace _,
        hname _ (by decide)⟩

theorem candidate_of_other_iff (htarget : target.isEmpty = false)
    {other : Subspace} (hother : other.isEmpty = false) (hne : other ≠ target)
    {key : String} (hkey : PhysicalKey other key) :
    (∃ c, candidate? target options key = some c) ↔
      Mapped options other.name := by
  obtain ⟨rest, rfl⟩ := physicalKey_eq_compoundKey hkey hother
  have hname : other.name ≠ target.name := by
    intro heq
    apply hne
    cases other
    cases target
    exact congrArg Subspace.mk heq
  simp only [candidate?_eq_some htarget, compoundKey_inj]
  constructor
  · rintro ⟨c, collection, ⟨rfl, -⟩, hsize, hselected, hmapped, -⟩
    exact ⟨hsize, hselected, by rw [hmapped]; rfl⟩
  · rintro ⟨hsize, hselected, hmapped⟩
    obtain ⟨renamed, hrenamed⟩ := Option.isSome_iff_exists.mp hmapped
    refine ⟨⟨_, rest, renamed⟩, other.name, ⟨rfl, rfl⟩, hsize, hselected,
      hrenamed, ?_, rfl⟩
    exact fun hskip => hname hskip.1

theorem candidate_of_internal_iff (htarget : target.isEmpty = false)
    {key : String} (hkey : InternalKey target key) :
    (∃ c, candidate? target options key = some c) ↔
      Renamed options target.name := by
  obtain ⟨name, rfl, hname⟩ := hkey.name htarget
  simp only [candidate?_eq_some htarget, compoundKey_inj]
  constructor
  · rintro ⟨c, collection, ⟨rfl, hrest⟩, hsize, hselected, hmapped, hkept, -⟩
    refine ⟨hsize, hselected, c.targetCollection, hmapped, fun hsame => ?_⟩
    exact hkept ⟨rfl, .inl hsame⟩
  · rintro ⟨hsize, hselected, renamed, hrenamed, hne⟩
    refine ⟨⟨_, name, renamed⟩, target.name, ⟨rfl, rfl⟩, hsize, hselected,
      hrenamed, ?_, rfl⟩
    rintro ⟨-, hsame | ⟨collection, key, hcompound, -⟩⟩
    · exact hne hsame
    · exact hname collection key hcompound

end Candidates

section Runs

variable {target : Subspace} {others : List Subspace}
  {options : MigrationOptions} {s : Server}

/-- What a run keeps when no foreign key that exists is a candidate. -/
structure Spares (target : Subspace) (others : List Subspace)
    (s : Server) (m : Migration) : Prop where
  clock : s.clock ≤ m.server.clock
  untouched : Untouched target others s m
  scanning : ∀ seen, m.phase = .scanning seen →
    m.server.objects = s.objects ∧ ∀ key ∈ seen, (s.find key).isSome = true
  copying : ∀ point current rest, m.phase = .copying point current rest →
    ∀ c ∈ current :: rest, ¬ Foreign target others c.legacyKey

theorem live_of_later {s s' : Server} (hclock : s.clock ≤ s'.clock)
    (hobjects : s'.objects = s.objects) {key : String}
    (h : (s'.find key).isSome = true) : (s.find key).isSome = true := by
  have hsame : s' = { s with clock := s'.clock } := by
    cases s'
    cases s
    simp_all
  rw [hsame, Server.find_tick s key hclock] at h
  cases hfind : s.find key with
  | none => simp [hfind] at h
  | some slot => rfl

section Writes

variable {m : Migration} {report : MigrationReport} {phase : Phase}

theorem Untouched.store (htarget : target.isEmpty = false)
    (hothers : ∀ other ∈ others, other.isEmpty = false ∧ other ≠ target)
    (h : Untouched target others s m) {key : String} (slot : Slot)
    (hkey : Within target key) (hrevision : key ≠ revisionKey target)
    (hstream : key ≠ streamKey target) :
    Untouched target others s ⟨m.server.store key slot, phase, report⟩ := by
  have hlookup : ∀ key', key' ≠ key →
      (m.server.store key slot).objects.lookup key' =
        m.server.objects.lookup key' := by
    intro key' hne
    rw [Server.store, KeyedMap.lookup_insert_eq, if_neg hne]
  constructor
  · intro other hother key' hkey'
    rw [hlookup, h.others other hother key' hkey']
    rintro rfl
    obtain ⟨hempty, hne⟩ := hothers other hother
    exact not_within_of_ne htarget hempty hne.symm hkey'.within hkey
  · rw [hlookup _ hrevision.symm, h.revision]
  · rw [hlookup _ hstream.symm, h.stream]
  · intro hsome
    by_cases heq : registryKey target = key
    · simp [Server.store, heq]
    · rw [hlookup _ heq]
      exact h.registry hsome

theorem Untouched.remove (h : Untouched target others s m) {key : String}
    (hkey : ¬ Foreign target others key) :
    Untouched target others s ⟨m.server.remove key, phase, report⟩ := by
  have hlookup : ∀ key', key' ≠ key →
      (m.server.remove key).objects.lookup key' =
        m.server.objects.lookup key' := by
    intro key' hne
    rw [Server.remove, KeyedMap.lookup_erase_eq, if_neg hne]
  constructor
  · intro other hother key' hkey'
    rw [hlookup, h.others other hother key' hkey']
    rintro rfl
    exact hkey (.inl ⟨other, hother, hkey'⟩)
  · rw [hlookup _ fun heq => hkey (.inr (heq ▸ .revision)), h.revision]
  · rw [hlookup _ fun heq => hkey (.inr (heq ▸ .stream)), h.stream]
  · rw [hlookup _ fun heq => hkey (.inr (heq ▸ .registry))]
    exact h.registry

theorem Untouched.of_server (h : Untouched target others s m) :
    Untouched target others s ⟨m.server, phase, report⟩ :=
  ⟨h.others, h.revision, h.stream, h.registry⟩

end Writes

theorem spares_start (target : Subspace) (others : List Subspace)
    (s : Server) : Spares target others s (.start target s) where
  clock := Int.le_refl _
  untouched := ⟨fun _ _ _ _ => rfl, rfl, rfl, id⟩
  scanning := by
    intro seen hseen
    simp only [Migration.start] at hseen ⊢
    split at hseen
    · cases hseen
    · cases hseen
      simp
  copying := by
    intro point current rest hphase
    simp only [Migration.start] at hphase
    split at hphase <;> cases hphase

theorem spares_command (htarget : target.isEmpty = false)
    (hothers : ∀ other ∈ others, other.isEmpty = false ∧ other ≠ target)
    {m m' : Migration} {point : Point} {current : Candidate}
    {rest : List Candidate} (h : Spares target others s m)
    (hphase : m.phase = .copying point current rest)
    (hstep : Advances target options m current rest point m') :
    Spares target others s m' := by
  have hforeign := h.copying point current rest hphase
  have hcurrent := hforeign current List.mem_cons_self
  have hrest : ∀ point' current' rest', begin rest = .copying point' current'
      rest' → ∀ c ∈ current' :: rest', ¬ Foreign target others c.legacyKey := by
    intro point' current' rest' hbegin c hc
    rw [← (begin_copying hbegin).1] at hc
    exact hforeign c (List.mem_cons_of_mem _ hc)
  have hsame : ∀ {point'} {point'' : Point} {current' : Candidate}
      {rest' : List Candidate}, Phase.copying point' current rest =
        .copying point'' current' rest' →
      ∀ c ∈ current' :: rest', ¬ Foreign target others c.legacyKey := by
    intro point' point'' current' rest' heq c hc
    cases heq
    exact hforeign c hc
  have hwritten : Within target (current.newKey target) :=
    PhysicalKey.within (.entry current.targetCollection current.key)
  cases hstep with
  | missing _ =>
      exact ⟨h.clock, h.untouched.of_server,
        fun seen hseen => absurd hseen (begin_ne_scanning _ _), hrest⟩
  | expired value _ =>
      exact ⟨h.clock, h.untouched.of_server,
        fun seen hseen => absurd hseen (begin_ne_scanning _ _), hrest⟩
  | read _ _ _ _ | present _ _ | absent _ _ | temporary _ _ _ _ _
  | permanent _ _ _ =>
      exact ⟨h.clock, h.untouched.of_server,
        (fun seen hseen => nomatch hseen), fun _ _ _ => hsame⟩
  | copied point bytes deadline _ =>
      refine ⟨h.clock, ?_, (fun seen hseen => nomatch hseen),
        fun _ _ _ => hsame⟩
      exact h.untouched.store htarget hothers _ hwritten
        (entryKey_ne_revisionKey _ _ _) (entryKey_ne_streamKey _ _ _)
  | registered members deadline _ =>
      refine ⟨h.clock, ?_, (fun seen hseen => nomatch hseen),
        fun _ _ _ => hsame⟩
      exact h.untouched.store htarget hothers _ PhysicalKey.registry.within
        (by simp) (by simp)
  | deleted =>
      exact ⟨h.clock, h.untouched.remove hcurrent,
        fun seen hseen => absurd hseen (begin_ne_scanning _ _), hrest⟩
  | refusedRead _ _ _ _ | refusedRenewal _ _ _ _ _ | refusedName _ _ _ _ =>
      exact ⟨h.clock, h.untouched.of_server,
        (fun seen hseen => nomatch hseen), (fun _ _ _ hseen => nomatch hseen)⟩

theorem not_foreign_of_candidate (htarget : target.isEmpty = false)
    (hothers : ∀ other ∈ others, other.isEmpty = false ∧ other ≠ target)
    (hapart : NamesApart target others options s) {c : Candidate}
    {identity : String} (hlive : (s.find identity).isSome = true)
    (hc : candidate? target options identity = some c) :
    ¬ Foreign target others identity := by
  rintro (⟨other, hother, hkey⟩ | hkey)
  · obtain ⟨hempty, hne⟩ := hothers other hother
    apply hapart.1 other hother ⟨identity, hkey, hlive⟩
    exact (candidate_of_other_iff htarget hempty hne hkey).mp ⟨c, hc⟩
  · apply hapart.2 ⟨identity, hkey, hlive⟩
    exact (candidate_of_internal_iff htarget hkey).mp ⟨c, hc⟩

theorem spares_step (htarget : target.isEmpty = false)
    (hothers : ∀ other ∈ others, other.isEmpty = false ∧ other ≠ target)
    (hapart : NamesApart target others options s) {m m' : Migration}
    {label : MigrationStep} (h : Spares target others s m)
    (hstep : m.step target options label = some m') :
    Spares target others s m' := by
  cases label with
  | scan page last =>
      obtain ⟨seen, hphase, hpage, -, rfl⟩ := step_scan hstep
      obtain ⟨hobjects, hseen⟩ := h.scanning seen hphase
      have hlive : ∀ key ∈ seen ++ page, (s.find key).isSome = true := by
        intro key hkey
        rcases List.mem_append.mp hkey with hkey | hkey
        · exact hseen key hkey
        · have hnow := (List.mem_filter.mp (hpage key hkey)).2
          exact live_of_later h.clock hobjects hnow
      refine ⟨h.clock, h.untouched.of_server, ?_, ?_⟩
      · intro seen' hseen'
        cases last with
        | true => exact absurd hseen' (begin_ne_scanning _ _)
        | false =>
            cases hseen'
            exact ⟨hobjects, hlive⟩
      · intro point current rest hcopying c hc
        cases last with
        | false => cases hcopying
        | true =>
            rw [← (begin_copying hcopying).1, List.mem_filterMap] at hc
            obtain ⟨identity, hidentity, hcandidate⟩ := hc
            obtain ⟨_, -, -, -, -, -, hlegacy⟩ :=
              (candidate?_eq_some htarget).mp hcandidate
            rw [hlegacy]
            exact not_foreign_of_candidate htarget hothers hapart
              (hlive identity hidentity) hcandidate
  | command now fresh =>
      obtain ⟨point, current, rest, hphase, hadvance⟩ := step_command hstep
      exact spares_command htarget hothers h hphase hadvance
  | tick clock =>
      obtain ⟨hle, rfl⟩ := step_tick hstep
      refine ⟨Int.le_trans h.clock hle, ?_, h.scanning, h.copying⟩
      exact ⟨h.untouched.others, h.untouched.revision, h.untouched.stream,
        h.untouched.registry⟩

theorem sparesForeign_of_namesApart (htarget : target.isEmpty = false)
    (hothers : ∀ other ∈ others, other.isEmpty = false ∧ other ≠ target)
    (hapart : NamesApart target others options s) :
    SparesForeign target others options s := by
  intro labels
  have hkeeps : ∀ m label m', Spares target others s m → True →
      m.step target options label = some m' → Spares target others s m' :=
    fun m label m' h _ hstep => spares_step htarget hothers hapart h hstep
  have htrue : Along (Migration.step target options) (fun _ _ => True)
      (.start target s) labels := along_true _ labels
  constructor
  · apply along_of_invariant hkeeps _ (spares_start target others s) htrue
    intro m label h _ hreads
    cases label with
    | command now fresh =>
        obtain ⟨current, rest, hphase, hforeign⟩ := hreads
        exact h.copying _ _ _ hphase current List.mem_cons_self hforeign
    | scan page last => exact hreads
    | tick clock => exact hreads
  · intro m hrun
    exact (run_invariant hkeeps (spares_start target others s) htrue
      hrun).untouched

theorem reads_of_candidate (htarget : target.isEmpty = false)
    {identity : String} {c : Candidate}
    (hlive : (s.find identity).isSome = true)
    (hc : candidate? target options identity = some c)
    (hforeign : Foreign target others identity) :
    ¬ SparesForeign target others options s := by
  intro hspares
  have hmem : identity ∈ s.liveKeys := by
    apply List.mem_filter.mpr
    refine ⟨?_, hlive⟩
    obtain ⟨slot, hslot⟩ := Option.isSome_iff_exists.mp hlive
    exact KeyedMap.mem_keys_iff.mpr
      ⟨slot, (Option.filter_eq_some_iff.mp hslot).1⟩
  obtain ⟨_, -, -, -, -, -, hlegacy⟩ := (candidate?_eq_some htarget).mp hc
  let found := s.liveKeys.filterMap (candidate? target options)
  have hscan : run (Migration.step target options) (.start target s)
      [.scan (identity :: s.liveKeys) true] =
        some ⟨s, .copying .get c found,
          { MigrationReport.zero with
            scanned := (identity :: s.liveKeys).length }⟩ := by
    have hpage : (∀ key ∈ identity :: s.liveKeys, key ∈ s.liveKeys) ∧
        (true = true → ∀ key ∈ s.liveKeys,
          key ∈ [] ++ identity :: s.liveKeys) := by
      constructor
      · intro key hkey
        rcases List.mem_cons.mp hkey with rfl | hkey
        · exact hmem
        · exact hkey
      · intro _ key hkey
        exact List.mem_cons_of_mem _ hkey
    have hstart : Migration.start target s = ⟨s, .scanning [], .zero⟩ := by
      simp [Migration.start, htarget]
    rw [hstart, run_cons_eq_some]
    refine ⟨_, ?_, rfl⟩
    unfold Migration.step
    dsimp only
    rw [if_pos hpage]
    simp [begin, found, hc, MigrationReport.zero]
  obtain ⟨halong, -⟩ := hspares
    ([.scan (identity :: s.liveKeys) true] ++ [.command .epoch none])
  apply halong.at_step hscan
  exact ⟨c, found, rfl, by rwa [hlegacy]⟩

theorem namesApart_of_sparesForeign (htarget : target.isEmpty = false)
    (hothers : ∀ other ∈ others, other.isEmpty = false ∧ other ≠ target)
    (hspares : SparesForeign target others options s) :
    NamesApart target others options s := by
  constructor
  · rintro other hother ⟨key, hkey, hlive⟩ hmapped
    obtain ⟨hempty, hne⟩ := hothers other hother
    obtain ⟨c, hc⟩ :=
      (candidate_of_other_iff htarget hempty hne hkey).mpr hmapped
    exact reads_of_candidate htarget hlive hc (.inl ⟨other, hother, hkey⟩)
      hspares
  · rintro ⟨key, hkey, hlive⟩ hrenamed
    obtain ⟨c, hc⟩ := (candidate_of_internal_iff htarget hkey).mpr hrenamed
    exact reads_of_candidate htarget hlive hc (.inr hkey) hspares

end Runs

/-- Whatever the database holds, a migration leaves the keys of other
keyspaces and the internal keys of its target alone exactly when no such key
that exists has the name of a moved, or renamed, collection in front. -/
theorem migration_spares_foreign_iff (target : Subspace)
    (others : List Subspace) (options : MigrationOptions) (s : Server)
    (htarget : target.isEmpty = false)
    (hothers : ∀ other ∈ others, other.isEmpty = false ∧ other ≠ target) :
    SparesForeign target others options s ↔
      NamesApart target others options s :=
  ⟨namesApart_of_sparesForeign htarget hothers,
    sparesForeign_of_namesApart htarget hothers⟩

def oneCollection : MigrationOptions :=
  { MigrationOptions.default with collections := ["c"] }

theorem migration_spares_neighbour :
    SparesForeign ⟨"app"⟩ [⟨"1"⟩] oneCollection neighbour := by
  apply (migration_spares_foreign_iff ⟨"app"⟩ [⟨"1"⟩] oneCollection neighbour
    (by decide) (by decide)).mpr
  constructor
  · rintro other hother - ⟨-, hselected, -⟩
    obtain rfl := List.mem_singleton.mp hother
    exact absurd hselected (by decide)
  · rintro ⟨key, hkey, -⟩ ⟨-, hselected, -⟩
    exact absurd hselected (by decide)

/-- With the default options the entry of a neighbouring keyspace is taken for
a legacy one. -/
theorem migration_reads_neighbour :
    ¬ ∀ (target : Subspace) (others : List Subspace)
      (options : MigrationOptions) (s : Server), target.isEmpty = false →
      (∀ other ∈ others, other.isEmpty = false ∧ other ≠ target) →
      SparesForeign target others options s := by
  intro h
  have hspares := h ⟨"app"⟩ [⟨"1"⟩] .default neighbour (by decide) (by decide)
  have hapart := namesApart_of_sparesForeign (by decide) (by decide) hspares
  apply hapart.1 ⟨"1"⟩ List.mem_cons_self
  · exact ⟨_, .entry "c" "k", by simp [neighbour]⟩
  · exact ⟨by decide, rfl, rfl⟩

end OpenKeyV.Redis
