import OpenKeyV.Redis.Progress

/-!
# What a finished migration has moved

Every flat entry whose collection is selected and mapped has arrived, unless
the filters of the scan hold it back.
-/

namespace OpenKeyV.Redis

open Library Program

section Statement

variable (keyspace : Subspace) (options : MigrationOptions)
  (legacy : String → String → Prop) (s s' : Server)

/-- An entry as a store without keyspace writes it. -/
structure FlatEntry (s : Server) (collection key : String) (slot : Slot) :
    Prop where
  size : collection.utf8ByteSize < 2 ^ 64
  find : s.find (compoundKey collection key) = some slot
  written : ∃ entry revision,
    slot.datum = .string (Cas.encode entry revision) ∧ entry.value.Storable

/-- An entry of a selected collection, mapped to `target`, that has not
expired at the end. -/
structure Due (collection key target : String) (slot : Slot) : Prop where
  legacy : legacy collection key
  entry : FlatEntry s collection key slot
  selected : options.selected collection = true
  mapped : options.targetCollection collection = some target
  outlives : ∀ deadline, slot.deadline = some deadline → s'.clock < deadline

/-- The flat identity has gone, and under the new one is what was there, as
long as that lived, or the value of the entry. -/
def Arrived (collection key target : String) (slot : Slot) : Prop :=
  s'.find (compoundKey collection key) = none ∧
  ∃ moved,
    s'.objects.lookup (subspaceCompoundKey keyspace target key) = some moved ∧
    (s.find (subspaceCompoundKey keyspace target key) = some moved ∨
      moved.value = slot.value ∧ moved.live s'.clock = true ∧
        ∀ old, s.find (subspaceCompoundKey keyspace target key) = some old →
          old.live s'.clock = false)

def Complete : Prop :=
  ∀ collection key target slot,
    Due options legacy s s' collection key target slot →
      Arrived keyspace s s' collection key target slot

/-- The scan holds back no entry that is due. -/
def NoneSkipped : Prop :=
  ∀ collection key target slot,
    Due options legacy s s' collection key target slot →
      ¬ Skips keyspace collection key target

end Statement

section Values

theorem value_of_written {slot : Slot} {entry : ManagedEntry}
    {revision : Revision}
    (hslot : slot.datum = .string (Cas.encode entry revision))
    (hstorable : entry.value.Storable) : slot.value = some entry.value := by
  obtain ⟨datum, deadline⟩ := slot
  cases hslot
  apply Slot.value_eq_some.mpr
  exact ⟨_, _, rfl, Cas.decode_encode entry revision hstorable.1 hstorable.2,
    rfl⟩

theorem Move.IsCopy.value {options : MigrationOptions} {since clock : Int}
    {e : Move} {slot : Slot} (h : IsCopy options since clock e slot)
    {entry : ManagedEntry} {revision : Revision}
    (hbytes : e.bytes = Cas.encode entry revision)
    (hstorable : entry.value.Storable) : slot.value = some entry.value := by
  cases h with
  | preserved deadline hpreserve hdeadline =>
      exact value_of_written (congrArg Datum.string hbytes) hstorable
  | renewed envelope now fresh hpreserve hrenewed =>
      have hdecode := Cas.decode_encode entry revision hstorable.1 hstorable.2
      simp only [Migration.renewed, hbytes, hdecode, bind, Except.bind]
        at hrenewed
      cases fresh with
      | none => cases hrenewed
      | some fresh =>
          cases hrenewed
          exact @value_of_written _ (.new now entry.value) fresh rfl hstorable

theorem Move.IsCopy.live {options : MigrationOptions} {since clock : Int}
    {e : Move} {slot : Slot} (h : IsCopy options since clock e slot)
    (hfresh : ¬ e.Expired clock) : slot.live clock = true := by
  cases h with
  | renewed envelope now fresh hpreserve hrenewed => rfl
  | preserved deadline hpreserve hdeadline =>
      rcases hdeadline with ⟨-, rfl⟩ | ⟨d, d', hd, rfl, hle, -⟩
      · rfl
      · simp only [Slot.live, decide_eq_true_eq]
        by_contra hlt
        exact hfresh ⟨d, hd, by omega⟩

end Values

section Arrival

variable {keyspace : Subspace} {options : MigrationOptions}
  {legacy : String → String → Prop} {s : Server} {m : Migration}
  {labels : List MigrationStep} {collection key target : String} {slot : Slot}

theorem Due.candidate (h : keyspace.isEmpty = false)
    (hdue : Due options legacy s m.server collection key target slot)
    (hkept : ¬ Skips keyspace collection key target) :
    candidate? keyspace options (compoundKey collection key) =
      some ⟨compoundKey collection key, key, target⟩ :=
  (candidate?_eq_some h).mpr
    ⟨collection, rfl, hdue.entry.size, hdue.selected, hdue.mapped, hkept, rfl⟩

theorem Due.skipped (h : keyspace.isEmpty = false)
    (hdue : Due options legacy s m.server collection key target slot)
    (hskip : Skips keyspace collection key target) :
    candidate? keyspace options (compoundKey collection key) = none := by
  cases hcandidate : candidate? keyspace options (compoundKey collection key)
  with
  | none => rfl
  | some c =>
      obtain ⟨collection', heq, -, -, hmapped, hkept, -⟩ :=
        (candidate?_eq_some h).mp hcandidate
      obtain ⟨rfl, rfl⟩ := compoundKey_inj.mp heq
      rw [hdue.mapped] at hmapped
      cases hmapped
      exact absurd hskip hkept

theorem complete_of_noneSkipped (hkeyspace : keyspace.isEmpty = false)
    (hsize : Addressable keyspace options s)
    (hrun : run (Migration.step keyspace options) (.start keyspace s) labels =
      some m)
    (hok : m.phase = .finished (.ok ()))
    (h : NoneSkipped keyspace options legacy s m.server) :
    Complete keyspace options legacy s m.server := by
  intro collection key target slot hdue
  have hcandidate := hdue.candidate hkeyspace (h _ _ _ _ hdue)
  obtain ⟨entry, revision, hdatum, hstorable⟩ := hdue.entry.written
  obtain ⟨e, hmove, hbytes, hdeadline⟩ : ∃ e : Move,
      e.candidate = ⟨compoundKey collection key, key, target⟩ ∧
        e.bytes = Cas.encode entry revision ∧ e.deadline = slot.deadline :=
    ⟨⟨_, _, _⟩, rfl, rfl, rfl⟩
  have hslot : e.slot = slot := by
    rw [Move.slot, hbytes, hdeadline, ← hdatum]
  have hfresh : ¬ e.Expired m.server.clock := by
    rintro ⟨deadline, hexpires, hle⟩
    have hlt := hdue.outlives deadline (hdeadline ▸ hexpires)
    omega
  have hfind : s.find e.candidate.legacyKey = some e.slot := by
    rw [hmove, hslot]
    exact hdue.entry.find
  have hcandidate' : candidate? keyspace options e.candidate.legacyKey =
      some e.candidate := by
    rw [hmove]
    exact hcandidate
  have htrack := Move.track_run hkeyspace hcandidate' hsize hfind hrun hfresh
  simp only [Move.Track, hok] at htrack
  obtain ⟨hgone, ⟨moved, hmoved, horigin⟩, -⟩ := htrack
  rw [hmove] at hgone hmoved horigin
  refine ⟨by rw [Server.find, hgone]; rfl, moved, hmoved, ?_⟩
  rcases horigin with hold | ⟨hcopy, hdead⟩
  · exact .inl hold
  · right
    refine ⟨?_, hcopy.live hfresh, hdead⟩
    rw [hcopy.value hbytes hstorable, value_of_written hdatum hstorable]

theorem noneSkipped_of_complete (hkeyspace : keyspace.isEmpty = false)
    (hsize : Addressable keyspace options s)
    (hrun : run (Migration.step keyspace options) (.start keyspace s) labels =
      some m)
    (h : Complete keyspace options legacy s m.server) :
    NoneSkipped keyspace options legacy s m.server := by
  intro collection key target slot hdue hskip
  obtain ⟨entry, revision, hdatum, hstorable⟩ := hdue.entry.written
  have hlive : slot.live m.server.clock = true := by
    cases hdeadline : slot.deadline with
    | none => simp [Slot.live, hdeadline]
    | some deadline =>
        have hlt := hdue.outlives deadline hdeadline
        simp only [Slot.live, hdeadline, decide_eq_true_eq]
        omega
  have htext : slot.text.isSome = true := by
    cases slot
    cases hdatum
    rfl
  have hkept := kept_run hkeyspace hsize (hdue.skipped hkeyspace hskip) htext
    hdue.entry.find hrun hlive
  rw [(h _ _ _ _ hdue).1] at hkept
  cases hkept

end Arrival

/-- A migration that returns without an error has moved every entry that was
due exactly when none of them is in the collection named like the target
keyspace while that collection keeps its name or the key reads as a compound
identity. -/
theorem migration_completes_iff (keyspace : Subspace)
    (options : MigrationOptions) (s : Server)
    (legacy : String → String → Prop) (labels : List MigrationStep)
    (m : Migration) (hkeyspace : keyspace.isEmpty = false)
    (hsize : Addressable keyspace options s)
    (hrun : run (Migration.step keyspace options) (.start keyspace s) labels =
      some m)
    (hok : m.phase = .finished (.ok ())) :
    Complete keyspace options legacy s m.server ↔
      NoneSkipped keyspace options legacy s m.server :=
  ⟨noneSkipped_of_complete hkeyspace hsize hrun,
    complete_of_noneSkipped hkeyspace hsize hrun hok⟩

section Single

def oneEntry (collection key : String) : Server :=
  (Server.empty 0).store (compoundKey collection key)
    ⟨.string (Cas.encode (.new .epoch .null) (.fill 0)), none⟩

variable {keyspace : Subspace} {collection key : String}

theorem find_oneEntry (key' : String) :
    (oneEntry collection key).find key' =
      if key' = compoundKey collection key then
        some ⟨.string (Cas.encode (.new .epoch .null) (.fill 0)), none⟩
      else none := by
  simp [oneEntry]

theorem storable_null : Value.null.Storable := ⟨rfl, by decide⟩

theorem flatEntry_oneEntry (h : collection.utf8ByteSize < 2 ^ 64) :
    FlatEntry (oneEntry collection key) collection key
      ⟨.string (Cas.encode (.new .epoch .null) (.fill 0)), none⟩ := by
  refine ⟨h, ?_, .new .epoch .null, .fill 0, rfl, storable_null⟩
  rw [find_oneEntry, if_pos rfl]

theorem addressable_default (h : keyspace.isEmpty = false) (s : Server) :
    Addressable keyspace .default s := by
  intro key hkey c hc
  obtain ⟨collection, -, hsize, -, hmapped, -⟩ := (candidate?_eq_some h).mp hc
  cases hmapped
  exact hsize

theorem oneEntry_completion (h : keyspace.isEmpty = false)
    (hkey : registryKey keyspace ≠ compoundKey collection key) :
    ∃ labels m, run (Migration.step keyspace .default)
        (.start keyspace (oneEntry collection key)) labels = some m ∧
      m.phase = .finished (.ok ()) ∧
      m.server.clock = (oneEntry collection key).clock := by
  apply exists_completion h (addressable_default h _)
  intro _
  constructor
  · cases hcandidate : candidate? keyspace .default (registryKey keyspace) with
    | none => rfl
    | some c =>
        obtain ⟨-, -, renamed, hrenamed, hne⟩ :=
          (candidate_of_internal_iff h .registry).mp ⟨c, hcandidate⟩
        exact absurd (Option.some.inj hrenamed).symm hne
  · have hserver : (Migration.start keyspace
        (oneEntry collection key)).server = oneEntry collection key := rfl
    constructor
    · intro key' c hc slot hslot
      rw [hserver, find_oneEntry] at hslot
      split at hslot
      · cases hslot
        rw [@value_of_written _ (.new .epoch .null) (.fill 0) rfl storable_null]
        rfl
      · cases hslot
    · intro slot hslot
      rw [hserver, find_oneEntry, if_neg hkey] at hslot
      cases hslot
    · intro point current rest hphase
      simp only [Migration.start] at hphase
      split at hphase <;> cases hphase

end Single

theorem migration_completes_one :
    ∃ labels m, run (Migration.step ⟨"app"⟩ .default)
        (.start ⟨"app"⟩ (oneEntry "c" "k")) labels = some m ∧
      Arrived ⟨"app"⟩ (oneEntry "c" "k") m.server "c" "k" "c"
        ⟨.string (Cas.encode (.new .epoch .null) (.fill 0)), none⟩ := by
  obtain ⟨labels, m, hrun, hok, hclock⟩ :=
    @oneEntry_completion ⟨"app"⟩ "c" "k" (by decide) (by decide)
  refine ⟨labels, m, hrun, ?_⟩
  have hcomplete := (migration_completes_iff ⟨"app"⟩ .default
    (oneEntry "c" "k") (fun collection _ => collection = "c") labels m
    (by decide) (addressable_default (by decide) _) hrun hok).mpr (by
      rintro collection key target slot hdue ⟨hname, -⟩
      rw [hdue.legacy] at hname
      exact absurd hname (by decide))
  apply hcomplete
  exact ⟨rfl, flatEntry_oneEntry (by decide), rfl, rfl,
    fun _ hdeadline => nomatch hdeadline⟩

/-- An entry of the collection named like the target stays where it is. -/
theorem migration_leaves_own_collection :
    ¬ ∀ (keyspace : Subspace) (options : MigrationOptions) (s : Server)
      (legacy : String → String → Prop) (labels : List MigrationStep)
      (m : Migration), keyspace.isEmpty = false →
      Addressable keyspace options s →
      run (Migration.step keyspace options) (.start keyspace s) labels =
        some m →
      m.phase = .finished (.ok ()) →
      Complete keyspace options legacy s m.server := by
  intro h
  obtain ⟨labels, m, hrun, hok, hclock⟩ :=
    @oneEntry_completion ⟨"app"⟩ "app" "k" (by decide) (by decide)
  have hsize := @addressable_default ⟨"app"⟩ (by decide) (oneEntry "app" "k")
  have hcomplete := h ⟨"app"⟩ .default (oneEntry "app" "k")
    (fun _ _ => True) labels m (by decide) hsize hrun hok
  have hskipped := noneSkipped_of_complete (by decide) hsize hrun hcomplete
  apply hskipped "app" "k" "app"
    ⟨.string (Cas.encode (.new .epoch .null) (.fill 0)), none⟩
  · exact ⟨trivial, flatEntry_oneEntry (by decide), rfl, rfl,
      fun _ hdeadline => nomatch hdeadline⟩
  · exact ⟨rfl, .inl rfl⟩

end OpenKeyV.Redis
