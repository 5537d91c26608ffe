import OpenKeyV.Redis.Arrival

/-!
# Migrations that are cut off and run again

A migration may be cut off between any two commands and started again on what
it has left.  The invariant relates what is there at any time to the database
`s` that the first attempt found.
-/

namespace OpenKeyV.Redis

open Library Program

section Statement

variable (keyspace : Subspace) (options : MigrationOptions) (s : Server)

def attempt (m : Migration) : Option MigrationStep → Option Migration
  | some label => m.step keyspace options label
  | none => some (.start keyspace m.server)

/-- Every key that reads as a flat identity holds an entry. -/
def FlatDatabase : Prop :=
  ∀ collection key slot, collection.utf8ByteSize < 2 ^ 64 →
    s.find (compoundKey collection key) = some slot →
    FlatEntry s collection key slot

/-- Nothing that was there at the beginning has expired. -/
def Unexpired (clock : Int) : Prop :=
  ∀ key slot, s.find key = some slot →
    ∀ deadline, slot.deadline = some deadline → clock < deadline

def Listed (c : Candidate) : Prop :=
  candidate? keyspace options c.legacyKey = some c ∧
    (s.find c.legacyKey).isSome = true

/-- If anything is to be moved: no new key is the flat identity of an entry
with another value, the collection named like the keyspace is not renamed, and
no entry is in the place of the registry. -/
structure Resumable : Prop where
  apart : ∀ c, Listed keyspace options s c → ∀ slot old,
    s.find c.legacyKey = some slot →
    s.find (c.newKey keyspace) = some old → old.value = slot.value
  kept : (∃ c, Listed keyspace options s c) → ¬ Renamed options keyspace.name
  registry : (∃ c, Listed keyspace options s c) →
    s.find (registryKey keyspace) = none

def Server.membersAt (s : Server) (key : String) : List String :=
  match s.find key with
  | some ⟨.set members, _⟩ => members
  | _ => []

/-- The entry can be read under its flat identity or under the new one. -/
def Readable (s' : Server) (collection key : String) (slot : Slot) : Prop :=
  s'.find (compoundKey collection key) = some slot ∨
  options.selected collection = true ∧
    ∃ target moved, options.targetCollection collection = some target ∧
      s'.find (subspaceCompoundKey keyspace target key) = some moved ∧
      moved.value = slot.value

/-- The same value, and both permanent or with lives that differ by no more
than the time each run took. -/
structure SameEntry (elapsed elapsed' : Int) (slot slot' : Slot) : Prop where
  value : slot.value = slot'.value
  lifetime : slot.deadline = none ∧ slot'.deadline = none ∨
    ∃ d d', slot.deadline = some d ∧ slot'.deadline = some d' ∧
      d ≤ d' + elapsed ∧ d' ≤ d + elapsed'

/-- The same entries and the same registered collections. -/
structure SameOutcome (s' s'' : Server) : Prop where
  entries : ∀ key, key ≠ registryKey keyspace →
    s'.find key = none ∧ s''.find key = none ∨
      ∃ slot slot', s'.find key = some slot ∧ s''.find key = some slot' ∧
        SameEntry (s'.clock - s.clock) (s''.clock - s.clock) slot slot'
  registry : ∀ name, name ∈ s'.membersAt (registryKey keyspace) ↔
    name ∈ s''.membersAt (registryKey keyspace)

/-- The state that the attempts have reached while nothing expired. -/
def Reaches (labels : List (Option MigrationStep)) (m : Migration) : Prop :=
  run (attempt keyspace options) (.start keyspace s) labels = some m ∧
    Unexpired s m.server.clock

structure CrashSafe : Prop where
  /-- Wherever the attempts stop, no entry is lost. -/
  readable : ∀ labels m, Reaches keyspace options s labels m →
    ∀ collection key slot, FlatEntry s collection key slot →
      Readable keyspace options m.server collection key slot
  /-- Only the random source can end an attempt with an error. -/
  errors : ∀ labels m, Reaches keyspace options s labels m →
    (∀ now, some (.command now none) ∉ labels) →
    ∀ error, m.phase ≠ .finished (.error error)
  completes : ∀ labels m, Reaches keyspace options s labels m →
    ∃ labels' m', run (Migration.step keyspace options)
        (.start keyspace m.server) labels' = some m' ∧
      m'.phase = .finished (.ok ()) ∧ m'.server.clock = m.server.clock
  /-- However often it was cut off, a completed migration has one outcome. -/
  agrees : ∀ labels labels' m m', Reaches keyspace options s labels m →
    Reaches keyspace options s labels' m' → m.phase = .finished (.ok ()) →
    m'.phase = .finished (.ok ()) →
    SameOutcome keyspace s m.server m'.server
  /-- A further attempt does nothing. -/
  further : ∀ labels m, Reaches keyspace options s labels m →
    m.phase = .finished (.ok ()) → ∀ labels' m',
    run (Migration.step keyspace options) (.start keyspace m.server) labels' =
      some m' →
    m'.server.objects = m.server.objects ∧ m'.report.copied = 0 ∧
      ∀ error, m'.phase ≠ .finished (.error error)

end Statement

/-! ## The invariant -/

section Invariant

variable {keyspace : Subspace} {options : MigrationOptions} {s : Server}
  {m m' : Migration}

structure Held (keyspace : Subspace) (options : MigrationOptions)
    (s s' : Server) : Prop where
  others : ∀ key, (∀ c, Listed keyspace options s c → key ≠ c.legacyKey ∧
      key ≠ c.newKey keyspace ∧ key ≠ registryKey keyspace) →
    s'.objects.lookup key = s.objects.lookup key
  registry : (∃ c, Listed keyspace options s c) →
    s'.HoldsSet (registryKey keyspace)
  named : ∀ name ∈ s'.membersAt (registryKey keyspace),
    name ∈ s.membersAt (registryKey keyspace) ∨
      ∃ c, Listed keyspace options s c ∧ c.targetCollection = name
  gone : ∀ c, Listed keyspace options s c →
    s'.objects.lookup c.legacyKey = none →
    c.targetCollection ∈ s'.membersAt (registryKey keyspace)

structure Resuming (keyspace : Subspace) (options : MigrationOptions)
    (s : Server) (m : Migration) : Prop where
  clock : s.clock ≤ m.server.clock
  sound : ∃ start, Sound keyspace options start m ∧
    Addressable keyspace options start ∧ s.clock ≤ start.clock
  held : Held keyspace options s m.server
  scanning : ∀ seen, m.phase = .scanning seen → ∀ key ∈ seen, ∀ c,
    candidate? keyspace options key = some c → Listed keyspace options s c
  listed : ∀ point current rest, m.phase = .copying point current rest →
    ∀ c ∈ current :: rest, Listed keyspace options s c
  deleting : ∀ current rest, m.phase = .copying .del current rest →
    current.targetCollection ∈ m.server.membersAt (registryKey keyspace)

theorem Listed.same {c c' : Candidate} (h : Listed keyspace options s c)
    (h' : Listed keyspace options s c') (heq : c.legacyKey = c'.legacyKey) :
    c = c' := Move.eq_of_legacyKey h.1 h'.1 heq

theorem Listed.size (hsize : Addressable keyspace options s) {c : Candidate}
    (h : Listed keyspace options s c) :
    c.targetCollection.utf8ByteSize < 2 ^ 64 := by
  obtain ⟨slot, hslot⟩ := Option.isSome_iff_exists.mp h.2
  have hlookup := (Option.filter_eq_some_iff.mp hslot).1
  exact hsize _ (KeyedMap.mem_keys_iff.mpr ⟨_, hlookup⟩) c h.1

theorem registry_not_candidate (hkeyspace : keyspace.isEmpty = false)
    (h : ¬ Renamed options keyspace.name) :
    candidate? keyspace options (registryKey keyspace) = none := by
  cases hcandidate : candidate? keyspace options (registryKey keyspace) with
  | none => rfl
  | some c =>
      have hrenamed : Renamed options keyspace.name :=
        (candidate_of_internal_iff hkeyspace .registry).mp ⟨c, hcandidate⟩
      exact absurd hrenamed h

section Keys

variable (hkeyspace : keyspace.isEmpty = false)
  (hsize : Addressable keyspace options s)
  (hresumable : Resumable keyspace options s)

include hkeyspace hsize hresumable

theorem Listed.legacyKey_ne {c c' : Candidate} {key : String}
    (h : Listed keyspace options s c)
    (hkey : candidate? keyspace options key = some c') :
    key ≠ c.newKey keyspace ∧ key ≠ registryKey keyspace := by
  constructor
  · rintro rfl
    rw [candidate?_newKey (h.size hsize)] at hkey
    cases hkey
  · rintro rfl
    rw [registry_not_candidate hkeyspace (hresumable.kept ⟨c, h⟩)] at hkey
    cases hkey

theorem Held.lookup_candidate {s' : Server} (h : Held keyspace options s s')
    {key : String} {c : Candidate}
    (hcandidate : candidate? keyspace options key = some c)
    (hs : s.find key = none) :
    s'.objects.lookup key = s.objects.lookup key := by
  apply h.others
  intro c' hc'
  have hne := hc'.legacyKey_ne hkeyspace hsize hresumable hcandidate
  refine ⟨?_, hne⟩
  rintro rfl
  have hlive := hc'.2
  rw [hs] at hlive
  cases hlive

theorem Resuming.listed_of_find (h : Resuming keyspace options s m)
    {key : String} {c : Candidate}
    (hcandidate : candidate? keyspace options key = some c)
    (hlive : (m.server.find key).isSome = true) :
    Listed keyspace options s c := by
  obtain ⟨_, -, -, -, -, -, hlegacy⟩ :=
    (candidate?_eq_some hkeyspace).mp hcandidate
  refine ⟨by rw [hlegacy]; exact hcandidate, ?_⟩
  rw [hlegacy]
  by_contra hs
  rw [Option.not_isSome_iff_eq_none] at hs
  have hlookup := h.held.lookup_candidate hkeyspace hsize hresumable
    hcandidate hs
  obtain ⟨slot, hslot⟩ := Option.isSome_iff_exists.mp hlive
  obtain ⟨hfound, hnow⟩ := Option.filter_eq_some_iff.mp hslot
  rw [hlookup] at hfound
  rw [Server.find, hfound] at hs
  have hdead := Option.filter_eq_none_iff.mp hs slot rfl
  rw [live_of_le h.clock hnow] at hdead
  exact hdead rfl

theorem Resuming.addressable (h : Resuming keyspace options s m) :
    Addressable keyspace options m.server := by
  intro key hkey c hcandidate
  obtain ⟨slot, hslot⟩ := KeyedMap.mem_keys_iff.mp hkey
  cases hs : s.find key with
  | some old =>
      have hlookup := (Option.filter_eq_some_iff.mp hs).1
      exact hsize key (KeyedMap.mem_keys_iff.mpr ⟨_, hlookup⟩) c hcandidate
  | none =>
      have hlookup := h.held.lookup_candidate hkeyspace hsize hresumable
        hcandidate hs
      rw [hlookup] at hslot
      exact hsize key (KeyedMap.mem_keys_iff.mpr ⟨_, hslot⟩) c hcandidate

end Keys

/-! ## Steps keep it -/

section Server

variable {s' : Server}

theorem membersAt_congr {s' s'' : Server} {key : String}
    (h : s''.find key = s'.find key) : s''.membersAt key = s'.membersAt key := by
  simp only [Server.membersAt, h]

theorem mem_membersAt {s' : Server} {key name : String} :
    name ∈ s'.membersAt key ↔ ∃ members deadline,
      s'.find key = some ⟨.set members, deadline⟩ ∧ name ∈ members := by
  unfold Server.membersAt
  cases hfind : s'.find key with
  | none => simp
  | some slot =>
      obtain ⟨datum, deadline⟩ := slot
      cases datum <;> simp

theorem Server.HoldsSet.later {s' : Server} {key : String}
    (h : s'.HoldsSet key) {clock : Int} (hle : s'.clock ≤ clock) :
    Server.find { s' with clock := clock } key = s'.find key := by
  rw [Server.find_tick _ _ hle]
  rcases h with hnone | ⟨members, hset⟩
  · rw [hnone]
    rfl
  · rw [hset]
    rfl

variable (hkeyspace : keyspace.isEmpty = false)
  (hsize : Addressable keyspace options s)
  (hresumable : Resumable keyspace options s)

theorem Held.later (h : Held keyspace options s s') {clock : Int}
    (hle : s'.clock ≤ clock) :
    Held keyspace options s { s' with clock := clock } := by
  refine ⟨h.others, ?_, ?_, ?_⟩
  · intro hlisted
    have hset := h.registry hlisted
    rw [Server.HoldsSet, hset.later hle]
    exact hset
  · intro name hname
    apply h.named
    obtain ⟨members, deadline, hfind, hmem⟩ := mem_membersAt.mp hname
    rw [Server.find_tick _ _ hle] at hfind
    have hbefore := (Option.filter_eq_some_iff.mp hfind).1
    exact mem_membersAt.mpr ⟨members, deadline, hbefore, hmem⟩
  · intro c hc hnone
    rw [membersAt_congr ((h.registry ⟨c, hc⟩).later hle)]
    exact h.gone c hc hnone

include hkeyspace hsize hresumable

theorem Held.store_entry (h : Held keyspace options s s') {current : Candidate}
    (hcurrent : Listed keyspace options s current) (slot : Slot) :
    Held keyspace options s (s'.store (current.newKey keyspace) slot) := by
  have hne : registryKey keyspace ≠ current.newKey keyspace :=
    registryKey_ne_entryKey _ _ _
  have hregistry : (s'.store (current.newKey keyspace) slot).find
      (registryKey keyspace) = s'.find (registryKey keyspace) := by
    rw [Server.find_store, if_neg hne]
  refine ⟨?_, ?_, ?_, ?_⟩
  · intro key hkey
    have hne := (hkey current hcurrent).2.1
    rw [Server.store, KeyedMap.lookup_insert_eq, if_neg hne]
    exact h.others key hkey
  · intro hlisted
    rw [Server.HoldsSet, hregistry]
    exact h.registry hlisted
  · rw [membersAt_congr hregistry]
    exact h.named
  · intro c hc hnone
    have hne := (hcurrent.legacyKey_ne hkeyspace hsize hresumable hc.1).1
    rw [Server.store, KeyedMap.lookup_insert_eq, if_neg hne] at hnone
    rw [membersAt_congr hregistry]
    exact h.gone c hc hnone

theorem Held.store_name (h : Held keyspace options s s') {current : Candidate}
    (hcurrent : Listed keyspace options s current) {members : List String}
    {deadline : Option Int}
    (hset : s'.find (registryKey keyspace) = none ∧
        members = [current.targetCollection] ∧ deadline = none ∨
      ∃ before, s'.find (registryKey keyspace) = some ⟨.set before, deadline⟩ ∧
        members = before.insert current.targetCollection) :
    Held keyspace options s
        (s'.store (registryKey keyspace) ⟨.set members, deadline⟩) ∧
      current.targetCollection ∈ (s'.store (registryKey keyspace)
        ⟨.set members, deadline⟩).membersAt (registryKey keyspace) := by
  have hpermanent : deadline = none := by
    rcases hset with ⟨-, -, rfl⟩ | ⟨before, hbefore, -⟩
    · rfl
    · rcases h.registry ⟨current, hcurrent⟩ with hnone | ⟨names, hnames⟩
      · rw [hnone] at hbefore
        cases hbefore
      · rw [hnames] at hbefore
        cases hbefore
        rfl
  subst hpermanent
  have hmembers : (s'.store (registryKey keyspace)
      ⟨.set members, none⟩).membersAt (registryKey keyspace) = members := by
    simp [Server.membersAt]
  have hname : ∀ name, name ∈ members ↔
      name = current.targetCollection ∨
        name ∈ s'.membersAt (registryKey keyspace) := by
    intro name
    rcases hset with ⟨hnone, rfl, -⟩ | ⟨before, hbefore, rfl⟩
    · simp [Server.membersAt, hnone]
    · simp [Server.membersAt, hbefore]
  rw [hmembers]
  refine ⟨⟨?_, ?_, ?_, ?_⟩, (hname _).mpr (.inl rfl)⟩
  · intro key hkey
    have hne := (hkey current hcurrent).2.2
    rw [Server.store, KeyedMap.lookup_insert_eq, if_neg hne]
    exact h.others key hkey
  · intro _
    exact .inr ⟨members, by simp⟩
  · rw [hmembers]
    intro name hmem
    rcases (hname name).mp hmem with rfl | hbefore
    · exact .inr ⟨current, hcurrent, rfl⟩
    · exact h.named name hbefore
  · rw [hmembers]
    intro c hc hnone
    have hne := (hcurrent.legacyKey_ne hkeyspace hsize hresumable hc.1).2
    rw [Server.store, KeyedMap.lookup_insert_eq, if_neg hne] at hnone
    exact (hname _).mpr (.inr (h.gone c hc hnone))

theorem Held.remove (h : Held keyspace options s s') {current : Candidate}
    (hcurrent : Listed keyspace options s current)
    (hnamed : current.targetCollection ∈
      s'.membersAt (registryKey keyspace)) :
    Held keyspace options s (s'.remove current.legacyKey) := by
  have hne := (hcurrent.legacyKey_ne hkeyspace hsize hresumable hcurrent.1).2
  have hregistry : (s'.remove current.legacyKey).find (registryKey keyspace) =
      s'.find (registryKey keyspace) := by
    rw [Server.find_remove, if_neg hne.symm]
  refine ⟨?_, ?_, ?_, ?_⟩
  · intro key hkey
    rw [Server.remove, KeyedMap.lookup_erase_eq,
      if_neg (hkey current hcurrent).1]
    exact h.others key hkey
  · intro hlisted
    rw [Server.HoldsSet, hregistry]
    exact h.registry hlisted
  · rw [membersAt_congr hregistry]
    exact h.named
  · intro c hc hnone
    rw [membersAt_congr hregistry]
    by_cases heq : c.legacyKey = current.legacyKey
    · rw [hc.same hcurrent heq]
      exact hnamed
    · rw [Server.remove, KeyedMap.lookup_erase_eq, if_neg heq] at hnone
      exact h.gone c hc hnone

end Server

section Step

theorem resuming_start (hsize : Addressable keyspace options s)
    (hkeyspace : keyspace.isEmpty = false)
    (hresumable : Resumable keyspace options s) :
    Resuming keyspace options s (.start keyspace s) where
  clock := Int.le_refl _
  sound := ⟨s, sound_start keyspace options s, hsize, Int.le_refl _⟩
  held := by
    refine ⟨fun _ _ => rfl, ?_, fun name hname => .inl hname, ?_⟩
    · exact fun hlisted => .inl (hresumable.registry hlisted)
    · intro c hc hnone
      have hlive := hc.2
      simp [Server.find, show s.objects.lookup c.legacyKey = none from hnone]
        at hlive
  scanning := by
    intro seen hseen
    simp only [Migration.start, hkeyspace, Bool.false_eq_true, if_false]
      at hseen
    cases hseen
    simp
  listed := by
    intro point current rest hcopying
    simp [Migration.start, hkeyspace] at hcopying
  deleting := by
    intro current rest hcopying
    simp [Migration.start, hkeyspace] at hcopying

variable (hkeyspace : keyspace.isEmpty = false)
  (hsize : Addressable keyspace options s)
  (hresumable : Resumable keyspace options s)

include hkeyspace hsize hresumable

theorem Resuming.cut (h : Resuming keyspace options s m) :
    Resuming keyspace options s (.start keyspace m.server) where
  clock := h.clock
  sound := ⟨m.server, sound_start keyspace options m.server,
    h.addressable hkeyspace hsize hresumable, h.clock⟩
  held := h.held
  scanning := by
    intro seen hseen
    simp only [Migration.start, hkeyspace, Bool.false_eq_true, if_false]
      at hseen
    cases hseen
    simp
  listed := by
    intro point current rest hcopying
    simp [Migration.start, hkeyspace] at hcopying
  deleting := by
    intro current rest hcopying
    simp [Migration.start, hkeyspace] at hcopying

theorem resuming_command (h : Resuming keyspace options s m)
    (hsound : ∃ start, Sound keyspace options start m' ∧
      Addressable keyspace options start ∧ s.clock ≤ start.clock)
    {point : Point} {current : Candidate} {rest : List Candidate}
    (hphase : m.phase = .copying point current rest)
    (hstep : Advances keyspace options m current rest point m') :
    Resuming keyspace options s m' := by
  have hlisted := h.listed point current rest hphase
  have hcurrent := hlisted current List.mem_cons_self
  have hclock : s.clock ≤ m'.server.clock := by
    rw [Move.advances_clock hstep]
    exact h.clock
  have hscanning : ∀ seen, m'.phase = .scanning seen → ∀ key ∈ seen, ∀ c,
      candidate? keyspace options key = some c →
        Listed keyspace options s c :=
    fun seen hseen => absurd hseen (advances_ne_scanning hstep seen)
  have hnext : ∀ point' current' rest', begin rest = .copying point' current'
      rest' → ∀ c ∈ current' :: rest', Listed keyspace options s c := by
    intro point' current' rest' hbegin c hc
    rw [← (begin_copying hbegin).1] at hc
    exact hlisted c (List.mem_cons_of_mem _ hc)
  have hdeleting : ∀ {server : Server} current' rest',
      begin rest = .copying .del current' rest' →
        current'.targetCollection ∈ server.membersAt (registryKey keyspace) := by
    intro server current' rest' hbegin
    cases (begin_copying hbegin).2
  have hsame : ∀ {point' point'' : Point} {current' : Candidate}
      {rest' : List Candidate}, Phase.copying point' current rest =
        .copying point'' current' rest' →
      ∀ c ∈ current' :: rest', Listed keyspace options s c := by
    intro point' point'' current' rest' heq c hc
    cases heq
    exact hlisted c hc
  cases hstep with
  | missing _ =>
      exact ⟨hclock, hsound, h.held, hscanning, hnext, hdeleting⟩
  | expired _ _ =>
      exact ⟨hclock, hsound, h.held, hscanning, hnext, hdeleting⟩
  | absent value _ =>
      refine ⟨hclock, hsound, h.held, hscanning, fun _ _ _ => hsame, ?_⟩
      intro current' rest' hcopying
      cases hpreserve : options.preserveTtl <;> simp [hpreserve] at hcopying
  | read _ _ _ _ | present _ _ | temporary _ _ _ _ _ | permanent _ _ _ =>
      exact ⟨hclock, hsound, h.held, hscanning, fun _ _ _ => hsame,
        (fun _ _ hcopying => nomatch hcopying)⟩
  | refusedRead _ _ _ _ | refusedRenewal _ _ _ _ _ | refusedName _ _ _ _ =>
      exact ⟨hclock, hsound, h.held, hscanning,
        (fun _ _ _ hcopying => nomatch hcopying),
        (fun _ _ hcopying => nomatch hcopying)⟩
  | copied point bytes deadline _ =>
      exact ⟨hclock, hsound,
        h.held.store_entry hkeyspace hsize hresumable hcurrent _, hscanning,
        fun _ _ _ => hsame, (fun _ _ hcopying => nomatch hcopying)⟩
  | registered members deadline hset =>
      obtain ⟨hheld, hmem⟩ :=
        h.held.store_name hkeyspace hsize hresumable hcurrent hset
      refine ⟨hclock, hsound, hheld, hscanning, fun _ _ _ => hsame, ?_⟩
      intro current' rest' hcopying
      cases hcopying
      exact hmem
  | deleted =>
      exact ⟨hclock, hsound, h.held.remove hkeyspace hsize hresumable hcurrent
        (h.deleting current rest hphase), hscanning, hnext, hdeleting⟩

theorem resuming_step (h : Resuming keyspace options s m)
    {label : MigrationStep}
    (hstep : m.step keyspace options label = some m') :
    Resuming keyspace options s m' := by
  have hsound : ∃ start, Sound keyspace options start m' ∧
      Addressable keyspace options start ∧ s.clock ≤ start.clock := by
    obtain ⟨start, hsound, haddressable, hclock⟩ := h.sound
    exact ⟨start, sound_step hkeyspace haddressable hsound hstep, haddressable,
      hclock⟩
  cases label with
  | scan page last =>
      obtain ⟨seen, hphase, hpage, -, rfl⟩ := step_scan hstep
      have hknown : ∀ key ∈ seen ++ page, ∀ c,
          candidate? keyspace options key = some c →
            Listed keyspace options s c := by
        intro key hkey c hc
        rcases List.mem_append.mp hkey with hkey | hkey
        · exact h.scanning seen hphase key hkey c hc
        · exact h.listed_of_find hkeyspace hsize hresumable hc
            (List.mem_filter.mp (hpage key hkey)).2
      refine ⟨h.clock, hsound, h.held, ?_, ?_, ?_⟩
      · intro seen' hseen'
        cases last with
        | true => exact absurd hseen' (begin_ne_scanning _ _)
        | false =>
            cases hseen'
            exact hknown
      · intro point current rest hcopying c hc
        cases last with
        | false => cases hcopying
        | true =>
            rw [← (begin_copying hcopying).1, List.mem_filterMap] at hc
            obtain ⟨key, hkey, hcandidate⟩ := hc
            exact hknown key hkey c hcandidate
      · intro current rest hcopying
        cases last with
        | false => cases hcopying
        | true => cases (begin_copying hcopying).2
  | command now fresh =>
      obtain ⟨point, current, rest, hphase, hadvance⟩ := step_command hstep
      exact resuming_command hkeyspace hsize hresumable h hsound hphase hadvance
  | tick clock =>
      obtain ⟨hle, rfl⟩ := step_tick hstep
      refine ⟨Int.le_trans h.clock hle, hsound, h.held.later hle, h.scanning,
        h.listed, ?_⟩
      intro current rest hphase
      have hcurrent := h.listed _ current rest hphase current List.mem_cons_self
      rw [membersAt_congr ((h.held.registry ⟨current, hcurrent⟩).later hle)]
      exact h.deleting current rest hphase

end Step

end Invariant

/-! ## Every state that is reached -/

section Reached

variable {keyspace : Subspace} {options : MigrationOptions} {s : Server}
  {m m' : Migration}

structure Reached (keyspace : Subspace) (options : MigrationOptions)
    (s : Server) (m : Migration) : Prop where
  resuming : Resuming keyspace options s m
  clear : (∃ c, Listed keyspace options s c) → Clear keyspace options m
  tracked : Unexpired s m.server.clock → ∀ e : Move,
    Listed keyspace options s e.candidate →
    s.find e.candidate.legacyKey = some e.slot →
    e.Track keyspace options s m
  kept : Unexpired s m.server.clock → ∀ key slot,
    candidate? keyspace options key = none → slot.text.isSome = true →
    s.find key = some slot → m.server.find key = some slot

theorem Unexpired.earlier {clock clock' : Int} (hle : clock ≤ clock')
    (h : Unexpired s clock') : Unexpired s clock := by
  intro key slot hslot deadline hdeadline
  have hlt := h key slot hslot deadline hdeadline
  omega

theorem Unexpired.not_expired {clock : Int} (h : Unexpired s clock) {e : Move}
    (hslot : s.find e.candidate.legacyKey = some e.slot) :
    ¬ e.Expired clock := by
  rintro ⟨deadline, hdeadline, hle⟩
  have hlt := h _ _ hslot deadline hdeadline
  omega

theorem Unexpired.live {clock : Int} (h : Unexpired s clock) {key : String}
    {slot : Slot} (hslot : s.find key = some slot) : slot.live clock = true := by
  cases hdeadline : slot.deadline with
  | none => simp [Slot.live, hdeadline]
  | some deadline =>
      have hlt := h key slot hslot deadline hdeadline
      simp only [Slot.live, hdeadline, decide_eq_true_eq]
      omega

theorem Move.Track.place {e : Move} (h : e.Track keyspace options s m) :
    e.Waiting keyspace options s m.server ∨
      e.Moved keyspace options s m.server := by
  unfold Track at h
  split at h
  · exact h
  · exact h.imp And.left And.left
  · exact .inr h
  · exact h

theorem Listed.move (hkeyspace : keyspace.isEmpty = false)
    (hflat : FlatDatabase s) {c : Candidate}
    (h : Listed keyspace options s c) :
    ∃ (e : Move) (entry : ManagedEntry) (revision : Revision),
      e.candidate = c ∧ s.find c.legacyKey = some e.slot ∧
        e.bytes = Cas.encode entry revision ∧ entry.value.Storable := by
  obtain ⟨collection, hidentity, hsize, -⟩ :=
    (candidate?_eq_some hkeyspace).mp h.1
  obtain ⟨slot, hslot⟩ := Option.isSome_iff_exists.mp h.2
  have hentry := hflat collection c.key slot hsize (hidentity ▸ hslot)
  obtain ⟨entry, revision, hdatum, hstorable⟩ := hentry.written
  refine ⟨⟨c, Cas.encode entry revision, slot.deadline⟩, entry, revision, rfl,
    ?_, rfl, hstorable⟩
  rw [hslot, Move.slot, ← hdatum]

section Steps

variable (hkeyspace : keyspace.isEmpty = false)
  (hsize : Addressable keyspace options s)
  (hresumable : Resumable keyspace options s)

include hkeyspace hsize hresumable

theorem reached_start (hflat : FlatDatabase s) :
    Reached keyspace options s (.start keyspace s) where
  resuming := resuming_start hsize hkeyspace hresumable
  clear := by
    intro hlisted
    constructor
    · intro key c hc slot hslot
      obtain ⟨collection, hidentity, hsize, -⟩ :=
        (candidate?_eq_some hkeyspace).mp hc
      subst hidentity
      obtain ⟨entry, revision, hdatum, hstorable⟩ :=
        (hflat collection c.key slot hsize hslot).written
      rw [value_of_written hdatum hstorable]
      rfl
    · intro slot hslot
      have hnone : (Migration.start keyspace s).server.find
          (registryKey keyspace) = none := hresumable.registry hlisted
      rw [hnone] at hslot
      cases hslot
    · intro point current rest hcopying
      simp [Migration.start, hkeyspace] at hcopying
  tracked := by
    intro _ e _ hslot
    have hlookup := (Option.filter_eq_some_iff.mp hslot).1
    simp only [Move.Track, Migration.start, hkeyspace, Bool.false_eq_true,
      if_false]
    exact .inl ⟨hlookup, .inl rfl⟩
  kept := fun _ _ _ _ _ hfind => hfind

theorem reached_cut (h : Reached keyspace options s m) :
    Reached keyspace options s (.start keyspace m.server) where
  resuming := h.resuming.cut hkeyspace hsize hresumable
  clear := by
    intro hlisted
    have hclear := h.clear hlisted
    refine ⟨hclear.entries, hclear.registry, ?_⟩
    intro point current rest hcopying
    simp [Migration.start, hkeyspace] at hcopying
  tracked := by
    intro hfresh e hlisted hslot
    have hplace := (h.tracked hfresh e hlisted hslot).place
    simp only [Move.Track, Migration.start, hkeyspace, Bool.false_eq_true,
      if_false]
    exact hplace
  kept := h.kept

theorem reached_step (h : Reached keyspace options s m) {label : MigrationStep}
    (hstep : m.step keyspace options label = some m') :
    Reached keyspace options s m' where
  resuming := resuming_step hkeyspace hsize hresumable h.resuming hstep
  clear := by
    intro hlisted
    obtain ⟨start, hsound, -⟩ := h.resuming.sound
    apply clear_step (h.clear hlisted) hsound _ hstep
    intro _ _ _ _
    exact registry_not_candidate hkeyspace (hresumable.kept hlisted)
  tracked := by
    intro hfresh e hlisted hslot
    have hbefore := hfresh.earlier (Move.step_clock_le hstep)
    obtain ⟨start, hsound, -, hclock⟩ := h.resuming.sound
    exact Move.track_step hkeyspace hlisted.1 (hlisted.size hsize) hclock hsound
      (h.tracked hbefore e hlisted hslot) hstep (hfresh.not_expired hslot)
  kept := by
    intro hfresh key slot hcandidate htext hfind
    have hbefore := hfresh.earlier (Move.step_clock_le hstep)
    obtain ⟨start, hsound, -⟩ := h.resuming.sound
    exact kept_step hsound hcandidate htext
      (h.kept hbefore key slot hcandidate htext hfind) hstep
      (hfresh.live hfind)

theorem reached_attempt (h : Reached keyspace options s m)
    {label : Option MigrationStep}
    (hstep : attempt keyspace options m label = some m') :
    Reached keyspace options s m' := by
  cases label with
  | some label => exact reached_step hkeyspace hsize hresumable h hstep
  | none =>
      cases hstep
      exact reached_cut hkeyspace hsize hresumable h

theorem reached_run (hflat : FlatDatabase s)
    {labels : List (Option MigrationStep)}
    (hrun : run (attempt keyspace options) (.start keyspace s) labels =
      some m) : Reached keyspace options s m := by
  have hstep : ∀ m label m', Reached keyspace options s m → True →
      attempt keyspace options m label = some m' →
        Reached keyspace options s m' :=
    fun m label m' h _ hstep =>
      reached_attempt hkeyspace hsize hresumable h hstep
  exact run_invariant hstep (reached_start hkeyspace hsize hresumable hflat)
    (along_true _ labels) hrun

end Steps

theorem attempt_ne_error (hkeyspace : keyspace.isEmpty = false)
    (h : Reached keyspace options s m)
    (herror : ∀ error, m.phase ≠ .finished (.error error))
    {label : Option MigrationStep} (hlabel : ∀ now, label ≠
      some (.command now none))
    (hstep : attempt keyspace options m label = some m') (error : Error) :
    m'.phase ≠ .finished (.error error) := by
  cases label with
  | none =>
      cases hstep
      simp [Migration.start, hkeyspace]
  | some label =>
      replace hstep : m.step keyspace options label = some m' := hstep
      cases label with
      | scan page last =>
          obtain ⟨seen, -, -, -, rfl⟩ := step_scan hstep
          cases last with
          | false => simp
          | true =>
              simp only [if_true, begin]
              split <;> simp
      | tick clock =>
          obtain ⟨-, rfl⟩ := step_tick hstep
          exact herror error
      | command now fresh =>
          cases fresh with
          | none => exact absurd rfl (hlabel now)
          | some revision =>
              obtain ⟨point, current, rest, hphase, -⟩ := step_command hstep
              have hlisted := h.resuming.listed point current rest hphase
                current List.mem_cons_self
              obtain ⟨start, hsound, -⟩ := h.resuming.sound
              simp only [Migration.step, hphase] at hstep
              cases hstep
              exact command_ne_error (h.clear ⟨current, hlisted⟩) hsound hphase
                now revision error

end Reached

end OpenKeyV.Redis
