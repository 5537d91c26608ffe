import OpenKeyV.Redis.Attempts

/-!
# What the attempts of a migration achieve

A migration that is cut off loses no entry, and its attempts come to the same
end as one that is not.
-/

namespace OpenKeyV.Redis

open Library Program

section Reached

variable {keyspace : Subspace} {options : MigrationOptions} {s : Server}
  {m m' : Migration}

theorem Reached.moved (h : Reached keyspace options s m)
    (hfresh : Unexpired s m.server.clock)
    (hok : m.phase = .finished (.ok ())) {e : Move}
    (hlisted : Listed keyspace options s e.candidate)
    (hslot : s.find e.candidate.legacyKey = some e.slot) :
    e.Moved keyspace options s m.server := by
  have htrack := h.tracked hfresh e hlisted hslot
  simp only [Move.Track, hok] at htrack
  exact htrack

theorem Move.Moved.find {e : Move} {s' : Server}
    (h : e.Moved keyspace options s s') (hfresh : Unexpired s s'.clock)
    (hslot : s.find e.candidate.legacyKey = some e.slot) :
    ∃ slot, s'.find (e.candidate.newKey keyspace) = some slot ∧
      (s.find (e.candidate.newKey keyspace) = some slot ∨
        s.find (e.candidate.newKey keyspace) = none ∧
          IsCopy options s.clock s'.clock e slot) := by
  obtain ⟨-, ⟨slot, hlookup, horigin⟩, -⟩ := h
  refine ⟨slot, ?_, ?_⟩
  · apply Option.filter_eq_some_iff.mpr
    refine ⟨hlookup, ?_⟩
    rcases horigin with hold | ⟨hcopy, -⟩
    · exact hfresh.live hold
    · exact hcopy.live (hfresh.not_expired hslot)
  · rcases horigin with hold | ⟨hcopy, hdead⟩
    · exact .inl hold
    · cases hold : s.find (e.candidate.newKey keyspace) with
      | none => exact .inr ⟨rfl, hcopy⟩
      | some old =>
          have hlive := hfresh.live hold
          rw [hdead old hold] at hlive
          cases hlive

theorem Reached.readable (hkeyspace : keyspace.isEmpty = false)
    (hflat : FlatDatabase s) (hresumable : Resumable keyspace options s)
    (h : Reached keyspace options s m) (hfresh : Unexpired s m.server.clock)
    {collection key : String} {slot : Slot}
    (hentry : FlatEntry s collection key slot) :
    Readable keyspace options m.server collection key slot := by
  obtain ⟨entry, revision, hdatum, hstorable⟩ := hentry.written
  have hvalue := value_of_written hdatum hstorable
  cases hcandidate : candidate? keyspace options (compoundKey collection key)
  with
  | none =>
      have htext : slot.text.isSome = true := by
        cases slot
        cases hdatum
        rfl
      exact .inl (h.kept hfresh _ slot hcandidate htext hentry.find)
  | some c =>
      obtain ⟨collection', hidentity, -, hselected, hmapped, -, hlegacy⟩ :=
        (candidate?_eq_some hkeyspace).mp hcandidate
      obtain ⟨rfl, hkey⟩ := compoundKey_inj.mp hidentity
      have hlisted : Listed keyspace options s c := by
        refine ⟨by rw [hlegacy]; exact hcandidate, ?_⟩
        rw [hlegacy, hentry.find]
        rfl
      obtain ⟨e, entry', revision', rfl, hslot, hbytes, hstorable'⟩ :=
        hlisted.move hkeyspace hflat
      have hsame : e.slot = slot := by
        rw [hlegacy, hentry.find] at hslot
        exact (Option.some.inj hslot).symm
      rcases (h.tracked hfresh e hlisted hslot).place with hwaiting | hmoved
      · left
        rw [← hlegacy, ← hsame]
        exact hwaiting.find (hfresh.not_expired hslot)
      · right
        obtain ⟨moved, hfind, horigin⟩ := hmoved.find hfresh hslot
        refine ⟨hselected, e.candidate.targetCollection, moved, hmapped, ?_,
          ?_⟩
        · rw [hkey]
          exact hfind
        · rcases horigin with hold | ⟨-, hcopy⟩
          · have happart := hresumable.apart e.candidate hlisted e.slot moved
              hslot hold
            rw [happart, hsame]
          · rw [hcopy.value hbytes hstorable', ← hsame]
            exact (@value_of_written e.slot entry' revision'
              (congrArg Datum.string hbytes) hstorable').symm

theorem SameEntry.refl {elapsed elapsed' : Int} (h : 0 ≤ elapsed)
    (h' : 0 ≤ elapsed') (slot : Slot) :
    SameEntry elapsed elapsed' slot slot := by
  refine ⟨rfl, ?_⟩
  cases hdeadline : slot.deadline with
  | none => exact .inl ⟨rfl, rfl⟩
  | some deadline => exact .inr ⟨deadline, deadline, rfl, rfl, by omega⟩

theorem Move.IsCopy.same {e : Move} {since clock clock' : Int}
    {slot slot' : Slot} {entry : ManagedEntry} {revision : Revision}
    (hbytes : e.bytes = Cas.encode entry revision)
    (hstorable : entry.value.Storable)
    (h : IsCopy options since clock e slot)
    (h' : IsCopy options since clock' e slot') :
    SameEntry (clock - since) (clock' - since) slot slot' := by
  refine ⟨by rw [h.value hbytes hstorable, h'.value hbytes hstorable], ?_⟩
  cases h with
  | preserved deadline hpreserve hdeadline =>
      cases h' with
      | preserved deadline' hpreserve' hdeadline' =>
          rcases hdeadline with ⟨hnone, rfl⟩ | ⟨d, d', hd, rfl, hlow, hhigh⟩
          · rcases hdeadline' with ⟨-, rfl⟩ | ⟨d, d', hd, -⟩
            · exact .inl ⟨rfl, rfl⟩
            · rw [hnone] at hd
              cases hd
          · rcases hdeadline' with ⟨hnone, -⟩ | ⟨d₂, d₂', hd₂, rfl, hlow', hhigh'⟩
            · rw [hnone] at hd
              cases hd
            · rw [hd] at hd₂
              cases hd₂
              exact .inr ⟨d', d₂', rfl, rfl, by omega, by omega⟩
      | renewed envelope now fresh hrenew hrenewed =>
          rw [hpreserve] at hrenew
          cases hrenew
  | renewed envelope now fresh hrenew hrenewed =>
      cases h' with
      | preserved deadline hpreserve hdeadline =>
          rw [hpreserve] at hrenew
          cases hrenew
      | renewed envelope' now' fresh' hrenew' hrenewed' =>
          exact .inl ⟨rfl, rfl⟩

theorem Held.find_other (h : Held keyspace options s m.server)
    (hclock : s.clock ≤ m.server.clock) (hfresh : Unexpired s m.server.clock)
    {key : String} (hother : ∀ c, Listed keyspace options s c →
      key ≠ c.legacyKey ∧ key ≠ c.newKey keyspace ∧
        key ≠ registryKey keyspace) :
    m.server.find key = s.find key := by
  have hlookup := h.others key hother
  cases hfind : s.find key with
  | some slot =>
      apply Option.filter_eq_some_iff.mpr
      rw [hlookup]
      exact ⟨(Option.filter_eq_some_iff.mp hfind).1, hfresh.live hfind⟩
  | none =>
      rw [Server.find, hlookup, Option.filter_eq_none_iff]
      intro slot hslot hlive
      rw [Server.find, hslot, Option.filter_eq_none_iff] at hfind
      exact hfind slot rfl (live_of_le hclock hlive)

theorem Reached.mem_registry (hkeyspace : keyspace.isEmpty = false)
    (hflat : FlatDatabase s) (hresumable : Resumable keyspace options s)
    (h : Reached keyspace options s m) (hfresh : Unexpired s m.server.clock)
    (hok : m.phase = .finished (.ok ())) (name : String) :
    name ∈ m.server.membersAt (registryKey keyspace) ↔
      name ∈ s.membersAt (registryKey keyspace) ∨
        ∃ c, Listed keyspace options s c ∧ c.targetCollection = name := by
  constructor
  · exact h.resuming.held.named name
  · rintro (hbefore | ⟨c, hlisted, rfl⟩)
    · have hnone : ∀ c, ¬ Listed keyspace options s c := by
        intro c hlisted
        obtain ⟨members, deadline, hfind, -⟩ := mem_membersAt.mp hbefore
        rw [hresumable.registry ⟨c, hlisted⟩] at hfind
        cases hfind
      rw [membersAt_congr (h.resuming.held.find_other h.resuming.clock hfresh
        fun c hlisted => absurd hlisted (hnone c))]
      exact hbefore
    · obtain ⟨e, -, -, rfl, hslot, -⟩ := hlisted.move hkeyspace hflat
      exact h.resuming.held.gone _ hlisted (h.moved hfresh hok hlisted hslot).1

/-- Attempts that have come to an end agree, however they were cut. -/
theorem Reached.agrees (hkeyspace : keyspace.isEmpty = false)
    (hflat : FlatDatabase s) (hresumable : Resumable keyspace options s)
    (h : Reached keyspace options s m) (h' : Reached keyspace options s m')
    (hfresh : Unexpired s m.server.clock)
    (hfresh' : Unexpired s m'.server.clock)
    (hok : m.phase = .finished (.ok ())) (hok' : m'.phase = .finished (.ok ())) :
    SameOutcome keyspace s m.server m'.server := by
  have hclock := h.resuming.clock
  have hclock' := h'.resuming.clock
  have hrefl := SameEntry.refl (Int.sub_nonneg_of_le hclock)
    (Int.sub_nonneg_of_le hclock')
  constructor
  · intro key hne
    by_cases hlegacy : ∃ c, Listed keyspace options s c ∧ key = c.legacyKey
    · obtain ⟨c, hlisted, rfl⟩ := hlegacy
      obtain ⟨e, -, -, rfl, hslot, -⟩ := hlisted.move hkeyspace hflat
      left
      rw [Server.find, Server.find, (h.moved hfresh hok hlisted hslot).1,
        (h'.moved hfresh' hok' hlisted hslot).1]
      exact ⟨rfl, rfl⟩
    by_cases hnew : ∃ c, Listed keyspace options s c ∧ key = c.newKey keyspace
    · obtain ⟨c, hlisted, rfl⟩ := hnew
      obtain ⟨e, entry, revision, rfl, hslot, hbytes, hstorable⟩ :=
        hlisted.move hkeyspace hflat
      obtain ⟨slot, hfind, horigin⟩ :=
        (h.moved hfresh hok hlisted hslot).find hfresh hslot
      obtain ⟨slot', hfind', horigin'⟩ :=
        (h'.moved hfresh' hok' hlisted hslot).find hfresh' hslot
      refine .inr ⟨slot, slot', hfind, hfind', ?_⟩
      rcases horigin with hold | ⟨hnone, hcopy⟩
      · rcases horigin' with hold' | ⟨hnone, -⟩
        · rw [hold] at hold'
          cases hold'
          exact hrefl slot
        · rw [hold] at hnone
          cases hnone
      · rcases horigin' with hold | ⟨-, hcopy'⟩
        · rw [hnone] at hold
          cases hold
        · exact hcopy.same hbytes hstorable hcopy'
    · have hother : ∀ c, Listed keyspace options s c → key ≠ c.legacyKey ∧
          key ≠ c.newKey keyspace ∧ key ≠ registryKey keyspace :=
        fun c hlisted => ⟨fun heq => hlegacy ⟨c, hlisted, heq⟩,
          fun heq => hnew ⟨c, hlisted, heq⟩, hne⟩
      rw [h.resuming.held.find_other hclock hfresh hother,
        h'.resuming.held.find_other hclock' hfresh' hother]
      cases s.find key with
      | none => exact .inl ⟨rfl, rfl⟩
      | some slot => exact .inr ⟨slot, slot, rfl, rfl, hrefl slot⟩
  · intro name
    rw [h.mem_registry hkeyspace hflat hresumable hfresh hok,
      h'.mem_registry hkeyspace hflat hresumable hfresh' hok']

theorem Reached.nothing_left (hkeyspace : keyspace.isEmpty = false)
    (hflat : FlatDatabase s) (hsize : Addressable keyspace options s)
    (hresumable : Resumable keyspace options s)
    (h : Reached keyspace options s m) (hfresh : Unexpired s m.server.clock)
    (hok : m.phase = .finished (.ok ())) {key : String}
    (hlive : key ∈ m.server.liveKeys) :
    candidate? keyspace options key = none := by
  cases hcandidate : candidate? keyspace options key with
  | none => rfl
  | some c =>
      have hfind := (List.mem_filter.mp hlive).2
      have hlisted := h.resuming.listed_of_find hkeyspace hsize hresumable
        hcandidate hfind
      obtain ⟨_, -, -, -, -, -, rfl⟩ :=
        (candidate?_eq_some hkeyspace).mp hcandidate
      obtain ⟨e, -, -, rfl, hslot, -⟩ := hlisted.move hkeyspace hflat
      have hgone := (h.moved hfresh hok hlisted hslot).1
      rw [Server.find, hgone] at hfind
      cases hfind

theorem idle_run {start : Server}
    (hkeyspace : keyspace.isEmpty = false)
    (hnone : ∀ key ∈ start.liveKeys, candidate? keyspace options key = none)
    {labels : List MigrationStep}
    (hrun : run (Migration.step keyspace options) (.start keyspace start)
      labels = some m) :
    m.server.objects = start.objects ∧ m.report.copied = 0 ∧
      ∀ error, m.phase ≠ .finished (.error error) := by
  let Idle (m : Migration) : Prop :=
    start.clock ≤ m.server.clock ∧ m.server.objects = start.objects ∧
      m.report.copied = 0 ∧
      ((∃ seen, m.phase = .scanning seen ∧
          ∀ key ∈ seen, candidate? keyspace options key = none) ∨
        m.phase = .finished (.ok ()))
  have hstart : Idle (.start keyspace start) := by
    refine ⟨Int.le_refl _, rfl, rfl, .inl ⟨[], ?_, by simp⟩⟩
    simp [Migration.start, hkeyspace]
  have hstep : ∀ m label m', Idle m → True →
      m.step keyspace options label = some m' → Idle m' := by
    rintro m label m' ⟨hclock, hobjects, hcopied, hphase⟩ - hstep
    cases label with
    | scan page last =>
        obtain ⟨seen, hscanning, hpage, -, rfl⟩ := step_scan hstep
        rcases hphase with ⟨seen', hseen, hskipped⟩ | hend
        · rw [hscanning] at hseen
          cases hseen
          have hall : ∀ key ∈ seen ++ page,
              candidate? keyspace options key = none := by
            intro key hkey
            rcases List.mem_append.mp hkey with hkey | hkey
            · exact hskipped key hkey
            · have hlive := (List.mem_filter.mp (hpage key hkey)).2
              have hbefore := live_of_later hclock hobjects hlive
              obtain ⟨slot, hslot⟩ := Option.isSome_iff_exists.mp hbefore
              have hlookup := (Option.filter_eq_some_iff.mp hslot).1
              apply hnone
              exact List.mem_filter.mpr
                ⟨KeyedMap.mem_keys_iff.mpr ⟨_, hlookup⟩, hbefore⟩
          refine ⟨hclock, hobjects, hcopied, ?_⟩
          cases last with
          | false => exact .inl ⟨_, rfl, hall⟩
          | true =>
              right
              simp [List.filterMap_eq_nil_iff.mpr hall, begin]
        · rw [hscanning] at hend
          cases hend
    | command now fresh =>
        obtain ⟨point, current, rest, hcopying, -⟩ := step_command hstep
        rcases hphase with ⟨seen, hseen, -⟩ | hend
        · rw [hcopying] at hseen
          cases hseen
        · rw [hcopying] at hend
          cases hend
    | tick clock =>
        obtain ⟨hle, rfl⟩ := step_tick hstep
        exact ⟨Int.le_trans hclock hle, hobjects, hcopied, hphase⟩
  obtain ⟨-, hobjects, hcopied, hphase⟩ :=
    run_invariant hstep hstart (along_true _ labels) hrun
  refine ⟨hobjects, hcopied, fun error herror => ?_⟩
  rcases hphase with ⟨seen, hseen, -⟩ | hend
  · rw [herror] at hseen
    cases hseen
  · rw [herror] at hend
    cases hend

theorem Reached.completes (hkeyspace : keyspace.isEmpty = false)
    (hsize : Addressable keyspace options s)
    (hresumable : Resumable keyspace options s)
    (h : Reached keyspace options s m) :
    ∃ labels m', run (Migration.step keyspace options)
        (.start keyspace m.server) labels = some m' ∧
      m'.phase = .finished (.ok ()) ∧ m'.server.clock = m.server.clock := by
  apply exists_completion hkeyspace
    (h.resuming.addressable hkeyspace hsize hresumable)
  intro hsome
  obtain ⟨c, hc⟩ := List.exists_mem_of_ne_nil _ hsome
  obtain ⟨key, hkey, hcandidate⟩ := List.mem_filterMap.mp hc
  have hlisted := h.resuming.listed_of_find hkeyspace hsize hresumable
    hcandidate (List.mem_filter.mp hkey).2
  refine ⟨registry_not_candidate hkeyspace (hresumable.kept ⟨c, hlisted⟩), ?_⟩
  exact (reached_cut hkeyspace hsize hresumable h).clear ⟨c, hlisted⟩

end Reached

/-- However often a migration is cut off and run again, no entry is lost, every
completed attempt has the same outcome, and a further one does nothing. -/
theorem migration_resumes (keyspace : Subspace) (options : MigrationOptions)
    (s : Server) (hkeyspace : keyspace.isEmpty = false)
    (hflat : FlatDatabase s) (hsize : Addressable keyspace options s)
    (hresumable : Resumable keyspace options s) :
    CrashSafe keyspace options s where
  readable := by
    rintro labels m ⟨hrun, hfresh⟩ collection key slot hentry
    exact (reached_run hkeyspace hsize hresumable hflat hrun).readable hkeyspace
      hflat hresumable hfresh hentry
  errors := by
    rintro labels m ⟨hrun, -⟩ hlabels
    have hstep : ∀ m label m', Reached keyspace options s m ∧
        (∀ error, m.phase ≠ .finished (.error error)) →
        (∀ now, label ≠ some (.command now none)) →
        attempt keyspace options m label = some m' →
          Reached keyspace options s m' ∧
            ∀ error, m'.phase ≠ .finished (.error error) :=
      fun m label m' h hlabel hstep =>
        ⟨reached_attempt hkeyspace hsize hresumable h.1 hstep,
          attempt_ne_error hkeyspace h.1 h.2 hlabel hstep⟩
    have hstart := reached_start hkeyspace hsize hresumable hflat
    have halong : Along (attempt keyspace options)
        (fun _ label => ∀ now, label ≠ some (.command now none))
        (.start keyspace s) labels := by
      apply along_of_at_step
      rintro as label bs x rfl - now rfl
      exact hlabels now (by simp)
    refine (run_invariant hstep ⟨hstart, ?_⟩ halong hrun).2
    simp [Migration.start, hkeyspace]
  completes := by
    rintro labels m ⟨hrun, -⟩
    exact (reached_run hkeyspace hsize hresumable hflat hrun).completes
      hkeyspace hsize hresumable
  agrees := by
    rintro labels labels' m m' ⟨hrun, hfresh⟩ ⟨hrun', hfresh'⟩ hok hok'
    exact (reached_run hkeyspace hsize hresumable hflat hrun).agrees hkeyspace
      hflat hresumable (reached_run hkeyspace hsize hresumable hflat hrun')
      hfresh hfresh' hok hok'
  further := by
    rintro labels m ⟨hrun, hfresh⟩ hok labels' m' hrun'
    have hreached := reached_run hkeyspace hsize hresumable hflat hrun
    exact idle_run hkeyspace
      (fun key hkey => hreached.nothing_left hkeyspace hflat hsize hresumable
        hfresh hok hkey) hrun'

theorem migration_resumes_one :
    CrashSafe ⟨"app"⟩ .default (oneEntry "c" "k") := by
  have hflat : FlatDatabase (oneEntry "c" "k") := by
    intro collection key slot hsize hfind
    have hentry := hfind
    rw [find_oneEntry] at hfind
    split at hfind
    · cases hfind
      exact ⟨hsize, hentry, .new .epoch .null, .fill 0, rfl, storable_null⟩
    · cases hfind
  apply migration_resumes ⟨"app"⟩ .default (oneEntry "c" "k") (by decide) hflat
    (addressable_default (by decide) _)
  constructor
  · intro c hlisted slot old hslot hold
    rw [find_oneEntry] at hslot hold
    split at hslot
    · split at hold
      · cases hslot
        cases hold
        rfl
      · cases hold
    · cases hslot
  · rintro - ⟨-, -, renamed, hrenamed, hne⟩
    exact hne (Option.some.inj hrenamed).symm
  · intro _
    rw [find_oneEntry, if_neg (by decide)]

section Lost

variable {keyspace : Subspace} {options : MigrationOptions} {s : Server}

theorem run_attempt_map (m : Migration) (labels : List MigrationStep) :
    run (attempt keyspace options) m (labels.map some) =
      run (Migration.step keyspace options) m labels := by
  induction labels generalizing m with
  | nil => rfl
  | cons label labels ih =>
      simp only [List.map_cons, run, attempt]
      congr 1
      funext m'
      exact ih m'

theorem apart_of_crashSafe (hkeyspace : keyspace.isEmpty = false)
    (hflat : FlatDatabase s) (hsize : Addressable keyspace options s)
    (hfresh : Unexpired s s.clock) (hsafe : CrashSafe keyspace options s)
    {c : Candidate} (hlisted : Listed keyspace options s c) {slot old : Slot}
    (hslot : s.find c.legacyKey = some slot)
    (hold : s.find (c.newKey keyspace) = some old) : old.value = slot.value := by
  obtain ⟨labels, m, hrun, hok, hclock⟩ := hsafe.completes []
    (.start keyspace s) ⟨rfl, hfresh⟩
  replace hrun : run (Migration.step keyspace options) (.start keyspace s)
    labels = some m := hrun
  have hfresh' : Unexpired s m.server.clock := by
    rw [hclock]
    exact hfresh
  obtain ⟨e, -, -, rfl, hmove, -⟩ := hlisted.move hkeyspace hflat
  have htrack := Move.track_run hkeyspace hlisted.1 hsize hmove hrun
    (hfresh'.not_expired hmove)
  simp only [Move.Track, hok] at htrack
  obtain ⟨moved, hfind, horigin⟩ := htrack.find hfresh' hmove
  rw [hold] at horigin
  have hsame : old = moved := by
    rcases horigin with heq | ⟨hnone, -⟩
    · exact Option.some.inj heq
    · cases hnone
  subst hsame
  obtain ⟨collection, hidentity, hcollection, -, hmapped, -⟩ :=
    (candidate?_eq_some hkeyspace).mp hlisted.1
  rw [hidentity] at hslot
  have hreaches : Reaches keyspace options s (labels.map some) m :=
    ⟨by rw [run_attempt_map]; exact hrun, hfresh'⟩
  rcases hsafe.readable _ m hreaches collection e.candidate.key slot
    (hflat _ _ _ hcollection hslot) with hlegacy | ⟨-, target, moved, htarget,
      hread, hvalue⟩
  · rw [← hidentity, Server.find, htrack.1] at hlegacy
    cases hlegacy
  · rw [hmapped] at htarget
    cases htarget
    rw [Candidate.newKey, hread] at hfind
    cases hfind
    exact hvalue

end Lost

def takenPlace : Server :=
  (oneEntry "x" "k").store (compoundKey "app" (compoundKey "x" "k"))
    ⟨.string (Cas.encode (.new .epoch (.binary [7])) (.fill 0)), none⟩

theorem migration_loses_entry :
    ¬ ∀ (keyspace : Subspace) (options : MigrationOptions) (s : Server),
      keyspace.isEmpty = false → FlatDatabase s →
      Addressable keyspace options s → Unexpired s s.clock →
      CrashSafe keyspace options s := by
  intro h
  have hfind : ∀ key, takenPlace.find key =
      if key = compoundKey "app" (compoundKey "x" "k") then
        some ⟨.string (Cas.encode (.new .epoch (.binary [7])) (.fill 0)), none⟩
      else if key = compoundKey "x" "k" then
        some ⟨.string (Cas.encode (.new .epoch .null) (.fill 0)), none⟩
      else none := by
    intro key
    simp [takenPlace, find_oneEntry]
  have hstorable : (Value.binary [7]).Storable := ⟨rfl, by decide⟩
  have hflat : FlatDatabase takenPlace := by
    intro collection key slot hsize hslot
    have hentry := hslot
    rw [hfind] at hslot
    split at hslot
    · cases hslot
      exact ⟨hsize, hentry, .new .epoch (.binary [7]), .fill 0, rfl, hstorable⟩
    · split at hslot
      · cases hslot
        exact ⟨hsize, hentry, .new .epoch .null, .fill 0, rfl, storable_null⟩
      · cases hslot
  have hfresh : Unexpired takenPlace takenPlace.clock := by
    intro key slot hslot deadline hdeadline
    rw [hfind] at hslot
    split at hslot
    · cases hslot
      cases hdeadline
    · split at hslot
      · cases hslot
        cases hdeadline
      · cases hslot
  have hsize := @addressable_default ⟨"app"⟩ (by decide) takenPlace
  have hsafe := h ⟨"app"⟩ .default takenPlace (by decide) hflat hsize hfresh
  have hslot : takenPlace.find (compoundKey "x" "k") =
      some ⟨.string (Cas.encode (.new .epoch .null) (.fill 0)), none⟩ := by
    rw [hfind, if_neg (by decide), if_pos rfl]
  have hcandidate : candidate? ⟨"app"⟩ .default (compoundKey "x" "k") =
      some ⟨compoundKey "x" "k", "k", "x"⟩ := by
    apply (candidate?_eq_some (by decide)).mpr
    refine ⟨"x", rfl, by decide, rfl, rfl, ?_, rfl⟩
    rintro ⟨hname, -⟩
    exact absurd hname (by decide)
  have hlisted : Listed ⟨"app"⟩ .default takenPlace
      ⟨compoundKey "x" "k", "k", "x"⟩ := by
    refine ⟨hcandidate, ?_⟩
    rw [hslot]
    rfl
  have htaken : takenPlace.find
      (Candidate.newKey ⟨"app"⟩ ⟨compoundKey "x" "k", "k", "x"⟩) =
        some ⟨.string (Cas.encode (.new .epoch (.binary [7])) (.fill 0)),
          none⟩ := by
    rw [hfind, if_pos (by decide)]
  have hvalue := apart_of_crashSafe (by decide) hflat hsize hfresh hsafe
    hlisted hslot htaken
  rw [@value_of_written _ (.new .epoch (.binary [7])) (.fill 0) rfl hstorable,
    @value_of_written _ (.new .epoch .null) (.fill 0) rfl storable_null]
    at hvalue
  exact absurd hvalue (by decide)

end OpenKeyV.Redis
