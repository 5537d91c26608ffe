import OpenKeyV.Redis.Moves

/-!
# A migration that comes to its end

A migration ends without an error when every candidate holds an entry and
nothing but a set is under the registry key: then each command brings the loop
nearer to its end.
-/

namespace OpenKeyV.Redis

open Library Program

def Slot.value (slot : Slot) : Option Value :=
  match slot.text with
  | none => none
  | some text =>
      match Cas.decode (some text) with
      | .ok (some cas) => some cas.entry.value
      | _ => none

theorem Slot.value_eq_some {slot : Slot} {value : Value} :
    slot.value = some value ↔ ∃ text cas, slot.text = some text ∧
      Cas.decode (some text) = .ok (some cas) ∧ cas.entry.value = value := by
  unfold Slot.value
  cases htext : slot.text with
  | none => simp
  | some text =>
      cases hdecode : Cas.decode (some text) with
      | error error => simp [hdecode]
      | ok stored =>
          cases stored with
          | none => simp [hdecode]
          | some cas => simp [hdecode]

def Point.text : Point → Option Bytes
  | .exists value | .pttl value | .renew value => some value
  | _ => none

def Point.rank : Point → Nat
  | .get => 6
  | .exists _ => 5
  | .pttl _ => 4
  | .psetex _ _ | .set _ | .renew _ => 3
  | .sadd => 2
  | .del => 1

def Phase.remaining : Phase → Nat
  | .copying point _ rest => point.rank + 6 * rest.length
  | _ => 0

section Clear

variable {keyspace : Subspace} {options : MigrationOptions}

/-- Nothing is in the way: candidates hold entries, the registry is a set, and
what has been read is an entry. -/
structure Clear (keyspace : Subspace) (options : MigrationOptions)
    (m : Migration) : Prop where
  entries : ∀ key c, candidate? keyspace options key = some c →
    ∀ slot, m.server.find key = some slot → slot.value.isSome = true
  registry : ∀ slot, m.server.find (registryKey keyspace) = some slot →
    ∃ members, slot.datum = .set members
  read : ∀ point current rest, m.phase = .copying point current rest →
    ∀ text, point.text = some text →
      ∃ cas, Cas.decode (some text) = .ok (some cas)

theorem candidate?_newKey {c : Candidate}
    (hsize : c.targetCollection.utf8ByteSize < 2 ^ 64) :
    candidate? keyspace options (c.newKey keyspace) = none := by
  have hscoped : subspaceDecompoundKey keyspace (c.newKey keyspace) =
      some (c.targetCollection, c.key) :=
    subspaceDecompoundKey_eq_some.mpr ⟨rfl, hsize⟩
  simp [candidate?, hscoped]

section Command

variable {start : Server} {m m' : Migration} {point : Point}
  {current : Candidate} {rest : List Candidate}

theorem Clear.same_server (h : Clear keyspace options m)
    {phase : Phase} {report : MigrationReport}
    (hread : ∀ point current rest, phase = .copying point current rest →
      ∀ text, point.text = some text →
        ∃ cas, Cas.decode (some text) = .ok (some cas)) :
    Clear keyspace options ⟨m.server, phase, report⟩ :=
  ⟨h.entries, h.registry, hread⟩

theorem begin_text (rest : List Candidate) :
    ∀ point current rest', begin rest = .copying point current rest' →
      ∀ text, point.text = some text →
        ∃ cas, Cas.decode (some text) = .ok (some cas) := by
  intro point current rest' hbegin text htext
  obtain ⟨-, rfl⟩ := begin_copying hbegin
  cases htext

theorem clear_command (h : Clear keyspace options m)
    (hsound : Sound keyspace options start m)
    (hname : candidate? keyspace options (registryKey keyspace) = none)
    (hphase : m.phase = .copying point current rest)
    (hstep : Advances keyspace options m current rest point m') :
    Clear keyspace options m' := by
  have hcurrent := hsound.derived point current rest hphase current
    List.mem_cons_self
  have hread := h.read point current rest hphase
  cases hstep with
  | missing _ => exact h.same_server (begin_text rest)
  | expired _ _ => exact h.same_server (begin_text rest)
  | read slot value hslot htext =>
      apply h.same_server
      intro point' current' rest' hcopying text hvalue
      cases hcopying
      cases hvalue
      obtain ⟨entry, hentry⟩ := Option.isSome_iff_exists.mp
        (h.entries _ _ hcurrent.1 slot hslot)
      obtain ⟨text, cas, htext', hdecode, -⟩ := Slot.value_eq_some.mp hentry
      rw [htext] at htext'
      cases htext'
      exact ⟨cas, hdecode⟩
  | absent value _ =>
      apply h.same_server
      intro point' current' rest' hcopying text hvalue
      cases hcopying
      apply hread text
      rw [← hvalue]
      cases options.preserveTtl <;> rfl
  | present _ _ | temporary _ _ _ _ _ | permanent _ _ _ =>
      apply h.same_server
      intro point' current' rest' hcopying text hvalue
      cases hcopying
      cases hvalue
  | refusedRead _ _ _ _ | refusedRenewal _ _ _ _ _ | refusedName _ _ _ _ =>
      exact h.same_server (fun _ _ _ hcopying => nomatch hcopying)
  | copied point bytes deadline hkind =>
      constructor
      · intro key c hc slot hslot
        have hne : key ≠ current.newKey keyspace := by
          rintro rfl
          rw [candidate?_newKey hcurrent.2] at hc
          cases hc
        simp only [Server.find_store, if_neg hne] at hslot
        exact h.entries key c hc slot hslot
      · intro slot hslot
        have hne : registryKey keyspace ≠ current.newKey keyspace :=
          registryKey_ne_entryKey _ _ _
        simp only [Server.find_store, if_neg hne] at hslot
        exact h.registry slot hslot
      · intro point' current' rest' hcopying text hvalue
        cases hcopying
        cases hvalue
  | registered members deadline hregistry =>
      constructor
      · intro key c hc slot hslot
        have hne : key ≠ registryKey keyspace := by
          rintro rfl
          rw [hname] at hc
          cases hc
        simp only [Server.find_store, if_neg hne] at hslot
        exact h.entries key c hc slot hslot
      · intro slot hslot
        simp only [Server.find_store, if_true] at hslot
        obtain ⟨hslot, -⟩ := Option.filter_eq_some_iff.mp hslot
        cases hslot
        exact ⟨members, rfl⟩
      · intro point' current' rest' hcopying text hvalue
        cases hcopying
        cases hvalue
  | deleted =>
      constructor
      · intro key c hc slot hslot
        simp only [Server.find_remove] at hslot
        split at hslot
        · cases hslot
        · exact h.entries key c hc slot hslot
      · intro slot hslot
        simp only [Server.find_remove] at hslot
        split at hslot
        · cases hslot
        · exact h.registry slot hslot
      · exact begin_text rest

theorem clear_step (h : Clear keyspace options m)
    (hsound : Sound keyspace options start m)
    (hname : ∀ point current rest, m.phase = .copying point current rest →
      candidate? keyspace options (registryKey keyspace) = none)
    {label : MigrationStep}
    (hstep : m.step keyspace options label = some m') :
    Clear keyspace options m' := by
  cases label with
  | scan page last =>
      obtain ⟨seen, hphase, -, -, rfl⟩ := step_scan hstep
      apply h.same_server
      intro point current rest hcopying
      cases last with
      | false => cases hcopying
      | true => exact begin_text _ point current rest hcopying
  | command now fresh =>
      obtain ⟨point, current, rest, hphase, hadvance⟩ := step_command hstep
      exact clear_command h hsound (hname point current rest hphase) hphase
        hadvance
  | tick clock =>
      obtain ⟨hle, rfl⟩ := step_tick hstep
      constructor
      · intro key c hc slot hslot
        rw [Server.find_tick _ _ hle] at hslot
        exact h.entries key c hc slot (Option.filter_eq_some_iff.mp hslot).1
      · intro slot hslot
        rw [Server.find_tick _ _ hle] at hslot
        exact h.registry slot (Option.filter_eq_some_iff.mp hslot).1
      · exact h.read

theorem command_ne_error (h : Clear keyspace options m)
    (hsound : Sound keyspace options start m)
    (hphase : m.phase = .copying point current rest) (now : DateTime)
    (revision : Revision) (error : Error) :
    (m.command keyspace options point current rest now (some revision)).phase ≠
      .finished (.error error) := by
  have hcurrent := hsound.derived point current rest hphase current
    List.mem_cons_self
  have hbegin : ∀ rest : List Candidate,
      begin rest ≠ .finished (.error error) := by
    intro rest
    cases rest <;> simp [begin]
  by_cases hrenew : ∃ value, point = .renew value
  · obtain ⟨value, rfl⟩ := hrenew
    obtain ⟨cas, hdecode⟩ := h.read _ current rest hphase value rfl
    simp [Migration.command, Migration.renewed, hdecode, bind, Except.bind,
      pure, Except.pure, Migration.perform, Redis.set]
  · have hadvance := command_advances keyspace options m point current rest now
      (some revision)
    generalize m.command keyspace options point current rest now
      (some revision) = m' at hadvance ⊢
    intro herror
    cases hadvance with
    | missing _ => exact hbegin rest herror
    | expired _ _ => exact hbegin rest herror
    | deleted => exact hbegin rest herror
    | refusedRead slot error' hslot htext =>
        obtain ⟨entry, hentry⟩ := Option.isSome_iff_exists.mp
          (h.entries _ _ hcurrent.1 slot hslot)
        obtain ⟨text, -, htext', -⟩ := Slot.value_eq_some.mp hentry
        rw [htext] at htext'
        cases htext'
    | refusedRenewal value now fresh error' _ => exact hrenew ⟨value, rfl⟩
    | refusedName slot error' hslot hother =>
        obtain ⟨members, hmembers⟩ := h.registry slot hslot
        exact hother members hmembers
    | read _ _ _ _ | present _ _ | absent _ _ | temporary _ _ _ _ _
    | permanent _ _ _ | copied _ _ _ _ | registered _ _ _ => cases herror

theorem remaining_begin (rest : List Candidate) :
    (begin rest).remaining = 6 * rest.length := by
  cases rest with
  | nil => rfl
  | cons c rest =>
      simp only [begin, Phase.remaining, Point.rank, List.length_cons]
      omega

theorem remaining_lt
    (hstep : Advances keyspace options m current rest point m') :
    m'.phase.remaining < point.rank + 6 * rest.length := by
  cases hstep with
  | missing _ | expired _ _ | deleted =>
      simp only [remaining_begin, Point.rank]
      omega
  | absent value _ =>
      cases hpreserve : options.preserveTtl <;>
        simp [Phase.remaining, Point.rank]
  | copied point bytes deadline hkind =>
      have hrank : point.rank = 3 := by
        rcases hkind with ⟨rfl, -⟩ | ⟨_, rfl, -⟩ | ⟨_, _, _, rfl, -⟩ <;> rfl
      have hsadd : Point.sadd.rank = 2 := rfl
      simp only [Phase.remaining, hrank, hsadd]
      omega
  | read _ _ _ _ | present _ _ | temporary _ _ _ _ _ | permanent _ _ _
  | registered _ _ _ | refusedRead _ _ _ _ | refusedRenewal _ _ _ _ _
  | refusedName _ _ _ _ =>
      simp only [Phase.remaining, Point.rank]
      omega

theorem advances_ne_scanning
    (hstep : Advances keyspace options m current rest point m')
    (seen : List String) : m'.phase ≠ .scanning seen := by
  cases hstep with
  | missing _ | expired _ _ | deleted => exact begin_ne_scanning rest seen
  | read _ _ _ _ | present _ _ | absent _ _ | temporary _ _ _ _ _
  | permanent _ _ _ | copied _ _ _ _ | registered _ _ _ | refusedRead _ _ _ _
  | refusedRenewal _ _ _ _ _ | refusedName _ _ _ _ => simp

end Command

theorem scan_all (hkeyspace : keyspace.isEmpty = false) (s : Server) :
    (Migration.start keyspace s).step keyspace options
        (.scan s.liveKeys true) =
      some ⟨s, begin (s.liveKeys.filterMap (candidate? keyspace options)),
        { MigrationReport.zero with scanned := s.liveKeys.length }⟩ := by
  simp [Migration.step, Migration.start, hkeyspace, MigrationReport.zero]

/-- A migration that finds nothing to move, or is clear, can be brought to its
end before the clock moves. -/
theorem exists_completion (hkeyspace : keyspace.isEmpty = false) {s : Server}
    (hsize : Addressable keyspace options s)
    (hready : s.liveKeys.filterMap (candidate? keyspace options) ≠ [] →
      candidate? keyspace options (registryKey keyspace) = none ∧
        Clear keyspace options (.start keyspace s)) :
    ∃ labels m, run (Migration.step keyspace options) (.start keyspace s)
        labels = some m ∧ m.phase = .finished (.ok ()) ∧
      m.server.clock = s.clock := by
  let scanned : Migration :=
    ⟨s, begin (s.liveKeys.filterMap (candidate? keyspace options)),
      { MigrationReport.zero with scanned := s.liveKeys.length }⟩
  have hscan : (Migration.start keyspace s).step keyspace options
      (.scan s.liveKeys true) = some scanned := scan_all hkeyspace s
  by_cases hempty : s.liveKeys.filterMap (candidate? keyspace options) = []
  · refine ⟨[.scan s.liveKeys true], scanned,
      run_cons_eq_some.mpr ⟨scanned, hscan, rfl⟩, ?_, rfl⟩
    simp only [scanned, hempty, begin]
  obtain ⟨hname, hclear⟩ := hready hempty
  have hsound := sound_step hkeyspace hsize
    (sound_start keyspace options s) hscan
  have hclear' := clear_step hclear
    (sound_start keyspace options s) (fun _ _ _ _ => hname) hscan
  let Going (m : Migration) : Prop :=
    Sound keyspace options s m ∧ Clear keyspace options m ∧
      (∀ seen, m.phase ≠ .scanning seen) ∧
      (∀ error, m.phase ≠ .finished (.error error)) ∧ m.server.clock = s.clock
  have hstep : ∀ m, Going m → ¬ m.phase = .finished (.ok ()) →
      ∃ label m', m.step keyspace options label = some m' ∧ Going m' ∧
        m'.phase.remaining < m.phase.remaining := by
    rintro m ⟨hsound, hclear, hscanning, herror, hclock⟩ hgoal
    cases hphase : m.phase with
    | scanning seen => exact absurd hphase (hscanning seen)
    | finished result =>
        cases result with
        | error error => exact absurd hphase (herror error)
        | ok _ => exact absurd hphase hgoal
    | copying point current rest =>
        have hadvance := command_advances keyspace options m point current
          rest .epoch (some (Revision.fill 0))
        refine ⟨.command .epoch (some (Revision.fill 0)), _, ?_, ⟨?_, ?_, ?_,
          ?_, ?_⟩, remaining_lt hadvance⟩
        · simp only [Migration.step, hphase]
        · exact sound_command hsound hphase hadvance
        · exact clear_command hclear hsound hname hphase hadvance
        · exact advances_ne_scanning hadvance
        · exact command_ne_error hclear hsound hphase _ _
        · rw [Move.advances_clock hadvance, hclock]
  have hscanned : Going scanned := by
    refine ⟨hsound, hclear', begin_ne_scanning _, ?_, rfl⟩
    intro error
    simp only [scanned, begin]
    split <;> simp
  obtain ⟨labels, m, hrun, ⟨-, -, -, -, hclock⟩, hgoal⟩ := exists_run_to
    Going (fun m => m.phase = .finished (.ok ())) (fun m => m.phase.remaining)
    hstep scanned hscanned
  exact ⟨_, m, run_cons_eq_some.mpr ⟨scanned, hscan, hrun⟩, hgoal, hclock⟩

end Clear

end OpenKeyV.Redis
