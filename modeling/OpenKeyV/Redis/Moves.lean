import OpenKeyV.Redis.ForeignKeys

/-!
# One entry during a migration

What the commands of a migration do to one flat entry: it waits under its
legacy identity until the loop comes to it, then it is copied, unless its new
key is taken, and the legacy identity is deleted.  The reference state `s` is
the database before the first run; the run itself may start later, where an
earlier one was cut off.
-/

namespace OpenKeyV.Redis

open Library Program

section General

variable {keyspace : Subspace} {options : MigrationOptions}

def Addressable (keyspace : Subspace) (options : MigrationOptions)
    (s : Server) : Prop :=
  ∀ key ∈ s.objects.keys, ∀ c, candidate? keyspace options key = some c →
    c.targetCollection.utf8ByteSize < 2 ^ 64

/-- The points between the check that the new key is free and the write. -/
def Point.awaitsWrite : Point → Bool
  | .pttl _ | .psetex _ _ | .set _ | .renew _ => true
  | _ => false

/-- The loop works on candidates of the scan, and writes new keys that nothing
else holds. -/
structure Sound (keyspace : Subspace) (options : MigrationOptions)
    (start : Server) (m : Migration) : Prop where
  clock : start.clock ≤ m.server.clock
  scanning : ∀ seen, m.phase = .scanning seen →
    m.server.objects = start.objects ∧ ∀ key ∈ seen, key ∈ start.objects.keys
  derived : ∀ point current rest, m.phase = .copying point current rest →
    ∀ c ∈ current :: rest,
      candidate? keyspace options c.legacyKey = some c ∧
        c.targetCollection.utf8ByteSize < 2 ^ 64
  free : ∀ point current rest, m.phase = .copying point current rest →
    point.awaitsWrite = true →
      m.server.find (current.newKey keyspace) = none

theorem sound_start (keyspace : Subspace) (options : MigrationOptions)
    (start : Server) : Sound keyspace options start (.start keyspace start) := by
  have hphase : (Migration.start keyspace start).phase = .scanning [] ∨
      ∃ error, (Migration.start keyspace start).phase =
        .finished (.error error) := by
    simp only [Migration.start]
    split
    · exact .inr ⟨_, rfl⟩
    · exact .inl rfl
  refine ⟨Int.le_refl _, ?_, ?_, ?_⟩
  · intro seen hseen
    rcases hphase with h | ⟨error, h⟩ <;> rw [h] at hseen <;> cases hseen
    exact ⟨rfl, by simp⟩
  · intro point current rest hcopying
    rcases hphase with h | ⟨error, h⟩ <;> rw [h] at hcopying <;>
      cases hcopying
  · intro point current rest hcopying
    rcases hphase with h | ⟨error, h⟩ <;> rw [h] at hcopying <;>
      cases hcopying

theorem find_eq_none_of_tick {s : Server} {clock : Int} {key : String}
    (hle : s.clock ≤ clock) (h : s.find key = none) :
    Server.find { s with clock := clock } key = none := by
  rw [Server.find_tick s key hle, h]
  rfl

theorem begin_derived {rest : List Candidate} {P : Candidate → Prop}
    (h : ∀ c ∈ rest, P c) :
    ∀ point current rest', begin rest = .copying point current rest' →
      (∀ c ∈ current :: rest', P c) ∧ point = .get := by
  intro point current rest' hbegin
  obtain ⟨rfl, rfl⟩ := begin_copying hbegin
  exact ⟨h, rfl⟩

section Step

variable {start : Server} {m m' : Migration}

theorem Sound.derived_rest (h : Sound keyspace options start m)
    {point : Point} {current : Candidate} {rest : List Candidate}
    (hphase : m.phase = .copying point current rest) :
    ∀ c ∈ rest, candidate? keyspace options c.legacyKey = some c ∧
      c.targetCollection.utf8ByteSize < 2 ^ 64 :=
  fun c hc => h.derived point current rest hphase c
    (List.mem_cons_of_mem _ hc)

theorem Sound.at_point (h : Sound keyspace options start m)
    {point : Point} {current : Candidate} {rest : List Candidate}
    (hphase : m.phase = .copying point current rest) {server : Server}
    {point' : Point} {report : MigrationReport}
    (hclock : server.clock = m.server.clock)
    (hfree : point'.awaitsWrite = true →
      server.find (current.newKey keyspace) = none) :
    Sound keyspace options start
      ⟨server, .copying point' current rest, report⟩ := by
  refine ⟨hclock ▸ h.clock, (fun seen hseen => nomatch hseen), ?_, ?_⟩
  · intro point'' current' rest' hcopying
    cases hcopying
    exact h.derived point current rest hphase
  · intro point'' current' rest' hcopying
    cases hcopying
    exact hfree

theorem Sound.at_next (h : Sound keyspace options start m)
    {point : Point} {current : Candidate} {rest : List Candidate}
    (hphase : m.phase = .copying point current rest) {server : Server}
    {report : MigrationReport} (hclock : server.clock = m.server.clock) :
    Sound keyspace options start ⟨server, begin rest, report⟩ := by
  have hrest := begin_derived (h.derived_rest hphase)
  refine ⟨hclock ▸ h.clock,
    fun seen hseen => absurd hseen (begin_ne_scanning _ _), ?_, ?_⟩
  · intro point' current' rest' hcopying
    exact (hrest point' current' rest' hcopying).1
  · intro point' current' rest' hcopying hawaits
    rw [(hrest point' current' rest' hcopying).2] at hawaits
    cases hawaits

theorem Sound.at_end (h : Sound keyspace options start m)
    {result : Except Error Unit} {report : MigrationReport} :
    Sound keyspace options start ⟨m.server, .finished result, report⟩ :=
  ⟨h.clock, (fun _ hseen => nomatch hseen),
    (fun _ _ _ hcopying => nomatch hcopying),
    (fun _ _ _ hcopying => nomatch hcopying)⟩

theorem sound_command (h : Sound keyspace options start m)
    {point : Point} {current : Candidate} {rest : List Candidate}
    (hphase : m.phase = .copying point current rest)
    (hstep : Advances keyspace options m current rest point m') :
    Sound keyspace options start m' := by
  cases hstep with
  | missing _ => exact h.at_next hphase rfl
  | expired _ _ => exact h.at_next hphase rfl
  | deleted => exact h.at_next hphase rfl
  | read _ _ _ _ => exact h.at_point hphase rfl (fun h => nomatch h)
  | present _ _ => exact h.at_point hphase rfl (fun h => nomatch h)
  | absent _ hfree => exact h.at_point hphase rfl fun _ => hfree
  | temporary _ _ _ _ _ =>
      exact h.at_point hphase rfl fun _ => h.free _ _ _ hphase rfl
  | permanent _ _ _ =>
      exact h.at_point hphase rfl fun _ => h.free _ _ _ hphase rfl
  | copied _ _ _ _ => exact h.at_point hphase rfl (fun h => nomatch h)
  | registered _ _ _ => exact h.at_point hphase rfl (fun h => nomatch h)
  | refusedRead _ _ _ _ => exact h.at_end
  | refusedRenewal _ _ _ _ _ => exact h.at_end
  | refusedName _ _ _ _ => exact h.at_end

theorem mem_keys_of_live {s : Server} {key : String}
    (h : key ∈ s.liveKeys) : key ∈ s.objects.keys :=
  (List.mem_filter.mp h).1

theorem sound_step (hkeyspace : keyspace.isEmpty = false)
    (hsize : Addressable keyspace options start)
    (h : Sound keyspace options start m) {label : MigrationStep}
    (hstep : m.step keyspace options label = some m') :
    Sound keyspace options start m' := by
  cases label with
  | scan page last =>
      obtain ⟨seen, hphase, hpage, -, rfl⟩ := step_scan hstep
      obtain ⟨hobjects, hseen⟩ := h.scanning seen hphase
      have hknown : ∀ key ∈ seen ++ page, key ∈ start.objects.keys := by
        intro key hkey
        rcases List.mem_append.mp hkey with hkey | hkey
        · exact hseen key hkey
        · rw [← hobjects]
          exact mem_keys_of_live (hpage key hkey)
      cases last with
      | false =>
          refine ⟨h.clock, ?_, (fun _ _ _ hcopying => nomatch hcopying),
            (fun _ _ _ hcopying => nomatch hcopying)⟩
          intro seen' hseen'
          cases hseen'
          exact ⟨hobjects, hknown⟩
      | true =>
          have hderived : ∀ c ∈ (seen ++ page).filterMap
              (candidate? keyspace options),
              candidate? keyspace options c.legacyKey = some c ∧
                c.targetCollection.utf8ByteSize < 2 ^ 64 := by
            intro c hc
            obtain ⟨identity, hidentity, hcandidate⟩ :=
              List.mem_filterMap.mp hc
            obtain ⟨_, -, -, -, -, -, hlegacy⟩ :=
              (candidate?_eq_some hkeyspace).mp hcandidate
            rw [hlegacy]
            exact ⟨hcandidate,
              hsize identity (hknown identity hidentity) c hcandidate⟩
          refine ⟨h.clock,
            fun seen' hseen' => absurd hseen' (begin_ne_scanning _ _), ?_, ?_⟩
          · intro point current rest hcopying
            exact (begin_derived hderived point current rest hcopying).1
          · intro point current rest hcopying hawaits
            rw [(begin_derived hderived point current rest hcopying).2]
              at hawaits
            cases hawaits
  | command now fresh =>
      obtain ⟨point, current, rest, hphase, hadvance⟩ := step_command hstep
      exact sound_command h hphase hadvance
  | tick clock =>
      obtain ⟨hle, rfl⟩ := step_tick hstep
      refine ⟨Int.le_trans h.clock hle, h.scanning, h.derived, ?_⟩
      intro point current rest hphase hawaits
      exact find_eq_none_of_tick hle (h.free point current rest hphase hawaits)

end Step

end General

/-- A flat entry, as it was found, and where it goes. -/
structure Move where
  candidate : Candidate
  bytes : Bytes
  deadline : Option Int

namespace Move

def slot (e : Move) : Slot := ⟨.string e.bytes, e.deadline⟩

def Expired (e : Move) (clock : Int) : Prop :=
  ∃ deadline, e.deadline = some deadline ∧ deadline ≤ clock

/-- What the migration writes for an entry: the same bytes, with a life that is
longer by at most the time that has passed, or a permanent envelope of the same
value. -/
inductive IsCopy (options : MigrationOptions) (since clock : Int) (e : Move) :
    Slot → Prop where
  | preserved (deadline : Option Int) : options.preserveTtl = true →
      (e.deadline = none ∧ deadline = none ∨
        ∃ d d', e.deadline = some d ∧ deadline = some d' ∧ d ≤ d' ∧
          d' + since ≤ d + clock) →
      IsCopy options since clock e ⟨.string e.bytes, deadline⟩
  | renewed (envelope : Bytes) (now : DateTime) (fresh : Option Revision) :
      options.preserveTtl = false →
      Migration.renewed e.bytes now fresh = .ok envelope →
      IsCopy options since clock e ⟨.string envelope, none⟩

theorem IsCopy.later {options : MigrationOptions} {since clock clock' : Int}
    {e : Move} {slot : Slot} (h : IsCopy options since clock e slot)
    (hle : clock ≤ clock') : IsCopy options since clock' e slot := by
  cases h with
  | preserved deadline hpreserve hdeadline =>
      apply IsCopy.preserved deadline hpreserve
      rcases hdeadline with hnone | ⟨d, d', hd, hd', hlow, hhigh⟩
      · exact .inl hnone
      · exact .inr ⟨d, d', hd, hd', hlow, by omega⟩
  | renewed envelope now fresh hpreserve hrenewed =>
      exact .renewed envelope now fresh hpreserve hrenewed

section States

variable (keyspace : Subspace) (options : MigrationOptions) (s : Server)
  (e : Move)

/-- The new key holds what it held when the migration began, or, where that is
gone, a copy of the entry. -/
def Settled (s' : Server) : Prop :=
  ∃ slot, s'.objects.lookup (e.candidate.newKey keyspace) = some slot ∧
    (s.find (e.candidate.newKey keyspace) = some slot ∨
      IsCopy options s.clock s'.clock e slot ∧
        ∀ old, s.find (e.candidate.newKey keyspace) = some old →
          old.live s'.clock = false)

def Waiting (s' : Server) : Prop :=
  s'.objects.lookup e.candidate.legacyKey = some e.slot ∧
    (s'.objects.lookup (e.candidate.newKey keyspace) =
        s.objects.lookup (e.candidate.newKey keyspace) ∨
      Settled keyspace options s e s')

def Moved (s' : Server) : Prop :=
  s'.objects.lookup e.candidate.legacyKey = none ∧
    Settled keyspace options s e s' ∧
    e.candidate.legacyKey ≠ registryKey keyspace

def Ready (s' : Server) : Point → Prop
  | .get => True
  | .exists value => value = e.bytes
  | .pttl value => value = e.bytes ∧ options.preserveTtl = true
  | .renew value => value = e.bytes ∧ options.preserveTtl = false
  | .set value => value = e.bytes ∧ options.preserveTtl = true ∧
      e.deadline = none
  | .psetex value milliseconds => value = e.bytes ∧
      options.preserveTtl = true ∧ ∃ deadline, e.deadline = some deadline ∧
        deadline ≤ s'.clock + milliseconds ∧
        s.clock + milliseconds ≤ deadline
  | .sadd => Settled keyspace options s e s'
  | .del => Settled keyspace options s e s' ∧
      e.candidate.legacyKey ≠ registryKey keyspace

/-- Where the entry is while its turn is still to come, has come, or is
over. -/
def Track (m : Migration) : Prop :=
  match m.phase with
  | .scanning _ =>
      Waiting keyspace options s e m.server ∨
        Moved keyspace options s e m.server
  | .copying point current rest =>
      Waiting keyspace options s e m.server ∧
          (current = e.candidate →
            Ready keyspace options s e m.server point) ∧
          (current ≠ e.candidate → e.candidate ∈ rest) ∨
        Moved keyspace options s e m.server ∧
          (current = e.candidate → point = .get)
  | .finished (.ok _) => Moved keyspace options s e m.server
  | .finished (.error _) =>
      Waiting keyspace options s e m.server ∨
        Moved keyspace options s e m.server

end States

section Frame

variable {keyspace : Subspace} {options : MigrationOptions} {s : Server}
  {e : Move}

/-- The two keys of the entry hold the same, and time has not gone back. -/
structure SameAt (keyspace : Subspace) (e : Move) (s' s'' : Server) :
    Prop where
  legacy : s''.objects.lookup e.candidate.legacyKey =
    s'.objects.lookup e.candidate.legacyKey
  fresh : s''.objects.lookup (e.candidate.newKey keyspace) =
    s'.objects.lookup (e.candidate.newKey keyspace)
  clock : s'.clock ≤ s''.clock

variable {s' s'' : Server}

theorem SameAt.refl (s' : Server) : SameAt keyspace e s' s' :=
  ⟨rfl, rfl, Int.le_refl _⟩

theorem dead_later {slot : Slot} {clock clock' : Int} (hle : clock ≤ clock')
    (h : slot.live clock = false) : slot.live clock' = false := by
  obtain ⟨datum, deadline⟩ := slot
  cases deadline with
  | none => cases h
  | some deadline =>
      simp only [Slot.live, decide_eq_false_iff_not] at h ⊢
      omega

theorem Settled.same (h : Settled keyspace options s e s')
    (hsame : SameAt keyspace e s' s'') : Settled keyspace options s e s'' := by
  obtain ⟨slot, hslot, horigin⟩ := h
  refine ⟨slot, by rw [hsame.fresh, hslot], ?_⟩
  rcases horigin with hold | ⟨hcopy, hdead⟩
  · exact .inl hold
  · refine .inr ⟨hcopy.later hsame.clock, fun old hfind => ?_⟩
    exact dead_later hsame.clock (hdead old hfind)

theorem Waiting.same (h : Waiting keyspace options s e s')
    (hsame : SameAt keyspace e s' s'') : Waiting keyspace options s e s'' := by
  refine ⟨by rw [hsame.legacy, h.1], ?_⟩
  rcases h.2 with hold | hsettled
  · exact .inl (by rw [hsame.fresh, hold])
  · exact .inr (hsettled.same hsame)

theorem Moved.same (h : Moved keyspace options s e s')
    (hsame : SameAt keyspace e s' s'') : Moved keyspace options s e s'' :=
  ⟨by rw [hsame.legacy, h.1], h.2.1.same hsame, h.2.2⟩

theorem Ready.same {point : Point}
    (h : Ready keyspace options s e s' point)
    (hsame : SameAt keyspace e s' s'') :
    Ready keyspace options s e s'' point := by
  cases point with
  | get | «exists» value | pttl value | renew value | set value => exact h
  | psetex value milliseconds =>
      obtain ⟨hvalue, hpreserve, deadline, hdeadline, hle, hlife⟩ := h
      refine ⟨hvalue, hpreserve, deadline, hdeadline, ?_, hlife⟩
      have := hsame.clock
      omega
  | sadd => exact Settled.same h hsame
  | del => exact ⟨h.1.same hsame, h.2⟩

theorem live_of_not_expired {clock : Int} (h : ¬ e.Expired clock) :
    e.slot.live clock = true := by
  cases hdeadline : e.deadline with
  | none => simp [slot, Slot.live, hdeadline]
  | some deadline =>
      simp only [slot, Slot.live, hdeadline, decide_eq_true_eq]
      by_contra hlt
      exact h ⟨deadline, hdeadline, by omega⟩

theorem Waiting.find (h : Waiting keyspace options s e s')
    (hfresh : ¬ e.Expired s'.clock) :
    s'.find e.candidate.legacyKey = some e.slot := by
  simp only [Server.find, h.1, Option.filter_eq_some_iff]
  exact ⟨trivial, live_of_not_expired hfresh⟩

theorem Waiting.settled (h : Waiting keyspace options s e s')
    (hclock : s.clock ≤ s'.clock)
    (hlive : (s'.find (e.candidate.newKey keyspace)).isSome = true) :
    Settled keyspace options s e s' := by
  rcases h.2 with hold | hsettled
  · obtain ⟨slot, hslot⟩ := Option.isSome_iff_exists.mp hlive
    obtain ⟨hlookup, hnow⟩ := Option.filter_eq_some_iff.mp hslot
    refine ⟨slot, hlookup, .inl ?_⟩
    apply Option.filter_eq_some_iff.mpr
    refine ⟨by rw [← hold, hlookup], ?_⟩
    cases hthen : slot.live s.clock with
    | true => rfl
    | false => rw [dead_later hclock hthen] at hnow; cases hnow
  · exact hsettled

theorem Waiting.dead (h : Waiting keyspace options s e s')
    (hfree : s'.find (e.candidate.newKey keyspace) = none) (old : Slot)
    (hold : s.find (e.candidate.newKey keyspace) = some old) :
    old.live s'.clock = false := by
  have hgone : ∀ slot, s'.objects.lookup (e.candidate.newKey keyspace) =
      some slot → slot.live s'.clock = false := by
    intro slot hslot
    cases hlive : slot.live s'.clock with
    | false => rfl
    | true =>
        rw [Server.find, hslot, Option.filter_eq_none_iff] at hfree
        exact absurd hlive (hfree slot rfl)
  have hthen := (Option.filter_eq_some_iff.mp hold).1
  rcases h.2 with hsame | ⟨slot, hslot, horigin⟩
  · exact hgone old (by rw [hsame, hthen])
  · rcases horigin with horigin | ⟨-, hdead⟩
    · rw [hold] at horigin
      cases horigin
      exact hgone old hslot
    · exact hdead old hold

end Frame

/-! ## Keys that differ -/

section Keys

variable {keyspace : Subspace} {options : MigrationOptions}

theorem legacyKey_ne_newKey (h : keyspace.isEmpty = false)
    {first second : Candidate}
    (hfirst : candidate? keyspace options first.legacyKey = some first)
    (hsize : second.targetCollection.utf8ByteSize < 2 ^ 64) :
    first.legacyKey ≠ second.newKey keyspace := by
  intro heq
  obtain ⟨collection, hkey, -, -, -, hkept, -⟩ :=
    (candidate?_eq_some h).mp hfirst
  rw [hkey, Candidate.newKey, subspaceCompoundKey,
    Subspace.scope_eq_compoundKey h, compoundKey_inj] at heq
  exact hkept ⟨heq.1, .inr ⟨_, _, heq.2, hsize⟩⟩

theorem eq_of_legacyKey {first second : Candidate}
    (hfirst : candidate? keyspace options first.legacyKey = some first)
    (hsecond : candidate? keyspace options second.legacyKey = some second)
    (heq : first.legacyKey = second.legacyKey) : first = second := by
  rw [heq, hsecond] at hfirst
  exact (Option.some.inj hfirst).symm

end Keys

/-! ## Steps -/

section Step

variable {keyspace : Subspace} {options : MigrationOptions}
  {s start : Server} {e : Move} {m m' : Migration}

theorem track_begin {server : Server} {rest : List Candidate}
    {report : MigrationReport}
    (h : Waiting keyspace options s e server ∧ e.candidate ∈ rest ∨
      Moved keyspace options s e server) :
    Track keyspace options s e ⟨server, begin rest, report⟩ := by
  cases rest with
  | nil =>
      rcases h with ⟨-, hmem⟩ | hmoved
      · simp at hmem
      · exact hmoved
  | cons c rest =>
      rcases h with ⟨hwaiting, hmem⟩ | hmoved
      · refine .inl ⟨hwaiting, fun _ => trivial, fun hne => ?_⟩
        exact (List.mem_cons.mp hmem).resolve_left fun heq => hne heq.symm
      · exact .inr ⟨hmoved, fun _ => rfl⟩

theorem sameAt_store {server : Server} {key : String} (slot : Slot)
    (hlegacy : e.candidate.legacyKey ≠ key)
    (hnew : e.candidate.newKey keyspace ≠ key) :
    SameAt keyspace e server (server.store key slot) := by
  refine ⟨?_, ?_, Int.le_refl _⟩
  · rw [Server.store, KeyedMap.lookup_insert_eq, if_neg hlegacy]
  · rw [Server.store, KeyedMap.lookup_insert_eq, if_neg hnew]

theorem sameAt_remove {server : Server} {key : String}
    (hlegacy : e.candidate.legacyKey ≠ key)
    (hnew : e.candidate.newKey keyspace ≠ key) :
    SameAt keyspace e server (server.remove key) := by
  refine ⟨?_, ?_, Int.le_refl _⟩
  · rw [Server.remove, KeyedMap.lookup_erase_eq, if_neg hlegacy]
  · rw [Server.remove, KeyedMap.lookup_erase_eq, if_neg hnew]

/-- A registry that can be written is not the key of a waiting entry. -/
theorem legacyKey_ne_registryKey {members : List String}
    {before : Option Int} {target : String}
    (h : Waiting keyspace options s e m.server ∨
      Moved keyspace options s e m.server)
    (hfresh : ¬ e.Expired m.server.clock)
    (hregistry : m.server.find (registryKey keyspace) = none ∧
        members = [target] ∧ before = none ∨
      ∃ names, m.server.find (registryKey keyspace) =
          some ⟨.set names, before⟩ ∧ members = names.insert target) :
    e.candidate.legacyKey ≠ registryKey keyspace := by
  rcases h with hwaiting | hmoved
  · intro heq
    have hfind := hwaiting.find hfresh
    rw [heq] at hfind
    rcases hregistry with ⟨hnone, -⟩ | ⟨names, hset, -⟩
    · rw [hfind] at hnone
      cases hnone
    · rw [hfind] at hset
      cases hset
  · exact hmoved.2.2

theorem track_other (hkeyspace : keyspace.isEmpty = false)
    (hcandidate : candidate? keyspace options e.candidate.legacyKey =
      some e.candidate)
    (hsize : e.candidate.targetCollection.utf8ByteSize < 2 ^ 64)
    {point : Point} {current : Candidate} {rest : List Candidate}
    (hcurrent : candidate? keyspace options current.legacyKey = some current ∧
      current.targetCollection.utf8ByteSize < 2 ^ 64)
    (hne : current ≠ e.candidate) (hfresh : ¬ e.Expired m.server.clock)
    (h : Waiting keyspace options s e m.server ∧ e.candidate ∈ rest ∨
      Moved keyspace options s e m.server)
    (hstep : Advances keyspace options m current rest point m') :
    Track keyspace options s e m' := by
  have hlegacy : e.candidate.legacyKey ≠ current.legacyKey := fun heq =>
    hne (eq_of_legacyKey hcandidate hcurrent.1 heq).symm
  have hnew : e.candidate.newKey keyspace ≠ current.newKey keyspace :=
    fun heq => hne (newKey_inj hkeyspace hcandidate hcurrent.1 heq).symm
  have hcross := legacyKey_ne_newKey hkeyspace hcandidate hcurrent.2
  have hcross' := legacyKey_ne_newKey hkeyspace hcurrent.1 hsize
  have hsame : ∀ {server : Server}, SameAt keyspace e m.server server →
      Waiting keyspace options s e server ∧ e.candidate ∈ rest ∨
        Moved keyspace options s e server :=
    fun hsame => h.imp (fun h => ⟨h.1.same hsame, h.2⟩) (·.same hsame)
  have hnext : ∀ {server : Server} {point : Point} {report : MigrationReport},
      SameAt keyspace e m.server server →
      Track keyspace options s e ⟨server, .copying point current rest,
        report⟩ := by
    intro server point report hserver
    rcases hsame hserver with ⟨hwaiting, hmem⟩ | hmoved
    · exact .inl ⟨hwaiting, fun heq => absurd heq hne, fun _ => hmem⟩
    · exact .inr ⟨hmoved, fun heq => absurd heq hne⟩
  have hplace := h.imp And.left id
  cases hstep with
  | missing _ => exact track_begin h
  | expired _ _ => exact track_begin h
  | read _ _ _ _ => exact hnext (.refl _)
  | present _ _ => exact hnext (.refl _)
  | absent _ _ => exact hnext (.refl _)
  | temporary _ _ _ _ _ => exact hnext (.refl _)
  | permanent _ _ _ => exact hnext (.refl _)
  | copied _ _ _ _ => exact hnext (sameAt_store _ hcross hnew)
  | registered members deadline hregistry =>
      exact hnext (sameAt_store _
        (legacyKey_ne_registryKey hplace hfresh hregistry)
        (entryKey_ne_registryKey _ _ _))
  | deleted => exact track_begin (hsame (sameAt_remove hlegacy hcross'.symm))
  | refusedRead _ _ _ _ => exact hplace
  | refusedRenewal _ _ _ _ _ => exact hplace
  | refusedName _ _ _ _ => exact hplace

theorem track_own (hkeyspace : keyspace.isEmpty = false)
    (hcandidate : candidate? keyspace options e.candidate.legacyKey =
      some e.candidate)
    (hsize : e.candidate.targetCollection.utf8ByteSize < 2 ^ 64)
    (hclock : s.clock ≤ m.server.clock)
    {point : Point} {rest : List Candidate}
    (hfresh : ¬ e.Expired m.server.clock)
    (hfree : point.awaitsWrite = true →
      m.server.find (e.candidate.newKey keyspace) = none)
    (hwaiting : Waiting keyspace options s e m.server)
    (hready : Ready keyspace options s e m.server point)
    (hstep : Advances keyspace options m e.candidate rest point m') :
    Track keyspace options s e m' := by
  have hfind := hwaiting.find hfresh
  have hcross := legacyKey_ne_newKey hkeyspace hcandidate hsize
  have hregistry : e.candidate.newKey keyspace ≠ registryKey keyspace :=
    entryKey_ne_registryKey _ _ _
  have hown : ∀ {server : Server} {point : Point} {report : MigrationReport},
      Waiting keyspace options s e server →
      Ready keyspace options s e server point →
      Track keyspace options s e ⟨server, .copying point e.candidate rest,
        report⟩ :=
    fun hwaiting hready =>
      .inl ⟨hwaiting, fun _ => hready, fun hne => absurd rfl hne⟩
  cases hstep with
  | missing hnone =>
      rw [hfind] at hnone
      cases hnone
  | read slot value hslot htext =>
      rw [hfind] at hslot
      cases hslot
      cases htext
      exact hown hwaiting rfl
  | refusedRead slot error hslot htext =>
      rw [hfind] at hslot
      cases hslot
      cases htext
  | present value hpresent =>
      exact hown hwaiting (hwaiting.settled hclock hpresent)
  | absent value hnone =>
      refine hown hwaiting ?_
      cases hpreserve : options.preserveTtl with
      | true => exact ⟨hready, hpreserve⟩
      | false => exact ⟨hready, hpreserve⟩
  | expired value hexpired =>
      exfalso
      apply hfresh
      rcases hexpired with hnone | ⟨datum, hslot⟩
      · rw [hfind] at hnone
        cases hnone
      · rw [hfind] at hslot
        have hdeadline := congrArg Slot.deadline (Option.some.inj hslot)
        exact ⟨_, hdeadline, Int.le_refl _⟩
  | temporary value datum deadline hslot hlt =>
      rw [hfind] at hslot
      have hdeadline := congrArg Slot.deadline (Option.some.inj hslot)
      refine hown hwaiting ⟨hready.1, hready.2, deadline, hdeadline, ?_, ?_⟩
      · omega
      · omega
  | permanent value datum hslot =>
      rw [hfind] at hslot
      have hdeadline := congrArg Slot.deadline (Option.some.inj hslot)
      exact hown hwaiting ⟨hready.1, hready.2, hdeadline⟩
  | copied point bytes deadline hkind =>
      have hawaits : point.awaitsWrite = true := by
        rcases hkind with ⟨rfl, -⟩ | ⟨_, rfl, -⟩ | ⟨_, _, _, rfl, -⟩ <;> rfl
      have hcopy : IsCopy options s.clock m.server.clock e
          ⟨.string bytes, deadline⟩ := by
        rcases hkind with ⟨rfl, rfl⟩ | ⟨milliseconds, rfl, rfl⟩ |
          ⟨value, now, fresh, rfl, rfl, hrenewed⟩
        · obtain ⟨rfl, hpreserve, hdeadline⟩ := hready
          exact .preserved none hpreserve (.inl ⟨hdeadline, rfl⟩)
        · obtain ⟨rfl, hpreserve, d, hdeadline, hle, hlife⟩ := hready
          apply IsCopy.preserved _ hpreserve
          exact .inr ⟨d, _, hdeadline, rfl, hle, by omega⟩
        · obtain ⟨rfl, hpreserve⟩ := hready
          exact .renewed bytes now fresh hpreserve hrenewed
      have hsettled : Settled keyspace options s e
          (m.server.store (e.candidate.newKey keyspace)
            ⟨.string bytes, deadline⟩) := by
        refine ⟨_, ?_, .inr ⟨hcopy, hwaiting.dead (hfree hawaits)⟩⟩
        rw [Server.store, KeyedMap.lookup_insert_eq, if_pos rfl]
      refine hown ⟨?_, .inr hsettled⟩ hsettled
      rw [Server.store, KeyedMap.lookup_insert_eq, if_neg hcross]
      exact hwaiting.1
  | registered members deadline hwritable =>
      have hne := legacyKey_ne_registryKey (.inl hwaiting) hfresh hwritable
      have hsame := @sameAt_store keyspace e m.server _
        ⟨.set members, deadline⟩ hne hregistry
      exact hown (hwaiting.same hsame) ⟨Settled.same hready hsame, hne⟩
  | deleted =>
      apply track_begin
      refine .inr ⟨?_, ?_, hready.2⟩
      · rw [Server.remove, KeyedMap.lookup_erase_eq, if_pos rfl]
      · obtain ⟨slot, hslot, horigin⟩ := hready.1
        refine ⟨slot, ?_, horigin⟩
        rw [Server.remove, KeyedMap.lookup_erase_eq, if_neg hcross.symm]
        exact hslot
  | refusedRenewal value now fresh error _ => exact .inl hwaiting
  | refusedName slot error _ _ => exact .inl hwaiting

theorem track_command (hkeyspace : keyspace.isEmpty = false)
    (hcandidate : candidate? keyspace options e.candidate.legacyKey =
      some e.candidate)
    (hsize : e.candidate.targetCollection.utf8ByteSize < 2 ^ 64)
    (hclock : s.clock ≤ start.clock) (hsound : Sound keyspace options start m)
    (h : Track keyspace options s e m) (hfresh : ¬ e.Expired m.server.clock)
    {point : Point} {current : Candidate} {rest : List Candidate}
    (hphase : m.phase = .copying point current rest)
    (hstep : Advances keyspace options m current rest point m') :
    Track keyspace options s e m' := by
  have hcurrent := hsound.derived point current rest hphase current
    List.mem_cons_self
  simp only [Track, hphase] at h
  by_cases heq : current = e.candidate
  · subst heq
    rcases h with ⟨hwaiting, hready, -⟩ | ⟨hmoved, hget⟩
    · exact track_own hkeyspace hcandidate hsize
        (Int.le_trans hclock hsound.clock) hfresh
        (hsound.free point _ rest hphase) hwaiting (hready rfl) hstep
    · -- The same identity once more: its key is gone.
      obtain rfl := hget rfl
      have hnone : m.server.find e.candidate.legacyKey = none := by
        simp [Server.find, hmoved.1]
      cases hstep with
      | missing _ => exact track_begin (.inr hmoved)
      | read slot value hslot _ =>
          rw [hnone] at hslot
          cases hslot
      | refusedRead slot error hslot _ =>
          rw [hnone] at hslot
          cases hslot
      | copied point bytes deadline hkind => simp at hkind
  · apply track_other hkeyspace hcandidate hsize hcurrent heq hfresh _ hstep
    rcases h with ⟨hwaiting, -, hrest⟩ | ⟨hmoved, -⟩
    · exact .inl ⟨hwaiting, hrest heq⟩
    · exact .inr hmoved

theorem advances_clock {point : Point} {current : Candidate}
    {rest : List Candidate}
    (h : Advances keyspace options m current rest point m') :
    m'.server.clock = m.server.clock := by
  cases h <;> rfl

theorem step_clock_le {label : MigrationStep}
    (h : m.step keyspace options label = some m') :
    m.server.clock ≤ m'.server.clock := by
  cases label with
  | scan page last =>
      obtain ⟨seen, -, -, -, rfl⟩ := step_scan h
      exact Int.le_refl _
  | command now fresh =>
      obtain ⟨point, current, rest, -, hadvance⟩ := step_command h
      exact Int.le_of_eq (advances_clock hadvance).symm
  | tick clock =>
      obtain ⟨hle, rfl⟩ := step_tick h
      exact hle

theorem track_step (hkeyspace : keyspace.isEmpty = false)
    (hcandidate : candidate? keyspace options e.candidate.legacyKey =
      some e.candidate)
    (hsize : e.candidate.targetCollection.utf8ByteSize < 2 ^ 64)
    (hclock : s.clock ≤ start.clock) (hsound : Sound keyspace options start m)
    (h : Track keyspace options s e m) {label : MigrationStep}
    (hstep : m.step keyspace options label = some m')
    (hfresh : ¬ e.Expired m'.server.clock) :
    Track keyspace options s e m' := by
  cases label with
  | scan page last =>
      obtain ⟨seen, hphase, hpage, hlast, rfl⟩ := step_scan hstep
      simp only [Track, hphase] at h
      cases last with
      | false => exact h
      | true =>
          apply track_begin
          refine h.imp (fun hwaiting => ⟨hwaiting, ?_⟩) id
          have hlive : e.candidate.legacyKey ∈ m.server.liveKeys := by
            apply List.mem_filter.mpr
            rw [hwaiting.find hfresh]
            exact ⟨KeyedMap.mem_keys_iff.mpr ⟨_, hwaiting.1⟩, rfl⟩
          exact List.mem_filterMap.mpr ⟨_, hlast rfl _ hlive, hcandidate⟩
  | command now fresh =>
      obtain ⟨point, current, rest, hphase, hadvance⟩ := step_command hstep
      rw [advances_clock hadvance] at hfresh
      exact track_command hkeyspace hcandidate hsize hclock hsound h hfresh
        hphase hadvance
  | tick clock =>
      obtain ⟨hle, rfl⟩ := step_tick hstep
      have hsame : SameAt keyspace e m.server
          { m.server with clock := clock } := ⟨rfl, rfl, hle⟩
      cases hphase : m.phase with
      | scanning seen =>
          simp only [Track, hphase] at h ⊢
          exact h.imp (·.same hsame) (·.same hsame)
      | copying point current rest =>
          simp only [Track, hphase] at h ⊢
          exact h.imp
            (fun h => ⟨h.1.same hsame, fun heq => (h.2.1 heq).same hsame,
              h.2.2⟩)
            (fun h => ⟨h.1.same hsame, h.2⟩)
      | finished result =>
          cases result with
          | ok _ =>
              simp only [Track, hphase] at h ⊢
              exact h.same hsame
          | error error =>
              simp only [Track, hphase] at h ⊢
              exact h.imp (·.same hsame) (·.same hsame)

theorem not_expired_of_le {clock clock' : Int} (hle : clock ≤ clock')
    (h : ¬ e.Expired clock') : ¬ e.Expired clock := by
  rintro ⟨deadline, hdeadline, hexpired⟩
  exact h ⟨deadline, hdeadline, Int.le_trans hexpired hle⟩

theorem track_run (hkeyspace : keyspace.isEmpty = false)
    (hcandidate : candidate? keyspace options e.candidate.legacyKey =
      some e.candidate)
    (hsize : Addressable keyspace options s)
    (hslot : s.find e.candidate.legacyKey = some e.slot)
    {labels : List MigrationStep}
    (hrun : run (Migration.step keyspace options) (.start keyspace s) labels =
      some m)
    (hfresh : ¬ e.Expired m.server.clock) : Track keyspace options s e m := by
  have hlookup := (Option.filter_eq_some_iff.mp hslot).1
  have htarget := hsize _ (KeyedMap.mem_keys_iff.mpr ⟨_, hlookup⟩) _ hcandidate
  have hstart : Track keyspace options s e (.start keyspace s) := by
    simp only [Track, Migration.start, hkeyspace, Bool.false_eq_true, if_false]
    exact .inl ⟨hlookup, .inl rfl⟩
  have hkept : Sound keyspace options s m ∧
      (¬ e.Expired m.server.clock → Track keyspace options s e m) := by
    apply run_invariant (P := fun m => Sound keyspace options s m ∧
      (¬ e.Expired m.server.clock → Track keyspace options s e m)) _
      ⟨sound_start keyspace options s, fun _ => hstart⟩
      (along_true _ labels) hrun
    intro m label m' h _ hstep
    refine ⟨sound_step hkeyspace hsize h.1 hstep, fun hfresh => ?_⟩
    have hbefore := not_expired_of_le (step_clock_le hstep) hfresh
    exact track_step hkeyspace hcandidate htarget (Int.le_refl _) h.1
      (h.2 hbefore) hstep hfresh
  exact hkept.2 hfresh

end Step

end Move

/-! ## Keys that the loop leaves alone -/

section Kept

variable {keyspace : Subspace} {options : MigrationOptions}
  {start : Server} {m m' : Migration} {key : String} {slot : Slot}

theorem live_of_le {clock clock' : Int} (hle : clock ≤ clock')
    (h : slot.live clock' = true) : slot.live clock = true := by
  cases hlive : slot.live clock with
  | true => rfl
  | false => rw [Move.dead_later hle hlive] at h; cases h

theorem kept_command (hsound : Sound keyspace options start m)
    (hcandidate : candidate? keyspace options key = none)
    (htext : slot.text.isSome = true) (hfind : m.server.find key = some slot)
    {point : Point} {current : Candidate} {rest : List Candidate}
    (hphase : m.phase = .copying point current rest)
    (hstep : Advances keyspace options m current rest point m') :
    m'.server.find key = some slot := by
  cases hstep with
  | missing _ | expired _ _ | read _ _ _ _ | present _ _ | absent _ _
  | temporary _ _ _ _ _ | permanent _ _ _ | refusedRead _ _ _ _
  | refusedRenewal _ _ _ _ _ | refusedName _ _ _ _ => exact hfind
  | copied point bytes deadline hkind =>
      have hawaits : point.awaitsWrite = true := by
        rcases hkind with ⟨rfl, -⟩ | ⟨_, rfl, -⟩ | ⟨_, _, _, rfl, -⟩ <;> rfl
      have hfree := hsound.free point current rest hphase hawaits
      have hne : key ≠ current.newKey keyspace := by
        rintro rfl
        rw [hfind] at hfree
        cases hfree
      simp only [Server.find_store, if_neg hne, hfind]
  | registered members deadline hregistry =>
      have hne : key ≠ registryKey keyspace := by
        rintro rfl
        rcases hregistry with ⟨hnone, -⟩ | ⟨before, hset, -⟩
        · rw [hfind] at hnone
          cases hnone
        · rw [hfind] at hset
          cases hset
          cases htext
      simp only [Server.find_store, if_neg hne, hfind]
  | deleted =>
      have hcurrent := hsound.derived _ current rest hphase current
        List.mem_cons_self
      have hne : key ≠ current.legacyKey := by
        rintro rfl
        rw [hcandidate] at hcurrent
        cases hcurrent.1
      simp only [Server.find_remove, if_neg hne, hfind]

theorem kept_step (hsound : Sound keyspace options start m)
    (hcandidate : candidate? keyspace options key = none)
    (htext : slot.text.isSome = true) (hfind : m.server.find key = some slot)
    {label : MigrationStep}
    (hstep : m.step keyspace options label = some m')
    (hlive : slot.live m'.server.clock = true) :
    m'.server.find key = some slot := by
  cases label with
  | scan page last =>
      obtain ⟨seen, -, -, -, rfl⟩ := step_scan hstep
      exact hfind
  | command now fresh =>
      obtain ⟨point, current, rest, hphase, hadvance⟩ := step_command hstep
      exact kept_command hsound hcandidate htext hfind hphase hadvance
  | tick clock =>
      obtain ⟨hle, rfl⟩ := step_tick hstep
      rw [Server.find_tick _ _ hle, hfind]
      exact Option.filter_eq_some_iff.mpr ⟨rfl, hlive⟩

theorem kept_run (hkeyspace : keyspace.isEmpty = false)
    (hsize : Addressable keyspace options start)
    (hcandidate : candidate? keyspace options key = none)
    (htext : slot.text.isSome = true) (hfind : start.find key = some slot)
    {labels : List MigrationStep}
    (hrun : run (Migration.step keyspace options) (.start keyspace start)
      labels = some m)
    (hlive : slot.live m.server.clock = true) :
    m.server.find key = some slot := by
  have hkept : Sound keyspace options start m ∧
      (slot.live m.server.clock = true → m.server.find key = some slot) := by
    apply run_invariant (P := fun m => Sound keyspace options start m ∧
      (slot.live m.server.clock = true → m.server.find key = some slot)) _
      ⟨sound_start keyspace options start, fun _ => hfind⟩
      (along_true _ labels) hrun
    intro m label m' h _ hstep
    refine ⟨sound_step hkeyspace hsize h.1 hstep, fun hlive => ?_⟩
    have hbefore := h.2 (live_of_le (Move.step_clock_le hstep) hlive)
    exact kept_step h.1 hcandidate htext hbefore hstep hlive
  exact hkept.2 hlive

end Kept

end OpenKeyV.Redis
