import OpenKeyV.Memory.LiveViews

/-!
# Live migration converges

The target follows the log of the source.  While the snapshot is copied, a
key that no change is left about is either equal on both sides or still ahead
of the copy; afterwards it is equal.  When the source rests and the feed is
drained no change is left about any key.
-/

namespace OpenKeyV.Memory

open OpenKeyV.Library

section Invariant

variable (options : MigrationOptions) (source : System) (target : MemoryState)

def unheard (stream : MemoryChangeStream) : List Mutation :=
  source.log.drop stream.receiver

structure Heard (stream : MemoryChangeStream) (changes : List Mutation) :
    Prop where
  replay : stream.replay = []
  filter : stream.filter = .default
  receiver : stream.receiver ≤ source.history.length
  early : source.state.setupComplete = false → changes = []
  reported : Reported Mutation.cell erasure changes
    (sourceView options source.state source.clock)

/-- The target has what the source has, but for these changes and what is
ahead. -/
abbrev Abreast (changes : List Mutation) (ahead : String × String → Prop) :
    Prop :=
  Follows Mutation.cell changes ahead
    (sourceView options source.state source.clock)
    (targetView options target source.clock)

/-- What is in hand was read from the source, and is still there unless a
change says otherwise. -/
def Shown (changes : List Mutation) (collection : String)
    (item : String × Option (Value × Option F64)) : Prop :=
  latestOf Mutation.cell (collection, item.1) changes = none →
    ∃ read, item.2 =
      shows options read (source.state.lives source.clock (collection, item.1))

def CopyPhase.InHand (changes : List Mutation) : CopyPhase → Prop
  | .opening | .listing => False
  | .enumerating _ | .finished _ => True
  | .reading collection name _ _ => route options collection = some name
  | .putting collection name items _ _ =>
      route options collection = some name ∧
        ∀ item ∈ items, Shown options source changes collection item
  | .puttingMany collection name items _ _ =>
      route options collection = some name ∧
        ∀ item ∈ items, Shown options source changes collection
          (item.1, some (item.2, none))

def CopyPhase.Ahead (phase : CopyPhase) (cell : String × String) : Prop :=
  cell ∈ phase.unread ∨ cell.1 ∈ phase.rest

def Blank : Prop := ∀ name key, target.entry name key = none

inductive Migrating : Stage → Prop where
  | subscribing : Blank target → Migrating .subscribing
  | opening {stream : MemoryChangeStream} {report : MigrationReport} :
      Heard options source stream (unheard source stream) → Blank target →
      Migrating (.copying stream .opening report)
  | listing {stream : MemoryChangeStream} {report : MigrationReport} :
      Heard options source stream (unheard source stream) → Blank target →
      source.state.setupComplete = true →
      Migrating (.copying stream .listing report)
  | copying {stream : MemoryChangeStream} {phase : CopyPhase}
      {report : MigrationReport} :
      Heard options source stream (unheard source stream) →
      source.state.setupComplete = true →
      Abreast options source target (unheard source stream) phase.Ahead →
      phase.InHand options source (unheard source stream) →
      Migrating (.copying stream phase report)
  | awaiting {stream : MemoryChangeStream} {report : MigrationReport} :
      Heard options source stream (unheard source stream) →
      source.state.setupComplete = true →
      Abreast options source target (unheard source stream) (fun _ => False) →
      Migrating (.awaiting stream report)
  | applying {stream : MemoryChangeStream} {change : StoreChange}
      {report : MigrationReport} :
      Heard options source stream
        (changeMutation change :: unheard source stream) →
      source.state.setupComplete = true →
      Abreast options source target
        (changeMutation change :: unheard source stream) (fun _ => False) →
      Migrating (.applying stream change report)
  | writing {stream : MemoryChangeStream} {change : StoreChange}
      {name : String} {value : Option (Value × Option F64)}
      {report : MigrationReport} :
      Heard options source stream
        (changeMutation change :: unheard source stream) →
      source.state.setupComplete = true →
      Abreast options source target
        (changeMutation change :: unheard source stream) (fun _ => False) →
      route options change.collection = some name →
      Shown options source (unheard source stream) change.collection
        (change.key, value) →
      Migrating (.writing stream change name value report)
  | failed {error : Error} : Migrating (.failed error)

end Invariant

/-! ## Steps of the source -/

section Source

variable {options : MigrationOptions} {source source' : System}
  {target : MemoryState} {stream : MemoryChangeStream}
  {changes added : List Mutation} {ahead : String × String → Prop}

theorem Logged.length_le (h : Logged source source' added) :
    source.history.length ≤ source'.history.length := by
  obtain ⟨moved, hmoved⟩ := h.history
  rw [hmoved, List.length_append]
  omega

theorem Logged.unheard (h : Logged source source' added)
    (hreceiver : stream.receiver ≤ source.history.length) :
    Memory.unheard source' stream = Memory.unheard source stream ++ added := by
  have hlog : stream.receiver ≤ source.log.length := by
    rw [System.log, List.length_append]
    omega
  rw [Memory.unheard, h.log, List.drop_append_of_le_length hlog]
  rfl

theorem Heard.logged (h : Heard options source stream changes)
    (hlogged : Logged source source' added) :
    Heard options source' stream (changes ++ added) where
  replay := h.replay
  filter := h.filter
  receiver := h.receiver.trans hlogged.length_le
  early := by
    intro hearly
    cases hcomplete : source.state.setupComplete with
    | true =>
        rw [hlogged.setup hcomplete] at hearly
        cases hearly
    | false => rw [h.early hcomplete, hlogged.early hcomplete]; rfl
  reported := by
    cases hcomplete : source.state.setupComplete with
    | true =>
        exact h.reported.append (reports_sourceView (hlogged.reports hcomplete))
    | false =>
        rw [h.early hcomplete, hlogged.early hcomplete]
        exact fun _ _ hlatest => by cases hlatest

theorem Shown.logged {collection : String}
    {item : String × Option (Value × Option F64)}
    (h : Shown options source changes collection item)
    (hcomplete : source.state.setupComplete = true)
    (hlogged : Logged source source' added) :
    Shown options source' (changes ++ added) collection item := by
  intro hnone
  rw [latestOf_append, Option.or_eq_none_iff] at hnone
  rw [(hlogged.reports hcomplete).same _ hnone.1]
  exact h hnone.2

theorem CopyPhase.InHand.logged {phase : CopyPhase}
    (h : phase.InHand options source changes)
    (hcomplete : source.state.setupComplete = true)
    (hlogged : Logged source source' added) :
    phase.InHand options source' (changes ++ added) := by
  cases phase with
  | putting collection name items keys rest =>
      exact ⟨h.1, fun item hitem => (h.2 item hitem).logged hcomplete hlogged⟩
  | puttingMany collection name items keys rest =>
      exact ⟨h.1, fun item hitem => (h.2 item hitem).logged hcomplete hlogged⟩
  | _ => exact h

theorem Abreast.logged (h : Abreast options source target changes ahead)
    (hcomplete : source.state.setupComplete = true)
    (hlogged : Logged source source' added)
    (hlasting : Lasting target source.clock source'.clock) :
    Abreast options source' target (changes ++ added) ahead := by
  unfold Abreast at h ⊢
  rw [targetView_lasting hlasting]
  exact h.append (reports_sourceView (hlogged.reports hcomplete))

theorem Migrating.logged {stage : Stage}
    (h : Migrating options source target stage)
    (hlogged : Logged source source' added)
    (hlasting : Lasting target source.clock source'.clock) :
    Migrating options source' target stage := by
  cases h with
  | subscribing hblank => exact .subscribing hblank
  | opening hheard hblank =>
      refine .opening ?_ hblank
      rw [hlogged.unheard hheard.receiver]
      exact hheard.logged hlogged
  | listing hheard hblank hcomplete =>
      refine .listing ?_ hblank (hlogged.setup hcomplete)
      rw [hlogged.unheard hheard.receiver]
      exact hheard.logged hlogged
  | copying hheard hcomplete habreast hhand =>
      refine .copying ?_ (hlogged.setup hcomplete) ?_ ?_ <;>
        rw [hlogged.unheard hheard.receiver]
      · exact hheard.logged hlogged
      · exact habreast.logged hcomplete hlogged hlasting
      · exact hhand.logged hcomplete hlogged
  | awaiting hheard hcomplete habreast =>
      refine .awaiting ?_ (hlogged.setup hcomplete) ?_ <;>
        rw [hlogged.unheard hheard.receiver]
      · exact hheard.logged hlogged
      · exact habreast.logged hcomplete hlogged hlasting
  | applying hheard hcomplete habreast =>
      refine .applying ?_ (hlogged.setup hcomplete) ?_ <;>
        rw [hlogged.unheard hheard.receiver]
      · exact hheard.logged hlogged
      · exact habreast.logged hcomplete hlogged hlasting
  | writing hheard hcomplete habreast hroute hshown =>
      refine .writing ?_ (hlogged.setup hcomplete) ?_ hroute ?_ <;>
        rw [hlogged.unheard hheard.receiver]
      · exact hheard.logged hlogged
      · exact habreast.logged hcomplete hlogged hlasting
      · exact hshown.logged hcomplete hlogged
  | failed => exact .failed

end Source

/-! ## Steps of the copy -/

section Copy

variable {options : MigrationOptions} {source : System}
  {target target' : MemoryState} {stream : MemoryChangeStream}
  {changes : List Mutation} {collection name key : String}
  {stage : Stage} {report : MigrationReport}

theorem Migrating.touched {state : MemoryState}
    (h : Migrating options source target stage)
    (hedits : Edits source.state [] state)
    (hsetup : state.setupComplete = source.state.setupComplete) :
    Migrating options { source with state } target stage := by
  have hhistory : System.history { source with state } = source.history := by
    simp [System.history, hedits.quiet.1]
  have hlogged : Logged source { source with state } [] := by
    refine ⟨?_, ⟨[], ?_⟩, fun hcomplete => ?_, fun _ => rfl, fun _ => ?_⟩
    · rw [List.append_nil]
      exact congrArg (· ++ source.pending) hhistory
    · rw [hhistory, List.append_nil]
    · exact hsetup.trans hcomplete
    · change Reports _ _ _ _ (state.lives source.clock)
      rw [hedits.lives]
      exact .refl
  exact h.logged hlogged fun _ _ => rfl

theorem Abreast.narrow {ahead ahead' : String × String → Prop}
    (h : Abreast options source target changes ahead)
    (hahead : ∀ cell, ahead cell →
      (route options cell.1).isSome = true →
      (source.state.lives source.clock cell).isSome = true →
      latestOf Mutation.cell cell changes = none → ahead' cell) :
    Abreast options source target changes ahead' := by
  refine h.write (fun _ _ => .inl rfl) fun cell hnone hsome hcell => .inl ?_
  obtain ⟨hroute, hlive⟩ := isSome_sourceView hsome
  exact hahead cell hcell hroute hlive hnone

theorem sourceView_of_shown {read : DateTime}
    (h : none = shows options read
      (source.state.lives source.clock (collection, key))) :
    source.state.lives source.clock (collection, key) = none := by
  simpa [shows] using h.symm

theorem Abreast.put {ahead ahead' : String × String → Prop} {value : Value}
    {ttl : Option F64} {entry : ManagedEntry} {revision : Revision}
    (h : Abreast options source target changes ahead)
    (hroute : route options collection = some name)
    (hshown : Shown options source changes collection
      (key, some (value, ttl)))
    (hentry : ManagedEntry.ofTtl source.clock value ttl = .ok entry)
    (hstored : ∀ name' key', target'.entry name' key' =
      if (name, key) = (name', key') then some ⟨entry, revision⟩
      else target.entry name' key')
    (hahead : ∀ cell, ahead cell → cell = (collection, key) ∨ ahead' cell) :
    Abreast options source target' changes ahead' := by
  have hwritten : latestOf Mutation.cell (collection, key) changes = none →
      targetView options target' source.clock (collection, key) =
        sourceView options source.state source.clock (collection, key) := by
    intro hnone
    obtain ⟨read, hread⟩ := hshown hnone
    exact targetView_written hroute hread hentry
      ((hstored name key).trans (if_pos rfl))
  have hother : ∀ cell, cell ≠ (collection, key) →
      targetView options target' source.clock cell =
        targetView options target source.clock cell := by
    intro cell hne
    refine targetView_congr fun name' hroute' => ?_
    rw [hstored, if_neg (target_ne hroute hne name' hroute')]
  refine h.write (fun cell hnone => ?_) fun cell hnone _ hcell => ?_
  · by_cases hcell : cell = (collection, key)
    · subst hcell
      exact .inr (hwritten hnone)
    · exact .inl (hother cell hcell)
  · rcases hahead cell hcell with rfl | hcell
    · exact .inr (hwritten hnone)
    · exact .inl hcell

theorem Abreast.putMany {ahead ahead' : String × String → Prop}
    {items : List (String × Value)}
    (h : Abreast options source target changes ahead)
    (hroute : route options collection = some name)
    (hshown : ∀ item ∈ items, Shown options source changes collection
      (item.1, some (item.2, none)))
    (hstored : ∀ name' key',
      (¬ (name' = name ∧ key' ∈ items.map Prod.fst) ∧
        target'.entry name' key' = target.entry name' key') ∨
      ∃ item ∈ items, (name, item.1) = (name', key') ∧ ∃ revision,
        target'.entry name' key' =
          some ⟨.new source.clock item.2, revision⟩)
    (hahead : ∀ cell, ahead cell →
      (∃ key ∈ items.map Prod.fst, cell = (collection, key)) ∨ ahead' cell) :
    Abreast options source target' changes ahead' := by
  have hwritten : ∀ key ∈ items.map Prod.fst,
      latestOf Mutation.cell (collection, key) changes = none →
      targetView options target' source.clock (collection, key) =
        sourceView options source.state source.clock (collection, key) := by
    intro key hkey hnone
    rcases hstored name key with ⟨hout, _⟩ | ⟨item, hitem, heq, revision, hput⟩
    · exact absurd ⟨rfl, hkey⟩ hout
    · cases heq
      obtain ⟨read, hread⟩ := hshown item hitem hnone
      exact targetView_written hroute hread rfl hput
  have hother : ∀ cell, (∀ key ∈ items.map Prod.fst,
      cell ≠ (collection, key)) →
      targetView options target' source.clock cell =
        targetView options target source.clock cell := by
    intro cell hne
    refine targetView_congr fun name' hroute' => ?_
    rcases hstored name' cell.2 with ⟨_, hsame⟩ | ⟨item, hitem, heq, _⟩
    · exact hsame
    · exact absurd heq (target_ne hroute
        (hne item.1 (List.mem_map_of_mem hitem)) name' hroute')
  refine h.write (fun cell hnone => ?_) fun cell hnone _ hcell => ?_
  · by_cases hcell : ∃ key ∈ items.map Prod.fst, cell = (collection, key)
    · obtain ⟨key, hkey, rfl⟩ := hcell
      exact .inr (hwritten key hkey hnone)
    · refine .inl (hother cell fun key hkey heq => hcell ⟨key, hkey, heq⟩)
  · rcases hahead cell hcell with ⟨key, hkey, rfl⟩ | hcell
    · exact .inr (hwritten key hkey hnone)
    · exact .inl hcell

theorem Migrating.ensured (h : Migrating options source target stage)
    (collection : String) :
    Migrating options
      { source with state := source.state.ensureCollection collection } target
      stage :=
  h.touched (edits_ensureCollection source.state collection)
    (setupComplete_ensureCollection source.state collection)

variable {config targetConfig : MemoryConfig}
  {rng targetRng : Nat → Option Revision} {order targetOrder : Order}
  {phase : CopyPhase} {copy : Copy MemoryState}

theorem Migrating.opened
    (hheard : Heard options source stream (unheard source stream))
    (hblank : Blank target) {state : MemoryState}
    (hsetup : setup config rng source.clock order source.state =
      (.ok (), state)) :
    Migrating options { source with state } target
      (.copying stream .listing report) := by
  have hcomplete := setup_setupComplete hsetup
  have hchanges : state.changes = source.state.changes := by
    have hkept := setup_changes config rng source.clock order source.state
    rwa [hsetup] at hkept
  have hhistory : System.history { source with state } = source.history := by
    simp only [System.history, hchanges]
  have hunheard : unheard { source with state } stream =
      unheard source stream := by
    unfold unheard System.log
    rw [hhistory]
    rfl
  refine .listing ⟨hheard.replay, hheard.filter, ?_, fun hearly => ?_, ?_⟩
    hblank hcomplete
  · rw [hhistory]
    exact hheard.receiver
  · rw [hcomplete] at hearly
    cases hearly
  · rw [hunheard]
    cases hbefore : source.state.setupComplete with
    | true =>
        rw [setup_complete hbefore] at hsetup
        cases hsetup
        exact hheard.reported
    | false =>
        rw [hheard.early hbefore]
        exact fun _ _ hlatest => by cases hlatest

theorem Migrating.listed
    (hheard : Heard options source stream (unheard source stream))
    (hblank : Blank target) (hcomplete : source.state.setupComplete = true)
    (hpage : source.state.collections.size ≤ pageLimit) :
    Migrating options source target (.copying stream
      (.enumerating ((order.keys "" source.state.collections.keys).take
        pageLimit)) report) := by
  refine .copying hheard hcomplete (fun cell _ => ?_) trivial
  have hnone : targetView options target source.clock cell = none := by
    unfold targetView MemoryState.live
    cases route options cell.1 with
    | none => rfl
    | some name => simp [hblank name cell.2]
  cases hview : sourceView options source.state source.clock cell with
  | none => exact .inl hnone
  | some view =>
      refine .inr ⟨rfl, .inr ?_⟩
      have hlive := (isSome_sourceView (Option.isSome_of_eq_some hview)).2
      obtain ⟨stored, hlive⟩ := Option.isSome_iff_exists.mp hlive
      obtain ⟨hentry, _⟩ := Option.filter_eq_some_iff.mp hlive
      obtain ⟨col, hcol, _⟩ := Option.bind_eq_some_iff.mp hentry
      have hperm := order.keys_perm "" source.state.collections.keys
      change cell.1 ∈ List.take _ _
      rw [List.take_of_length_le (hperm.length_eq.trans_le hpage),
        hperm.mem_iff]
      exact KeyedMap.mem_keys_iff.mpr ⟨col, hcol⟩

theorem size_page
    (hpages : ∀ entry ∈ source.state.collections.entries,
      entry.2.size ≤ pageLimit) (collection : String) :
    ((source.state.collection collection).getD ∅).size ≤ pageLimit := by
  cases hcol : source.state.collection collection with
  | none => exact Nat.zero_le _
  | some col => exact hpages _ (AList.mem_lookup_iff.mp hcol)

theorem mem_keys_of_lives
    (h : (source.state.lives source.clock (collection, key)).isSome = true) :
    key ∈ ((source.state.collection collection).getD ∅).keys := by
  obtain ⟨stored, hlive⟩ := Option.isSome_iff_exists.mp h
  obtain ⟨hentry, _⟩ := Option.filter_eq_some_iff.mp hlive
  obtain ⟨col, hcol, hlookup⟩ := Option.bind_eq_some_iff.mp hentry
  rw [hcol]
  exact KeyedMap.mem_keys_iff.mpr ⟨stored, hlookup⟩

theorem shown_ttlItems (hpreserve : options.preserveTtl = true)
    (keys : List String) :
    ∀ item ∈ ttlItems source.state source.clock collection keys,
      Shown options source changes collection item := by
  intro item hitem _
  obtain ⟨key, _, rfl⟩ := List.mem_map.mp hitem
  exact ⟨source.clock, by simp [shows, hpreserve, MemoryState.lives]⟩

theorem shown_valueItems (hpreserve : options.preserveTtl = false)
    (keys : List String) :
    ∀ item ∈ valueItems source.state source.clock collection keys,
      Shown options source changes collection
        (item.1, some (item.2, none)) := by
  intro item hitem _
  obtain ⟨_, stored, hlive, hvalue⟩ := mem_valueItems.mp hitem
  exact ⟨source.clock, by
    simp [shows, hpreserve, MemoryState.lives, hlive, hvalue]⟩

section Phases

variable {collection name : String} {keys left rest : List String}
  (hheard : Heard options source stream (unheard source stream))
  (hcomplete : source.state.setupComplete = true)

include hheard hcomplete

theorem Migrating.enumerated
    (habreast : Abreast options source target (unheard source stream)
      (CopyPhase.enumerating (collection :: rest)).Ahead)
    (hroute : route options collection = some name)
    (hpages : ∀ entry ∈ source.state.collections.entries,
      entry.2.size ≤ pageLimit) :
    Migrating options source target (.copying stream (.reading collection name
      ((order.keys collection ((source.state.collection collection).getD
        ∅).keys).take pageLimit) rest) report) := by
  refine .copying hheard hcomplete (habreast.narrow ?_) hroute
  intro cell hcell _ hlive _
  rcases hcell with hcell | hcell
  · cases hcell
  · rcases List.mem_cons.mp hcell with heq | hcell
    · have hperm := order.keys_perm collection
        ((source.state.collection collection).getD ∅).keys
      have hsize := size_page hpages collection
      refine .inl (List.mem_map.mpr ⟨cell.2, ?_, by rw [← heq]⟩)
      rw [List.take_of_length_le (hperm.length_eq.trans_le hsize),
        hperm.mem_iff]
      exact mem_keys_of_lives (by rw [← heq]; exact hlive)
    · exact .inr hcell

theorem Migrating.readValues
    (habreast : Abreast options source target (unheard source stream)
      (CopyPhase.reading collection name keys rest).Ahead)
    (hroute : route options collection = some name)
    (hpreserve : options.preserveTtl = false) {items : List (String × Value)}
    (hitems : items = valueItems source.state source.clock collection
      (keys.take options.chunkSize)) :
    Migrating options source target (.ofCopy stream report
      (if items.isEmpty then
        .reading collection name (keys.drop options.chunkSize) rest
      else .puttingMany collection name items (keys.drop options.chunkSize)
        rest)) := by
  have hahead : ∀ cell, (CopyPhase.reading collection name keys rest).Ahead
      cell → (source.state.lives source.clock cell).isSome = true →
      (∃ key ∈ items.map Prod.fst ++ keys.drop options.chunkSize,
        (collection, key) = cell) ∨ cell.1 ∈ rest := by
    intro cell hcell hlive
    refine hcell.imp (fun hcell => ?_) id
    obtain ⟨key, hkey, rfl⟩ := List.mem_map.mp hcell
    refine ⟨key, List.mem_append.mpr ?_, rfl⟩
    rw [← List.take_append_drop options.chunkSize keys] at hkey
    refine (List.mem_append.mp hkey).imp (fun hkey => ?_) id
    obtain ⟨stored, hstored⟩ := Option.isSome_iff_exists.mp hlive
    refine List.mem_map.mpr ⟨(key, stored.entry.value), ?_, rfl⟩
    rw [hitems, mem_valueItems]
    exact ⟨hkey, stored, hstored, rfl⟩
  cases hempty : items.isEmpty with
  | true =>
      obtain rfl := List.isEmpty_iff.mp hempty
      refine .copying hheard hcomplete (habreast.narrow ?_) hroute
      intro cell hcell _ hlive _
      exact (hahead cell hcell hlive).imp List.mem_map.mpr id
  | false =>
      have hshown : ∀ item ∈ items, Shown options source
          (unheard source stream) collection
          (item.1, some (item.2, none)) := by
        rw [hitems]
        exact shown_valueItems hpreserve _
      refine .copying hheard hcomplete (habreast.narrow ?_) ⟨hroute, hshown⟩
      intro cell hcell _ hlive _
      exact (hahead cell hcell hlive).imp List.mem_map.mpr id

theorem Migrating.skipped {items : List (String × Option (Value × Option F64))}
    (habreast : Abreast options source target (unheard source stream)
      (CopyPhase.putting collection name ((key, none) :: items) left
        rest).Ahead)
    (hhand : (CopyPhase.putting collection name ((key, none) :: items) left
      rest).InHand options source (unheard source stream)) :
    Migrating options source target (.copying stream
      (.putting collection name items left rest) report) := by
  refine .copying hheard hcomplete (habreast.narrow ?_)
    ⟨hhand.1, fun item hitem => hhand.2 item (List.mem_cons_of_mem _ hitem)⟩
  intro cell hcell _ hlive hnone
  refine hcell.imp (fun hcell => ?_) id
  rcases List.mem_cons.mp hcell with rfl | hcell
  · obtain ⟨read, hread⟩ := hhand.2 _ (List.mem_cons_self ..) hnone
    rw [sourceView_of_shown hread] at hlive
    cases hlive
  · exact hcell

end Phases

theorem Migrating.copied (hseed : targetConfig.seed = none)
    (hheard : Heard options source stream (unheard source stream))
    (hcomplete : source.state.setupComplete = true)
    (habreast : Abreast options source target (unheard source stream)
      phase.Ahead)
    (hhand : phase.InHand options source (unheard source stream))
    (hpages : ∀ entry ∈ source.state.collections.entries,
      entry.2.size ≤ pageLimit)
    (hroom : ∀ call ∈ (Stage.copying stream phase report).putCall,
      evictions targetConfig targetRng source.clock targetOrder call target =
        [])
    (hcopies : Copies options
      (memoryTarget targetConfig targetRng source.clock targetOrder)
      ⟨source.state, target, phase, report⟩ source.clock order phase copy) :
    Migrating options { source with state := copy.source } copy.target
      (.ofCopy stream copy.report copy.phase) := by
  cases hcopies with
  | listed => exact hhand.elim
  | ended =>
      refine .awaiting hheard hcomplete (habreast.narrow fun cell hcell => ?_)
      rcases hcell with hcell | hcell <;> cases hcell
  | passed collection rest hnone =>
      refine .copying hheard hcomplete (habreast.narrow ?_) trivial
      intro cell hcell hroute _ _
      rcases hcell with hcell | hcell
      · cases hcell
      · rcases List.mem_cons.mp hcell with heq | hcell
        · rw [heq, route_eq_none hnone] at hroute
          cases hroute
        · exact .inr hcell
  | enumerated collection name rest hselected hmapped =>
      exact (Migrating.enumerated hheard hcomplete habreast
        (route_eq_some.mpr ⟨hselected, hmapped⟩) hpages).ensured collection
  | drained collection name rest =>
      refine .copying hheard hcomplete (habreast.narrow ?_) trivial
      intro cell hcell _ _ _
      exact hcell.imp (fun hcell => by cases hcell) id
  | readTtls collection name keys rest hpreserve hkeys =>
      refine Migrating.ensured ?_ collection
      refine .copying hheard hcomplete (habreast.narrow ?_)
        ⟨hhand, shown_ttlItems hpreserve _⟩
      intro cell hcell _ _ _
      refine hcell.imp (fun hcell => ?_) id
      simpa [CopyPhase.unread, fst_ttlItems] using hcell
  | readValues collection name keys rest items hpreserve hkeys hitems =>
      exact (Migrating.readValues hheard hcomplete habreast hhand hpreserve
        hitems).ensured collection
  | written collection name left rest =>
      exact .copying hheard hcomplete (habreast.narrow fun _ hcell _ _ _ => hcell)
        hhand.1
  | skipped collection name key items left rest =>
      exact Migrating.skipped hheard hcomplete habreast hhand
  | put collection name key value ttl items left rest t hput =>
      obtain ⟨entry, revision, hentry, hstored⟩ :=
        put_target hseed (hroom _ rfl) hput
      refine .copying hheard hcomplete ?_
        ⟨hhand.1, fun item hitem => hhand.2 item (List.mem_cons_of_mem _ hitem)⟩
      refine habreast.put hhand.1 (hhand.2 _ (List.mem_cons_self ..)) hentry
        hstored fun cell hcell => ?_
      rcases hcell with hcell | hcell
      · exact (List.mem_cons.mp hcell).imp id .inl
      · exact .inr (.inr hcell)
  | putMany collection name items left rest t hput =>
      refine .copying hheard hcomplete ?_ hhand.1
      refine habreast.putMany hhand.1 hhand.2
        (putMany_target hseed (hroom _ rfl) hput) fun cell hcell => ?_
      rcases hcell with hcell | hcell
      · obtain ⟨key, hkey, rfl⟩ := List.mem_map.mp hcell
        rcases List.mem_append.mp hkey with hkey | hkey
        · exact .inl ⟨key, hkey, rfl⟩
        · exact .inr (.inl (List.mem_map_of_mem hkey))
      · exact .inr (.inr hcell)
  | putRefused | putManyRefused => exact .failed

end Copy

end OpenKeyV.Memory
