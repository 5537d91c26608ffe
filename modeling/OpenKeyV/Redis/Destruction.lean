import OpenKeyV.Redis.Enumeration

/-!
# Destroying a collection on any keyspace

Here the stream need not be behind the counter: a `destroy` that stops
half-way can take the counter and leave the stream.  `Fits` says that the
stream takes the records of a number of removals.
-/

namespace OpenKeyV.Redis

open Library Program RedisStore

/-- The stream takes the records of `m` removals. -/
def Fits (keyspace : Subspace) (retention : Nat) (s : Server) (m : Nat) :
    Prop :=
  retention = 0 ∨ m = 0 ∨ Accepts retention (s.revision keyspace + m) ∧
    (s.feed keyspace).lastId.lt ⟨s.revision keyspace + 1, 0⟩ = true

/-- What a bulk removal of `keys` did: `dropped` are gone.  It stops at the
first removal whose record does not fit. -/
structure Sweep (keyspace : Subspace) (retention : Nat) (collection : String)
    (s s' : Server) (keys : List String) (ok : Bool) (dropped : List String) :
    Prop where
  typed : Typed keyspace s'
  nodup : dropped.Nodup
  present : ∀ key ∈ dropped,
    key ∈ keys ∧ (s.entry keyspace collection key).isSome
  all : ok = true → ∀ key ∈ keys, (s.entry keyspace collection key).isSome →
    key ∈ dropped
  entry : ∀ key, s'.entry keyspace collection key =
    if key ∈ dropped then none else s.entry keyspace collection key
  onward : ok = true → ∀ m, Fits keyspace retention s' m ↔
    Fits keyspace retention s (dropped.length + m)
  stopped : ok = false → ¬ Fits keyspace retention s dropped.length

section Fits

variable {keyspace : Subspace} {retention : Nat} {s s' : Server}

theorem Fits.mono {m n : Nat} (h : Fits keyspace retention s n)
    (hle : m ≤ n) : Fits keyspace retention s m := by
  rcases h with h | h | ⟨⟨hrevision, hretention⟩, hlast⟩
  · exact .inl h
  · exact .inr (.inl (by omega))
  · exact .inr (.inr ⟨⟨by omega, hretention⟩, hlast⟩)

theorem fits_recorded (hfits : Fits keyspace retention s 1)
    (hpos : 0 < retention)
    (hrevision : s'.revision keyspace = s.revision keyspace + 1)
    (hlast : (s'.feed keyspace).lastId = ⟨s.revision keyspace + 1, 0⟩)
    (m : Nat) :
    Fits keyspace retention s' m ↔ Fits keyspace retention s (1 + m) := by
  obtain ⟨⟨hless, hretention⟩, hbelow⟩ :=
    (hfits.resolve_left (by omega)).resolve_left (by omega)
  have hnext : (s'.feed keyspace).lastId.lt ⟨s'.revision keyspace + 1, 0⟩ =
      true := by
    rw [hlast, hrevision]
    simp [StreamId.lt]
  constructor
  · rintro (h | h | h)
    · exact .inl h
    · rw [h]
      exact hfits
    · refine .inr (.inr ⟨⟨?_, hretention⟩, hbelow⟩)
      have := h.1.1
      omega
  · rintro (h | h | h)
    · exact .inl h
    · omega
    · refine .inr (.inr ⟨⟨?_, hretention⟩, hnext⟩)
      have := h.1.1
      omega

end Fits

section Sweep

variable {keyspace : Subspace} {retention : Nat} {collection : String}
  {s s₁ s₂ : Server}

theorem sweep_nil (h : Typed keyspace s) :
    Sweep keyspace retention collection s s [] true [] :=
  ⟨h, List.nodup_nil, by simp, by simp, by simp, by simp, by simp⟩

theorem Sweep.append {keys₁ keys₂ dropped₁ dropped₂ : List String} {ok : Bool}
    (h₁ : Sweep keyspace retention collection s s₁ keys₁ true dropped₁)
    (h₂ : Sweep keyspace retention collection s₁ s₂ keys₂ ok dropped₂) :
    Sweep keyspace retention collection s s₂ (keys₁ ++ keys₂) ok
      (dropped₁ ++ dropped₂) := by
  have hstill : ∀ key, (s₁.entry keyspace collection key).isSome →
      key ∉ dropped₁ ∧ (s.entry keyspace collection key).isSome := by
    intro key hsome
    rw [h₁.entry] at hsome
    split at hsome
    · cases hsome
    · exact ⟨by assumption, hsome⟩
  constructor
  · exact h₂.typed
  · refine List.nodup_append.mpr ⟨h₁.nodup, h₂.nodup, ?_⟩
    rintro key hkey _ hkey' rfl
    exact (hstill key (h₂.present key hkey').2).1 hkey
  · intro key hkey
    rcases List.mem_append.mp hkey with hkey | hkey
    · obtain ⟨hmem, hsome⟩ := h₁.present key hkey
      exact ⟨List.mem_append_left _ hmem, hsome⟩
    · obtain ⟨hmem, hsome⟩ := h₂.present key hkey
      exact ⟨List.mem_append_right _ hmem, (hstill key hsome).2⟩
  · intro hok key hkey hsome
    by_cases hgone : key ∈ dropped₁
    · exact List.mem_append_left _ hgone
    · rcases List.mem_append.mp hkey with hkey | hkey
      · exact absurd (h₁.all rfl key hkey hsome) hgone
      · refine List.mem_append_right _ (h₂.all hok key hkey ?_)
        rwa [h₁.entry, if_neg hgone]
  · intro key
    rw [h₂.entry, h₁.entry]
    by_cases h : key ∈ dropped₁ <;> by_cases h' : key ∈ dropped₂ <;> simp [h, h']
  · intro hok m
    rw [h₂.onward hok, h₁.onward rfl, List.length_append, Nat.add_assoc]
  · intro hok hfits
    rw [List.length_append] at hfits
    exact h₂.stopped hok ((h₁.onward rfl _).mpr hfits)

theorem eval_xadd_typed (h : Typed keyspace s) (retention n : Nat)
    (fields : List (String × String)) :
    (Accepts retention n ∧ (s.feed keyspace).lastId.lt ⟨n, 0⟩ = true ∧
        eval (xadd (streamKey keyspace) retention (ChangeId.streamId? ⟨n⟩)
          fields) s = (.ok (), s.store (streamKey keyspace)
            ⟨.stream ((s.feed keyspace).push retention ⟨⟨n, 0⟩, fields⟩),
              none⟩)) ∨
      ¬ (Accepts retention n ∧
          (s.feed keyspace).lastId.lt ⟨n, 0⟩ = true) ∧
        ∃ error, eval (xadd (streamKey keyspace) retention
          (ChangeId.streamId? ⟨n⟩) fields) s = (.error error, s) := by
  by_cases hrefused : ChangeId.streamId? ⟨n⟩ = none ∨ 2 ^ 63 ≤ retention
  · refine .inr ⟨fun hfits => ?_, eval_xadd_refused h.stream _ _ _ hrefused⟩
    obtain ⟨⟨hless, hretention⟩, -⟩ := hfits
    rcases hrefused with hnone | hlarge
    · rw [ChangeId.streamId?, if_pos hless] at hnone
      cases hnone
    · omega
  · obtain ⟨hid, hretention⟩ := not_or.mp hrefused
    have hless : n < 10 ^ 14 := by
      by_contra hlarge
      exact hid (if_neg hlarge)
    have haccepts : Accepts retention n := ⟨hless, by omega⟩
    rw [ChangeId.streamId?, if_pos hless]
    by_cases hbelow : (s.feed keyspace).lastId.lt ⟨n, 0⟩ = true
    · exact .inl ⟨haccepts, hbelow,
        eval_xadd h.stream retention ⟨n, 0⟩ fields (by omega) hbelow⟩
    · refine .inr ⟨fun hfits => hbelow hfits.2, .idTooSmall, ?_⟩
      rw [Server.feed] at hbelow
      rcases h.stream with hfind | ⟨stream, hfind⟩ <;>
        simp only [Server.streamAt, hfind] at hbelow <;>
        simp only [xadd, eval_ofFn, hfind, if_neg hretention, if_neg hbelow]

theorem sweep_one (h : Typed keyspace s) {key : String}
    (hsome : (s.entry keyspace collection key).isSome) (retention : Nat)
    (occurredAt : String) :
    ∃ r s', eval (bulkRemove (subspaceCompoundKey keyspace collection key)
          (revisionKey keyspace) (streamKey keyspace) retention collection
          occurredAt key) s = (r, s') ∧
      Sweep keyspace retention collection s s' [key] r.isOk [key] := by
  have hbase : ∀ s', Typed keyspace s' →
      (∀ key', s'.entry keyspace collection key' =
        if key' = key then none else s.entry keyspace collection key') →
      ∀ ok, (ok = true → ∀ m, Fits keyspace retention s' m ↔
          Fits keyspace retention s (1 + m)) →
        (ok = false → ¬ Fits keyspace retention s 1) →
        Sweep keyspace retention collection s s' [key] ok [key] :=
    fun s' htyped hentry ok honward hstopped =>
      ⟨htyped, by simp, by simpa using hsome, by simp, by simpa using hentry,
        honward, hstopped⟩
  have hentry₀ := entry_remove s keyspace collection key
  have htyped₀ := h.remove (subspaceCompoundKey keyspace collection key)
  simp only [bulkRemove, eval_bind, del, eval_ofFn, resume_ok]
  set s₀ := s.remove (subspaceCompoundKey keyspace collection key) with hs₀
  have hrevision₀ : s₀.revision keyspace = s.revision keyspace := by simp [hs₀]
  have hfeed₀ : s₀.feed keyspace = s.feed keyspace := by simp [hs₀]
  by_cases hretention : 0 < retention
  · rw [if_pos hretention, eval_bind, eval_incr htyped₀.revision]
    change ∃ r s', resume _ (if s₀.revision keyspace = _ then _ else _) =
      (r, s') ∧ _
    rw [hrevision₀]
    by_cases hmax : s.revision keyspace = 2 ^ 63 - 1
    · rw [if_pos hmax]
      refine ⟨_, _, rfl, hbase s₀ htyped₀ hentry₀ false (by simp) ?_⟩
      rintro - (hzero | hzero | ⟨⟨hless, -⟩, -⟩) <;> omega
    · rw [if_neg hmax, resume_ok]
      have hcount : (s₀.counterAt (revisionKey keyspace)) =
        s.revision keyspace := hrevision₀
      rw [hcount]
      set s₁ := s₀.store (revisionKey keyspace)
        ⟨.integer (s.revision keyspace + 1), none⟩ with hs₁
      have htyped₁ : Typed keyspace s₁ :=
        htyped₀.store (fitting_revision keyspace _)
      have hfeed₁ : s₁.feed keyspace = s.feed keyspace := by
        rw [hs₁, feed_store_revision, hfeed₀]
      have hentry₁ : ∀ key', s₁.entry keyspace collection key' =
          if key' = key then none else s.entry keyspace collection key' := by
        intro key'
        rw [hs₁, entry_store_revision, hentry₀]
      rcases eval_xadd_typed htyped₁ retention (s.revision keyspace + 1)
        (changeFields (s.revision keyspace + 1) collection key .delete
          occurredAt) with ⟨haccepts, hbelow, heval⟩ | ⟨hrefused, error, heval⟩
      · refine ⟨_, _, heval, hbase _
          (htyped₁.store (fitting_stream keyspace _)) (fun key' => ?_) true
          (fun _ => ?_) (by simp)⟩
        · rw [entry_store_stream, hentry₁]
        · rw [hfeed₁] at hbelow
          refine fits_recorded (.inr (.inr ⟨haccepts, hbelow⟩)) hretention ?_ ?_
          · rw [revision_store_stream, hs₁, revision_store_revision]
          · rw [feed_store_stream, Stream.push_lastId]
      · refine ⟨_, _, heval, hbase s₁ htyped₁ hentry₁ false (by simp) ?_⟩
        rintro - (hzero | hzero | hfits)
        · omega
        · omega
        · rw [hfeed₁] at hrefused
          exact hrefused hfits
  · rw [if_neg hretention]
    have hzero : retention = 0 := by omega
    exact ⟨_, _, rfl, hbase s₀ htyped₀ hentry₀ true
      (fun _ m => iff_of_true (.inl hzero) (.inl hzero)) (by simp)⟩

theorem sweep_script (retention : Nat) (occurredAt : String) :
    ∀ (keys : List String) (removed : Nat) (s : Server),
      Typed keyspace s →
      ∃ r s' dropped, eval (bulkDeleteChangeScript (revisionKey keyspace)
            (streamKey keyspace) retention collection occurredAt
            (keys.map fun key =>
              (subspaceCompoundKey keyspace collection key, key)) removed) s =
          (r, s') ∧
        Sweep keyspace retention collection s s' keys r.isOk dropped ∧
        ∀ total, r = .ok total → total = removed + dropped.length
  | [], removed, s, h => ⟨_, s, [], rfl, sweep_nil h, by simp⟩
  | key :: keys, removed, s, h => by
      simp only [List.map_cons, bulkDeleteChangeScript, eval_bind, existsKey,
        eval_ofFn, resume_ok]
      cases hpresent : (s.find
          (subspaceCompoundKey keyspace collection key)).isSome with
      | false =>
          obtain ⟨r, s', dropped, heval, hsweep, htotal⟩ :=
            sweep_script retention occurredAt keys removed s h
          refine ⟨r, s', dropped, heval, { hsweep with
            present := fun k hk => ?_
            all := fun hok k hk hsome => ?_ }, htotal⟩
          · obtain ⟨hmem, hsome⟩ := hsweep.present k hk
            exact ⟨List.mem_cons_of_mem key hmem, hsome⟩
          · rcases List.mem_cons.mp hk with rfl | hk
            · exact absurd hsome (by simpa [Server.entry] using hpresent)
            · exact hsweep.all hok k hk hsome
      | true =>
          obtain ⟨r₁, s₁, heval₁, hone⟩ :=
            sweep_one h hpresent retention occurredAt
          simp only [if_true, eval_bind, heval₁]
          cases r₁ with
          | error error =>
              refine ⟨_, s₁, [key], rfl, { hone with
                present := fun k hk => ?_
                all := by simp [Except.isOk, Except.toBool] }, by simp⟩
              obtain ⟨hmem, hsome⟩ := hone.present k hk
              exact ⟨by simp_all, hsome⟩
          | ok value =>
              obtain ⟨r, s', dropped, heval, hsweep, htotal⟩ :=
                sweep_script retention occurredAt keys (removed + 1) s₁
                  hone.typed
              refine ⟨r, s', _, heval, hone.append hsweep, fun total hr => ?_⟩
              rw [htotal total hr, List.singleton_append, List.length_cons]
              omega

end Sweep

/-! ## Pages -/

section Pages

variable {config : RedisConfig} {collection : String}

theorem sweep_loop (hsize : collection.utf8ByteSize < 2 ^ 64) :
    ∀ (batches : List (DateTime × List String)) (destroyed : Bool)
      (s : Server), Typed config.keyspace s →
      ∃ r s' dropped, destroyLoop config collection
          (batches.map fun batch => (batch.1,
            batch.2.map (subspaceCompoundKey config.keyspace collection)))
          destroyed s = (r, s') ∧
        Sweep config.keyspace config.changeRetention collection s s'
          (batches.flatMap Prod.snd) r.isOk dropped ∧
        ∀ flag, r = .ok flag →
          flag = (destroyed || decide (0 < dropped.length))
  | [], destroyed, s, h => ⟨_, s, [], rfl, sweep_nil h, by simp [eq_comm]⟩
  | (occurred, []) :: batches, destroyed, s, h => by
      simpa [destroyLoop, scannedKeys] using
        sweep_loop hsize batches destroyed s h
  | (occurred, key :: keys) :: batches, destroyed, s, h => by
      obtain ⟨r₁, s₁, dropped₁, heval, hbatch, htotal⟩ :=
        @sweep_script _ collection config.changeRetention
          (timestampText occurred) (key :: keys) 0 s h
      rw [List.map_cons] at heval
      simp only [List.map_cons, destroyLoop]
      rw [← List.map_cons, scannedKeys_eq config hsize]
      simp only [List.map_cons, invoke, heval, List.flatMap_cons]
      cases r₁ with
      | error error =>
          refine ⟨_, s₁, dropped₁, rfl, { hbatch with
            present := fun k hk => ?_
            all := by simp [Except.isOk, Except.toBool] }, by simp⟩
          obtain ⟨hmem, hsome⟩ := hbatch.present k hk
          exact ⟨List.mem_append_left _ hmem, hsome⟩
      | ok removed =>
          obtain ⟨r, s', dropped, hloop, hrest, hflag⟩ :=
            sweep_loop hsize batches (destroyed || decide (0 < removed)) s₁
              hbatch.typed
          refine ⟨r, s', _, hloop, hbatch.append hrest, fun flag hr => ?_⟩
          rw [hflag flag hr, htotal removed rfl, List.length_append]
          have hsum : decide (0 < dropped₁.length + dropped.length) =
              (decide (0 < dropped₁.length) || decide (0 < dropped.length)) := by
            rw [← Bool.decide_or]
            exact decide_eq_decide.mpr (by omega)
          rw [hsum, Nat.zero_add, Bool.or_assoc]

/-- `destroy_collection` changes entries of the collection, the counter and
the stream. -/
def Touched (keyspace : Subspace) (collection identity : String) : Prop :=
  (∃ key, identity = subspaceCompoundKey keyspace collection key) ∨
    identity = revisionKey keyspace ∨ identity = streamKey keyspace

theorem confined_sweep (hsize : collection.utf8ByteSize < 2 ^ 64) :
    ∀ (batches : List (DateTime × List String)) (destroyed : Bool)
      (s : Server), Confined (Touched config.keyspace collection) s
        (destroyLoop config collection
          (batches.map fun batch => (batch.1,
            batch.2.map (subspaceCompoundKey config.keyspace collection)))
          destroyed s).2
  | [], destroyed, s => Confined.refl s
  | (occurred, []) :: batches, destroyed, s => by
      simpa [destroyLoop, scannedKeys] using
        confined_sweep hsize batches destroyed s
  | (occurred, key :: keys) :: batches, destroyed, s => by
      have hpairs : ∀ pair ∈ (key :: keys).map fun key =>
          (subspaceCompoundKey config.keyspace collection key, key),
          Touched config.keyspace collection pair.1 := by
        intro pair hpair
        obtain ⟨key', -, rfl⟩ := List.mem_map.mp hpair
        exact .inl ⟨key', rfl⟩
      have hscript := confined_invoke s (keeps_bulkDelete
        (p := Touched config.keyspace collection) (.inr (.inl rfl))
        (.inr (.inr rfl)) config.changeRetention collection
        (timestampText occurred) hpairs 0)
      simp only [List.map_cons, destroyLoop]
      rw [← List.map_cons, scannedKeys_eq config hsize]
      rw [List.map_cons] at hscript ⊢
      dsimp only
      split
      · rename_i heval
        rw [heval] at hscript
        exact hscript
      · rename_i heval
        rw [heval] at hscript
        exact Confined.trans _ _ _ hscript
          (confined_sweep hsize batches _ _)

theorem destroyPages_eq (pages : List (DateTime × List String)) (s : Server) :
    destroyPages config collection pages s =
      destroyLoop config collection
        ((pages.map fun page =>
          (page.1, pageKeys config.keyspace collection page.2)).map
            fun batch => (batch.1,
              batch.2.map (subspaceCompoundKey config.keyspace collection)))
        false s := by
  rw [destroyPages, List.map_map]
  simp only [scanMatch_eq, Function.comp_def]

end Pages

/-! ## Contracts -/

/-- The pages of a full iteration while the collection is destroyed: a key
that is still there has been returned. -/
def ScansAll (config : RedisConfig) (s : Server) (collection : String)
    (pages : List (DateTime × List String)) : Prop :=
  ∀ identity,
    ((destroyPages config collection pages s).2.find identity).isSome = true →
    Glob.globMatch (collectionScanPattern config.keyspace collection)
      identity = true →
    ∃ page ∈ pages, identity ∈ page.2

/-- `destroy_collection` returns whether there was a key, the collection is
gone, and no other key has changed; counter and stream are not keys of a
collection. -/
def DestroysExactly (config : RedisConfig) (s : Server) (collection : String)
    (pages : List (DateTime × List String)) : Prop :=
  (destroyPages config collection pages s).1 =
      .ok (decide (0 < (logicalKeys s config.keyspace collection).length)) ∧
    ∀ identity, identity ≠ revisionKey config.keyspace →
      identity ≠ streamKey config.keyspace →
      (destroyPages config collection pages s).2.find identity =
        if Glob.globMatch (collectionScanPattern config.keyspace collection)
          identity then none else s.find identity

theorem destroysExactly_iff {config : RedisConfig} {s : Server}
    {collection : String} (htyped : Typed config.keyspace s)
    (hsize : collection.utf8ByteSize < 2 ^ 64)
    {pages : List (DateTime × List String)}
    (hscans : ScansAll config s collection pages) :
    DestroysExactly config s collection pages ↔
      Fits config.keyspace config.changeRetention s
        (logicalKeys s config.keyspace collection).length := by
  have hconfined := @confined_sweep config collection hsize (pages.map
    fun page => (page.1, pageKeys config.keyspace collection page.2)) false s
  obtain ⟨r, s', dropped, heval, hsweep, hflag⟩ :=
    @sweep_loop config collection hsize (pages.map fun page =>
      (page.1, pageKeys config.keyspace collection page.2)) false s htyped
  unfold DestroysExactly
  unfold ScansAll at hscans
  rw [destroyPages_eq, heval] at hscans ⊢
  rw [heval] at hconfined
  have hsub : dropped ⊆ logicalKeys s config.keyspace collection :=
    fun key hkey => mem_logicalKeys.mpr (hsweep.present key hkey).2
  have hle := (hsweep.nodup.subperm hsub).length_le
  cases hok : r.isOk with
  | false =>
      refine iff_of_false (fun hexact => ?_) fun hfits =>
        hsweep.stopped hok (hfits.mono hle)
      rw [show r = _ from hexact.1] at hok
      cases hok
  | true =>
      have hgone : ∀ key, s'.entry config.keyspace collection key = none := by
        intro key
        by_contra hkept
        have hsome := Option.isSome_iff_ne_none.mpr hkept
        obtain ⟨page, hpage, hmem⟩ := hscans _ hsome
          (matches_collection_iff.mpr ⟨key, rfl⟩)
        rw [hsweep.entry] at hkept
        split at hkept
        · exact hkept rfl
        · rename_i hnot
          refine hnot (hsweep.all hok key ?_
            (Option.isSome_iff_ne_none.mpr hkept))
          rw [List.flatMap_map]
          exact List.mem_flatMap.mpr ⟨page, hpage, mem_pageKeys.mpr hmem⟩
      have hall : logicalKeys s config.keyspace collection ⊆ dropped := by
        intro key hkey
        have hentry := hsweep.entry key
        rw [hgone] at hentry
        split at hentry
        · assumption
        · rw [mem_logicalKeys, ← hentry] at hkey
          cases hkey
      have hlength := Nat.le_antisymm hle
        ((nodup_logicalKeys s).subperm hall).length_le
      obtain ⟨flag, rfl⟩ : ∃ flag, r = .ok flag := by
        cases r with
        | error error => cases hok
        | ok flag => exact ⟨flag, rfl⟩
      refine iff_of_true ⟨?_, fun identity hrevision hstream => ?_⟩ ?_
      · rw [hflag flag rfl, hlength, Bool.false_or]
      · split
        · rename_i hmatch
          obtain ⟨key, rfl⟩ := matches_collection_iff.mp hmatch
          exact hgone key
        · rename_i hmatch
          refine hconfined.find ?_
          rintro (hentry | h | h)
          · exact hmatch (matches_collection_iff.mpr hentry)
          · exact hrevision h
          · exact hstream h
      · rw [← hlength]
        exact (hsweep.onward hok 0).mp (.inr (.inl rfl))

theorem scansAll_of_present {config : RedisConfig} {s : Server}
    {collection : String} (htyped : Typed config.keyspace s)
    (hsize : collection.utf8ByteSize < 2 ^ 64)
    {pages : List (DateTime × List String)}
    (h : ∀ key ∈ logicalKeys s config.keyspace collection, ∃ page ∈ pages,
      subspaceCompoundKey config.keyspace collection key ∈ page.2) :
    ScansAll config s collection pages := by
  intro identity hsome hmatch
  obtain ⟨key, rfl⟩ := matches_collection_iff.mp hmatch
  obtain ⟨r, s', dropped, heval, hsweep, -⟩ :=
    @sweep_loop config collection hsize (pages.map fun page =>
      (page.1, pageKeys config.keyspace collection page.2)) false s htyped
  rw [destroyPages_eq, heval] at hsome
  change (s'.entry config.keyspace collection key).isSome = true at hsome
  rw [hsweep.entry] at hsome
  split at hsome
  · cases hsome
  · exact h key (mem_logicalKeys.mpr hsome)

/-! ## Reachable keyspaces -/

/-- On a keyspace that stores have written, `keys` is exact for every limit
and every collection, and `destroy_collection` exactly when the stream takes
the record of each of its removals. -/
theorem enumeration_exact_iff_fits (config : RedisConfig) (clock : Int)
    (s : Server) (collection : Option String) (limit : Option Nat)
    (pages : List (List String)) (batches : List (DateTime × List String))
    (hreachable : Reachable (command config.keyspace) (.empty clock) s)
    (hsize : (config.collectionName collection).utf8ByteSize < 2 ^ 64)
    (hpages : Scans s (collectionScanPattern config.keyspace
      (config.collectionName collection)) pages)
    (hbatches : ScansAll config s (config.collectionName collection) batches) :
    ListsKeys config s collection limit pages ∧
        DestroysExactly config s (config.collectionName collection) batches ↔
      Fits config.keyspace config.changeRetention s
        (logicalKeys s config.keyspace
          (config.collectionName collection)).length := by
  rw [destroysExactly_iff (reachable_typed hreachable) hsize hbatches,
    and_iff_right (keys_exact hsize limit hpages)]

def oneKey : Server :=
  ((Call.put "k" (.binary [1]) (some "c") none).run sampleConfig
    sampleReadings (.empty 0)).2

private theorem oneKey_reachable :
    Reachable (command sampleConfig.keyspace) (.empty 0) oneKey :=
  ⟨[.call (.call "default" 10 sampleReadings
    (.put "k" (.binary [1]) (some "c") none))], rfl⟩

private theorem oneKey_keys :
    logicalKeys oneKey sampleConfig.keyspace "c" = ["k"] := by
  decide

private theorem oneKey_scans :
    Scans oneKey (collectionScanPattern sampleConfig.keyspace "c")
      [[subspaceCompoundKey sampleConfig.keyspace "c" "k"]] := by
  refine ⟨by decide, fun identity hsome hmatch => ?_⟩
  obtain ⟨key, rfl⟩ := matches_collection_iff.mp hmatch
  have hkey := mem_logicalKeys.mpr hsome
  rw [oneKey_keys, List.mem_singleton] at hkey
  rw [hkey]
  exact ⟨_, List.mem_cons_self, List.mem_cons_self⟩

theorem enumeration_exact_one_key :
    ListsKeys sampleConfig oneKey (some "c") none
        [[subspaceCompoundKey sampleConfig.keyspace "c" "k"]] ∧
      DestroysExactly sampleConfig oneKey "c"
        [(.epoch, [subspaceCompoundKey sampleConfig.keyspace "c" "k"])] := by
  refine (enumeration_exact_iff_fits sampleConfig 0 oneKey (some "c") none _ _
    oneKey_reachable (by decide) oneKey_scans (scansAll_of_present
      (reachable_typed oneKey_reachable) (by decide) ?_)).mpr ?_
  · intro key hkey
    change key ∈ logicalKeys oneKey sampleConfig.keyspace "c" at hkey
    rw [oneKey_keys, List.mem_singleton] at hkey
    rw [hkey]
    exact ⟨_, List.mem_cons_self, List.mem_cons_self⟩
  · change Fits sampleConfig.keyspace 10 oneKey
      (logicalKeys oneKey sampleConfig.keyspace "c").length
    rw [oneKey_keys]
    exact .inr (.inr ⟨⟨by decide, by decide⟩, by decide⟩)

def halfDestroyed : Server :=
  (eval (delAll (scanMatch (scanPattern sampleConfig.keyspace.frame)
    [revisionKey sampleConfig.keyspace])) oneKey).2

private theorem halfDestroyed_reachable :
    Reachable (command sampleConfig.keyspace) (.empty 0) halfDestroyed :=
  ⟨[.call (.call "default" 10 sampleReadings
    (.put "k" (.binary [1]) (some "c") none)),
    .drop [revisionKey sampleConfig.keyspace]], rfl⟩

/-- The record of the first removal gets the identifier that the last one in
the stream has. -/
theorem destroy_collection_fails :
    ¬ ∀ (config : RedisConfig) (clock : Int) (s : Server)
      (collection : String) (batches : List (DateTime × List String)),
      config.keyspace.isEmpty = false →
      Reachable (command config.keyspace) (.empty clock) s →
      collection.utf8ByteSize < 2 ^ 64 →
      ScansAll config s collection batches →
      DestroysExactly config s collection batches := by
  intro h
  have htyped := reachable_typed halfDestroyed_reachable
  have hkeys : logicalKeys halfDestroyed sampleConfig.keyspace "c" =
      ["k"] := by
    decide
  have hscans : ScansAll sampleConfig halfDestroyed "c"
      [(.epoch, [subspaceCompoundKey sampleConfig.keyspace "c" "k"])] := by
    refine scansAll_of_present htyped (by decide) fun key hkey => ?_
    rw [hkeys, List.mem_singleton] at hkey
    rw [hkey]
    exact ⟨_, List.mem_cons_self, List.mem_cons_self⟩
  have hfits := (destroysExactly_iff htyped (by decide) hscans).mp
    (h sampleConfig 0 halfDestroyed "c" _ (by decide) halfDestroyed_reachable
      (by decide) hscans)
  rw [hkeys] at hfits
  rcases hfits with hzero | hzero | ⟨-, hbelow⟩
  · exact absurd hzero (by decide)
  · exact absurd hzero (by decide)
  · exact absurd hbelow (by decide)

end OpenKeyV.Redis
