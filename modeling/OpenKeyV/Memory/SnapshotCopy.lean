import OpenKeyV.Memory.Snapshot
import Mathlib.Data.List.Nodup

/-!
# What a snapshot copies

A copy of an undisturbed store handles each entry that its enumeration lists
exactly once.  The enumeration is one page of collections, and one page of
keys for each of them.
-/

namespace OpenKeyV.Memory

open OpenKeyV.Library

/-- A target that accepts writes without a TTL, and with the TTLs it grants,
described by its values and by which of them are permanent. -/
structure Target.Accepts {τ : Type} (target : Target τ) (grants : F64 → Prop)
    (holds : τ → String → String → Option (Value × Bool)) : Prop where
  put : ∀ key value name ttl t t',
    target.put key value name ttl t = (.ok (), t') →
      holds t' name key = some (value, ttl.isNone) ∧
      ∀ name' key', ¬ (name' = name ∧ key' = key) →
        holds t' name' key' = holds t name' key'
  putMany : ∀ (items : List (String × Value)) name t t',
    (items.map Prod.fst).Nodup →
    target.putMany (items.map Prod.fst) (items.map Prod.snd) name none t =
        (.ok (), t') →
      (∀ item ∈ items, holds t' name item.1 = some (item.2, true)) ∧
      ∀ name' key', ¬ (name' = name ∧ key' ∈ items.map Prod.fst) →
        holds t' name' key' = holds t name' key'
  granted : ∀ key value name ttl t,
    (∀ seconds, ttl = some seconds → grants seconds) →
      ∃ t', target.put key value name ttl t = (.ok (), t')
  grantedMany : ∀ (items : List (String × Value)) name t,
    (items.map Prod.fst).Nodup →
      ∃ t', target.putMany (items.map Prod.fst) (items.map Prod.snd) name none
        t = (.ok (), t')

def route (options : MigrationOptions) (collection : String) :
    Option String :=
  if options.selected collection then options.targetCollection collection
  else none

def dueEntries (options : MigrationOptions) (s : MemoryState)
    (now : DateTime) : List (String × String) :=
  s.collections.entries.flatMap fun entry =>
    if (route options entry.1).isSome then
      (entry.2.keys.filter fun key => (s.live now entry.1 key).isSome).map
        fun key => (entry.1, key)
    else []

/-- Nothing that is stored expires while the labels are taken. -/
def Calm (s : MemoryState) (now : DateTime)
    (labels : List (DateTime × Order)) : Prop :=
  ∀ label ∈ labels, ∀ name key stored, s.entry name key = some stored →
    stored.isExpired label.1 = stored.isExpired now

/-- The enumeration fits its pages, as far as there is anything to copy. -/
def Pageable (options : MigrationOptions) (s : MemoryState) (now : DateTime) :
    Prop :=
  ∀ p ∈ dueEntries options s now,
    s.collections.size ≤ pageLimit ∧
      ∀ col, s.collection p.1 = some col → col.size ≤ pageLimit

def Affordable (grants : F64 → Prop) (options : MigrationOptions)
    (s : MemoryState) (now : DateTime) : Prop :=
  options.preserveTtl = true → ∀ p ∈ dueEntries options s now,
    ∀ stored, s.live now p.1 p.2 = some stored →
      ∀ seconds, stored.entry.ttl now = some seconds → grants seconds

/-- The copy that a finished snapshot promises. -/
structure Copied {τ : Type} (options : MigrationOptions) (s : MemoryState)
    (now : DateTime)
    (holds : τ → String → String → Option (Value × Bool)) (t : τ)
    (m : Copy τ) : Prop where
  held : ∀ collection name key stored,
    route options collection = some name →
    s.live now collection key = some stored →
    holds m.target name key = some (stored.entry.value,
      stored.entry.expiresAt.isNone || !options.preserveTtl)
  spared : ∀ name key,
    (∀ collection, route options collection = some name →
      s.live now collection key = none) →
    holds m.target name key = holds t name key
  scanned : m.report.scanned = m.report.copied + m.report.skippedExpired
  copied : m.report.copied = (dueEntries options s now).length

/-! ## The entries to copy -/

section Due

variable {options : MigrationOptions} {s : MemoryState} {now : DateTime}

theorem route_inj {first second name : String}
    (hfirst : route options first = some name)
    (hsecond : route options second = some name) : first = second := by
  unfold route at hfirst hsecond
  split at hfirst
  · split at hsecond
    · exact MigrationOptions.targetCollection_inj hfirst hsecond
    · cases hsecond
  · cases hfirst

theorem route_eq_some {collection name : String} :
    route options collection = some name ↔
      options.selected collection = true ∧
        options.targetCollection collection = some name := by
  simp [route]

theorem route_eq_none {collection : String}
    (h : options.selected collection = true →
      options.targetCollection collection = none) :
    route options collection = none := by
  unfold route
  split
  · exact h ‹_›
  · rfl

theorem mem_dueEntries {p : String × String} :
    p ∈ dueEntries options s now ↔
      (route options p.1).isSome = true ∧ (s.live now p.1 p.2).isSome = true := by
  obtain ⟨collection, key⟩ := p
  constructor
  · intro h
    obtain ⟨entry, _, hmem⟩ := List.mem_flatMap.mp h
    split at hmem
    · rename_i hroute
      obtain ⟨key', hkey, heq⟩ := List.mem_map.mp hmem
      cases heq
      exact ⟨hroute, (List.mem_filter.mp hkey).2⟩
    · cases hmem
  · rintro ⟨hroute, hlive⟩
    obtain ⟨stored, hlive⟩ := Option.isSome_iff_exists.mp hlive
    obtain ⟨hentry, _⟩ := Option.filter_eq_some_iff.mp hlive
    obtain ⟨col, hcol, hlookup⟩ := Option.bind_eq_some_iff.mp hentry
    refine List.mem_flatMap.mpr
      ⟨⟨collection, col⟩, AList.mem_lookup_iff.mp hcol, ?_⟩
    simp only [hroute, if_true]
    refine List.mem_map.mpr ⟨key, List.mem_filter.mpr ⟨?_, ?_⟩, rfl⟩
    · exact KeyedMap.mem_keys_iff.mpr ⟨stored, hlookup⟩
    · simp [hlive]

theorem nodup_dueEntries : (dueEntries options s now).Nodup := by
  refine List.nodup_flatMap.mpr ⟨fun entry _ => ?_, ?_⟩
  · split
    · refine List.Nodup.map (fun _ _ h => (Prod.mk.inj h).2) ?_
      exact entry.2.keys_nodup.filter _
    · exact List.nodup_nil
  · have hkeys := List.pairwise_map.mp s.collections.keys_nodup
    refine hkeys.imp fun hne p hfirst hsecond => hne ?_
    have key_of : ∀ entry : Sigma fun _ : String => Collection,
        (p ∈ if (route options entry.1).isSome then
          (entry.2.keys.filter fun key => (s.live now entry.1 key).isSome).map
            fun key => (entry.1, key) else []) → p.1 = entry.1 := by
      intro entry hmem
      split at hmem
      · obtain ⟨_, _, rfl⟩ := List.mem_map.mp hmem
        rfl
      · cases hmem
    exact (key_of _ hfirst).symm.trans (key_of _ hsecond)

end Due

/-! ## What is still to do -/

def CopyPhase.rest : CopyPhase → List String
  | .enumerating rest | .reading _ _ _ rest | .putting _ _ _ _ rest
  | .puttingMany _ _ _ _ rest => rest
  | _ => []

def CopyPhase.unread : CopyPhase → List (String × String)
  | .reading collection _ keys _ => keys.map fun key => (collection, key)
  | .putting collection _ items keys _ =>
      (items.map Prod.fst ++ keys).map fun key => (collection, key)
  | .puttingMany collection _ items keys _ =>
      (items.map Prod.fst ++ keys).map fun key => (collection, key)
  | _ => []

def CopyPhase.inHand : CopyPhase → Nat
  | .putting _ _ items _ _ => items.length
  | .puttingMany _ _ items _ _ => items.length
  | _ => 0

def Shows (s : MemoryState) (now : DateTime) (collection : String)
    (item : String × Option (Value × Option F64)) : Prop :=
  match item.2 with
  | none => s.live now collection item.1 = none
  | some (value, ttl) => ∃ stored,
      s.live now collection item.1 = some stored ∧
        value = stored.entry.value ∧
        ttl.isNone = stored.entry.expiresAt.isNone

def CopyPhase.Sound (options : MigrationOptions) (s : MemoryState)
    (now : DateTime) : CopyPhase → Prop
  | .opening | .listing => False
  | .enumerating _ => True
  | .finished result => result = .ok ()
  | .reading collection name _ _ =>
      route options collection = some name ∧
        (s.collection collection).isSome = true
  | .putting collection name items _ _ =>
      route options collection = some name ∧
        (s.collection collection).isSome = true ∧
        options.preserveTtl = true ∧
        ∀ item ∈ items, Shows s now collection item
  | .puttingMany collection name items _ _ =>
      route options collection = some name ∧
        (s.collection collection).isSome = true ∧
        options.preserveTtl = false ∧
        ∀ item ∈ items, ∃ stored,
          s.live now collection item.1 = some stored ∧
            stored.entry.value = item.2

def page (s : MemoryState) (order : Order) (collection : String) :
    List String :=
  (order.keys collection ((s.collection collection).getD ∅).keys).take
    pageLimit

section Invariant

variable {τ : Type} (options : MigrationOptions) (s : MemoryState)
  (now : DateTime) (holds : τ → String → String → Option (Value × Bool))
  (t₀ : τ)

structure Filled (handled : List (String × String)) (t : τ) (copied : Nat) :
    Prop where
  copied : copied = handled.length
  nodup : handled.Nodup
  due : ∀ p ∈ handled, p ∈ dueEntries options s now
  held : ∀ p ∈ handled, ∀ name stored, route options p.1 = some name →
    s.live now p.1 p.2 = some stored →
    holds t name p.2 = some (stored.entry.value,
      stored.entry.expiresAt.isNone || !options.preserveTtl)
  spared : ∀ name key,
    (∀ p ∈ handled, route options p.1 = some name → p.2 ≠ key) →
    holds t name key = holds t₀ name key

structure Copying (handled : List (String × String)) (m : Copy τ) :
    Prop where
  source : m.source = s
  kept : Filled options s now holds t₀ handled m.target m.report.copied
  sound : m.phase.Sound options s now
  scanned : m.report.scanned =
    m.report.copied + m.report.skippedExpired + m.phase.inHand
  listed : ∀ collection ∈ m.phase.rest,
    (s.collection collection).isSome = true
  rest : m.phase.rest.Nodup
  unread : m.phase.unread.Nodup
  ahead : ∀ p ∈ m.phase.unread, p.1 ∉ m.phase.rest
  apart : ∀ p ∈ handled, p.1 ∉ m.phase.rest ∧ p ∉ m.phase.unread

structure Advance (order : Order) (handled : List (String × String))
    (m : Copy τ) (handled' : List (String × String)) (m' : Copy τ) :
    Prop where
  copying : Copying options s now holds t₀ handled' m'
  handles : ∀ p ∈ handled', p ∈ handled ∨ p ∈ m.phase.unread
  lists : ∀ p ∈ m'.phase.unread, p ∈ m.phase.unread ∨
    (p.1 ∈ m.phase.rest ∧ p.2 ∈ page s order p.1)
  keeps : ∀ collection ∈ m'.phase.rest, collection ∈ m.phase.rest
  covers : ∀ p ∈ dueEntries options s now, p ∈ handled ∨ p ∈ m.phase.unread →
    p ∈ handled' ∨ p ∈ m'.phase.unread
  opens : ∀ p ∈ dueEntries options s now, p.1 ∈ m.phase.rest →
    p.1 ∈ m'.phase.rest ∨ p ∈ m'.phase.unread ∨ p.2 ∉ page s order p.1

end Invariant

section Steps

variable {τ : Type} {options : MigrationOptions} {s : MemoryState}
  {now : DateTime} {holds : τ → String → String → Option (Value × Bool)}
  {t₀ : τ} {handled : List (String × String)} {m : Copy τ}

theorem Filled.append {t t' : τ} {copied : Nat} {collection name : String}
    (h : Filled options s now holds t₀ handled t copied)
    (hroute : route options collection = some name) (keys : List String)
    (hnodup : keys.Nodup)
    (hfresh : ∀ key ∈ keys, (collection, key) ∉ handled)
    (hwritten : ∀ key ∈ keys, ∃ stored,
      s.live now collection key = some stored ∧
        holds t' name key = some (stored.entry.value,
          stored.entry.expiresAt.isNone || !options.preserveTtl))
    (hother : ∀ name' key', ¬ (name' = name ∧ key' ∈ keys) →
      holds t' name' key' = holds t name' key') :
    Filled options s now holds t₀
      (handled ++ keys.map fun key => (collection, key)) t'
      (copied + keys.length) where
  copied := by simp [h.copied]
  nodup := by
    refine h.nodup.append (hnodup.map fun _ _ heq => (Prod.mk.inj heq).2) ?_
    intro p hp hmem
    obtain ⟨key, hkey, rfl⟩ := List.mem_map.mp hmem
    exact hfresh key hkey hp
  due := by
    intro p hp
    rcases List.mem_append.mp hp with hp | hp
    · exact h.due p hp
    · obtain ⟨key, hkey, rfl⟩ := List.mem_map.mp hp
      obtain ⟨stored, hlive, _⟩ := hwritten key hkey
      exact mem_dueEntries.mpr ⟨by simp [hroute], by simp [hlive]⟩
  held := by
    intro p hp name' stored hname hlive
    rcases List.mem_append.mp hp with hp | hp
    · rw [hother, h.held p hp name' stored hname hlive]
      rintro ⟨rfl, hkey⟩
      have hcollection : p.1 = collection := route_inj hname hroute
      exact hfresh p.2 hkey (hcollection ▸ hp)
    · obtain ⟨key, hkey, rfl⟩ := List.mem_map.mp hp
      obtain ⟨stored', hlive', hheld⟩ := hwritten key hkey
      cases hroute.symm.trans hname
      cases hlive'.symm.trans hlive
      exact hheld
  spared := by
    intro name' key' hnone
    rw [hother]
    · apply h.spared
      intro p hp
      exact hnone p (List.mem_append_left _ hp)
    · rintro ⟨rfl, hkey⟩
      exact hnone (collection, key')
        (List.mem_append_right _ (List.mem_map_of_mem hkey)) hroute rfl

theorem Copying.advance {handled' : List (String × String)} {m' : Copy τ}
    {order : Order} (h : Copying options s now holds t₀ handled m)
    (hsource : m'.source = s)
    (hkept : Filled options s now holds t₀ handled' m'.target m'.report.copied)
    (hsound : m'.phase.Sound options s now)
    (hscanned : m'.report.scanned =
      m'.report.copied + m'.report.skippedExpired + m'.phase.inHand)
    (hrest : m'.phase.rest.Sublist m.phase.rest)
    (hunread : m'.phase.unread.Sublist m.phase.unread)
    (hadded : ∀ p ∈ handled', p ∈ handled ∨
      (p ∈ m.phase.unread ∧ p ∉ m'.phase.unread))
    (hread : ∀ p ∈ dueEntries options s now,
      p ∈ handled ∨ p ∈ m.phase.unread → p ∈ handled' ∨ p ∈ m'.phase.unread)
    (hopened : ∀ p ∈ dueEntries options s now, p.1 ∈ m.phase.rest →
      p.1 ∈ m'.phase.rest) :
    Advance options s now holds t₀ order handled m handled' m' where
  copying :=
    { source := hsource
      kept := hkept
      sound := hsound
      scanned := hscanned
      listed := fun collection hmem => h.listed collection (hrest.subset hmem)
      rest := h.rest.sublist hrest
      unread := h.unread.sublist hunread
      ahead := fun p hp hmem => h.ahead p (hunread.subset hp) (hrest.subset hmem)
      apart := by
        intro p hp
        rcases hadded p hp with hp | ⟨hp, hout⟩
        · exact ⟨fun hmem => (h.apart p hp).1 (hrest.subset hmem),
            fun hmem => (h.apart p hp).2 (hunread.subset hmem)⟩
        · exact ⟨fun hmem => h.ahead p hp (hrest.subset hmem), hout⟩ }
  handles := fun p hp => (hadded p hp).imp id And.left
  lists := fun p hp => .inl (hunread.subset hp)
  keeps := fun collection hmem => hrest.subset hmem
  covers := hread
  opens := fun p hp hmem => .inl (hopened p hp hmem)

theorem ensureCollection_eq {collection : String}
    (h : (s.collection collection).isSome = true) :
    s.ensureCollection collection = s := by
  unfold MemoryState.ensureCollection
  cases hcol : s.collection collection with
  | none => simp [hcol] at h
  | some col => rfl

theorem shows_ttlItems {later : DateTime} {collection : String}
    (hlive : s.live later collection = s.live now collection)
    (keys : List String) :
    ∀ item ∈ ttlItems s later collection keys,
      Shows s now collection item := by
  intro item hitem
  obtain ⟨key, _, rfl⟩ := List.mem_map.mp hitem
  unfold Shows
  rw [hlive]
  cases hstored : s.live now collection key with
  | none => exact rfl
  | some stored =>
      refine ⟨stored, rfl, rfl, ?_⟩
      rw [Bool.eq_iff_iff, Option.isNone_iff_eq_none,
        Option.isNone_iff_eq_none]
      exact stored.entry.ttl_eq_none later

theorem fst_ttlItems (later : DateTime) (collection : String)
    (keys : List String) :
    (ttlItems s later collection keys).map Prod.fst = keys := by
  simp [ttlItems, Function.comp_def]

theorem fst_valueItems_sublist (later : DateTime) (collection : String)
    (keys : List String) :
    ((valueItems s later collection keys).map Prod.fst).Sublist keys := by
  induction keys with
  | nil => exact .slnil
  | cons key keys ih =>
      unfold valueItems
      rw [List.filterMap_cons]
      cases s.live later collection key with
      | none => exact ih.cons key
      | some stored => exact ih.cons_cons key

theorem mem_valueItems {later : DateTime} {collection : String}
    {keys : List String} {item : String × Value} :
    item ∈ valueItems s later collection keys ↔
      item.1 ∈ keys ∧ ∃ stored, s.live later collection item.1 = some stored ∧
        stored.entry.value = item.2 := by
  unfold valueItems
  rw [List.mem_filterMap]
  constructor
  · rintro ⟨key, hkey, hmap⟩
    obtain ⟨stored, hlive, rfl⟩ := Option.map_eq_some_iff.mp hmap
    exact ⟨hkey, stored, hlive, rfl⟩
  · rintro ⟨hkey, stored, hlive, hvalue⟩
    exact ⟨item.1, hkey, by simp [hlive, hvalue]⟩

theorem Copying.advance_enumerated (order : Order) {collection name : String}
    {rest : List String} (hphase : m.phase = .enumerating (collection :: rest))
    (h : Copying options s now holds t₀ handled m)
    (hroute : route options collection = some name) :
    Advance options s now holds t₀ order handled m handled
      { m with
        source := m.source.ensureCollection collection
        phase := .reading collection name (page s order collection) rest } := by
  have hrest := h.rest
  have hlisted := h.listed
  have hapart := h.apart
  have hscanned := h.scanned
  simp only [hphase, CopyPhase.rest, List.nodup_cons, CopyPhase.inHand]
    at hrest hlisted hapart hscanned
  have hcol := hlisted collection (List.mem_cons_self ..)
  refine
    { copying :=
        { source := ?_
          kept := h.kept
          sound := ⟨hroute, hcol⟩
          scanned := hscanned
          listed := fun c hc => hlisted c (List.mem_cons_of_mem _ hc)
          rest := hrest.2
          unread := ?_
          ahead := ?_
          apart := ?_ }
      handles := fun p hp => .inl hp
      lists := ?_
      keeps := ?_
      covers := ?_
      opens := ?_ }
  · rw [h.source, ensureCollection_eq hcol]
  · refine List.Nodup.map (fun _ _ heq => (Prod.mk.inj heq).2) ?_
    refine List.Nodup.sublist (List.take_sublist ..) ?_
    exact (order.keys_perm _ _).nodup_iff.mpr (AList.keys_nodup _)
  · intro p hp
    obtain ⟨key, _, rfl⟩ := List.mem_map.mp hp
    exact hrest.1
  · intro p hp
    refine ⟨fun hmem => (hapart p hp).1 (List.mem_cons_of_mem _ hmem), ?_⟩
    intro hmem
    obtain ⟨key, _, rfl⟩ := List.mem_map.mp hmem
    exact (hapart _ hp).1 (List.mem_cons_self ..)
  · intro p hp
    obtain ⟨key, hkey, rfl⟩ := List.mem_map.mp hp
    refine .inr ⟨?_, hkey⟩
    simp [hphase, CopyPhase.rest]
  · intro c hc
    simp only [hphase, CopyPhase.rest] at hc ⊢
    exact List.mem_cons_of_mem _ hc
  · intro p _ hp
    rcases hp with hp | hp
    · exact .inl hp
    · simp [hphase, CopyPhase.unread] at hp
  · intro p hp hmem
    simp only [hphase, CopyPhase.rest, List.mem_cons] at hmem ⊢
    rcases hmem with hmem | hmem
    · by_cases hkey : p.2 ∈ page s order p.1
      · refine .inr (.inl (List.mem_map.mpr ⟨p.2, hmem ▸ hkey, ?_⟩))
        rw [← hmem]
      · exact .inr (.inr hkey)
    · exact .inl hmem

theorem Copying.advance_readTtls {order : Order} {later : DateTime}
    {collection name : String} {keys rest : List String}
    (hphase : m.phase = .reading collection name keys rest)
    (h : Copying options s now holds t₀ handled m)
    (hlive : s.live later = s.live now) (hpreserve : options.preserveTtl = true) :
    Advance options s now holds t₀ order handled m handled
      { m with
        source := m.source.ensureCollection collection
        phase := .putting collection name
          (ttlItems m.source later collection (keys.take options.chunkSize))
          (keys.drop options.chunkSize) rest
        report := { m.report with
          scanned :=
            m.report.scanned + (keys.take options.chunkSize).length } } := by
  have hsound := h.sound
  have hscanned := h.scanned
  simp only [hphase, CopyPhase.Sound, CopyPhase.inHand] at hsound hscanned
  have hsame : m.phase.unread = CopyPhase.unread (.putting collection name
      (ttlItems m.source later collection (keys.take options.chunkSize))
      (keys.drop options.chunkSize) rest) := by
    simp [hphase, CopyPhase.unread, fst_ttlItems]
  apply h.advance
  · rw [h.source, ensureCollection_eq hsound.2]
  · exact h.kept
  · rw [h.source]
    exact ⟨hsound.1, hsound.2, hpreserve,
      shows_ttlItems (congrFun hlive collection) _⟩
  · simp only [CopyPhase.inHand, ttlItems, List.length_map]
    omega
  · rw [hphase]
    exact .refl _
  · exact hsame ▸ .refl _
  · exact fun p hp => .inl hp
  · exact fun p _ hp => hsame ▸ hp
  · intro p _ hmem
    rwa [hphase] at hmem

theorem Copying.advance_readValues {order : Order} {later : DateTime}
    {collection name : String} {keys rest : List String}
    {items : List (String × Value)}
    (hphase : m.phase = .reading collection name keys rest)
    (h : Copying options s now holds t₀ handled m)
    (hlive : s.live later = s.live now)
    (hpreserve : options.preserveTtl = false)
    (hitems : items = valueItems m.source later collection
      (keys.take options.chunkSize)) :
    Advance options s now holds t₀ order handled m handled
      { m with
        source := m.source.ensureCollection collection
        phase := if items.isEmpty then
            .reading collection name (keys.drop options.chunkSize) rest
          else .puttingMany collection name items
            (keys.drop options.chunkSize) rest
        report := { m.report with
          scanned := m.report.scanned + (keys.take options.chunkSize).length
          skippedExpired := m.report.skippedExpired +
            ((keys.take options.chunkSize).length - items.length) } } := by
  have hsound := h.sound
  have hscanned := h.scanned
  simp only [hphase, CopyPhase.Sound, CopyPhase.inHand] at hsound hscanned
  rw [h.source] at hitems
  have hsub : (items.map Prod.fst).Sublist (keys.take options.chunkSize) :=
    hitems ▸ fst_valueItems_sublist later collection _
  obtain ⟨phase, hnext⟩ : ∃ phase, phase = if items.isEmpty = true then
      CopyPhase.reading collection name (keys.drop options.chunkSize) rest
    else .puttingMany collection name items (keys.drop options.chunkSize)
      rest := ⟨_, rfl⟩
  have hunread : phase.unread =
      (items.map Prod.fst ++ keys.drop options.chunkSize).map
        fun key => (collection, key) := by
    subst hnext
    cases items <;> rfl
  rw [← hnext]
  apply h.advance
  · rw [h.source, ensureCollection_eq hsound.2]
  · exact h.kept
  · subst hnext
    cases hempty : items.isEmpty with
    | true => exact hsound
    | false =>
        refine ⟨hsound.1, hsound.2, hpreserve, fun item hitem => ?_⟩
        rw [hitems] at hitem
        rw [← hlive]
        exact (mem_valueItems.mp hitem).2
  · have hlength := hsub.length_le
    have hhand : phase.inHand = items.length := by
      subst hnext
      cases items <;> rfl
    simp only [hhand, List.length_map] at hlength ⊢
    omega
  · subst hnext
    rw [hphase]
    cases items <;> exact .refl _
  · rw [hunread, hphase]
    refine List.Sublist.map _ ?_
    calc
      (items.map Prod.fst ++ keys.drop options.chunkSize).Sublist
          (keys.take options.chunkSize ++ keys.drop options.chunkSize) :=
        hsub.append_right _
      _ = keys := List.take_append_drop ..
  · exact fun p hp => .inl hp
  · intro p hp hmem
    refine hmem.imp id fun hmem => ?_
    rw [hphase] at hmem
    obtain ⟨key, hkey, rfl⟩ := List.mem_map.mp hmem
    rw [hunread]
    refine List.mem_map.mpr ⟨key, ?_, rfl⟩
    rw [← List.take_append_drop options.chunkSize keys] at hkey
    refine (List.mem_append.mp hkey).elim (fun hkey => ?_)
      (List.mem_append_right _)
    obtain ⟨stored, hstored⟩ :=
      Option.isSome_iff_exists.mp (mem_dueEntries.mp hp).2
    refine List.mem_append_left _
      (List.mem_map.mpr ⟨(key, stored.entry.value), ?_, rfl⟩)
    rw [hitems, mem_valueItems, hlive]
    exact ⟨hkey, stored, hstored, rfl⟩
  · intro p _ hmem
    subst hnext
    rw [hphase] at hmem
    cases items <;> exact hmem

theorem Copying.advance_skipped {order : Order}
    {collection name key : String}
    {items : List (String × Option (Value × Option F64))}
    {left rest : List String}
    (hphase : m.phase = .putting collection name ((key, none) :: items) left
      rest)
    (h : Copying options s now holds t₀ handled m) :
    Advance options s now holds t₀ order handled m handled
      { m with
        phase := .putting collection name items left rest
        report := { m.report with
          skippedExpired := m.report.skippedExpired + 1 } } := by
  have hsound := h.sound
  have hscanned := h.scanned
  simp only [hphase, CopyPhase.Sound, CopyPhase.inHand, List.length_cons,
    List.forall_mem_cons] at hsound hscanned
  obtain ⟨hroute, hcol, hpreserve, habsent, hitems⟩ := hsound
  apply h.advance
  · exact h.source
  · exact h.kept
  · exact ⟨hroute, hcol, hpreserve, hitems⟩
  · simp only [CopyPhase.inHand]
    omega
  · rw [hphase]
    exact .refl _
  · rw [hphase]
    exact List.sublist_cons_self ..
  · exact fun p hp => .inl hp
  · intro p hp hmem
    refine hmem.imp id fun hmem => ?_
    rw [hphase] at hmem
    rcases List.mem_cons.mp hmem with rfl | hmem
    · rw [mem_dueEntries] at hp
      rw [habsent] at hp
      cases hp.2
    · exact hmem
  · intro p _ hmem
    rwa [hphase] at hmem

theorem Copying.advance_put {order : Order} {collection name key : String}
    {value : Value} {ttl : Option F64}
    {items : List (String × Option (Value × Option F64))}
    {left rest : List String} {t : τ}
    (hphase : m.phase = .putting collection name
      ((key, some (value, ttl)) :: items) left rest)
    (h : Copying options s now holds t₀ handled m)
    (hheld : holds t name key = some (value, ttl.isNone))
    (hother : ∀ name' key', ¬ (name' = name ∧ key' = key) →
      holds t name' key' = holds m.target name' key') :
    Advance options s now holds t₀ order handled m
      (handled ++ [(collection, key)])
      { m with
        target := t
        phase := .putting collection name items left rest
        report := { m.report with copied := m.report.copied + 1 } } := by
  have hsound := h.sound
  have hscanned := h.scanned
  have hunread := h.unread
  simp only [hphase, CopyPhase.Sound, CopyPhase.inHand, List.length_cons,
    List.forall_mem_cons, CopyPhase.unread, List.map_cons, List.cons_append,
    List.nodup_cons] at hsound hscanned hunread
  obtain ⟨hroute, hcol, hpreserve, ⟨stored, hlive, rfl, httl⟩, hitems⟩ := hsound
  have hmine : (collection, key) ∈ m.phase.unread := by
    rw [hphase]
    exact List.mem_cons_self ..
  apply h.advance
  · exact h.source
  · refine h.kept.append hroute [key] (List.nodup_singleton key) ?_ ?_ ?_
    · intro key' hkey' hmem
      rw [List.mem_singleton.mp hkey'] at hmem
      exact (h.apart _ hmem).2 hmine
    · intro key' hkey'
      rw [List.mem_singleton.mp hkey']
      rw [httl] at hheld
      exact ⟨stored, hlive, by simpa [hpreserve] using hheld⟩
    · intro name' key' hne
      exact hother name' key' fun heq =>
        hne ⟨heq.1, List.mem_singleton.mpr heq.2⟩
  · exact ⟨hroute, hcol, hpreserve, hitems⟩
  · simp only [CopyPhase.inHand]
    omega
  · rw [hphase]
    exact .refl _
  · rw [hphase]
    exact List.sublist_cons_self ..
  · intro p hp
    rcases List.mem_append.mp hp with hp | hp
    · exact .inl hp
    · rw [List.mem_singleton.mp hp]
      exact .inr ⟨hmine, hunread.1⟩
  · intro p _ hmem
    rcases hmem with hmem | hmem
    · exact .inl (List.mem_append_left _ hmem)
    · rw [hphase] at hmem
      rcases List.mem_cons.mp hmem with rfl | hmem
      · exact .inl (List.mem_append_right _ (List.mem_singleton.mpr rfl))
      · exact .inr hmem
  · intro p _ hmem
    rwa [hphase] at hmem

theorem Copying.advance_putMany {order : Order} {collection name : String}
    {items : List (String × Value)} {left rest : List String} {t : τ}
    (hphase : m.phase = .puttingMany collection name items left rest)
    (h : Copying options s now holds t₀ handled m)
    (hheld : ∀ item ∈ items, holds t name item.1 = some (item.2, true))
    (hother : ∀ name' key', ¬ (name' = name ∧ key' ∈ items.map Prod.fst) →
      holds t name' key' = holds m.target name' key') :
    Advance options s now holds t₀ order handled m
      (handled ++ (items.map Prod.fst).map fun key => (collection, key))
      { m with
        target := t
        phase := .reading collection name left rest
        report := { m.report with
          copied := m.report.copied + items.length } } := by
  have hsound := h.sound
  have hscanned := h.scanned
  have hunread := h.unread
  simp only [hphase, CopyPhase.Sound, CopyPhase.inHand, CopyPhase.unread,
    List.map_append] at hsound hscanned hunread
  obtain ⟨hroute, hcol, hpreserve, hitems⟩ := hsound
  have hmine : ∀ key ∈ items.map Prod.fst,
      (collection, key) ∈ m.phase.unread := by
    intro key hkey
    rw [hphase]
    exact List.mem_map_of_mem (List.mem_append_left _ hkey)
  apply h.advance
  · exact h.source
  · have hkept := h.kept.append hroute (items.map Prod.fst)
      (List.Nodup.of_map _ (List.nodup_append.mp hunread).1)
      (fun key hkey hmem => (h.apart _ hmem).2 (hmine key hkey)) ?_ hother
    · simpa only [List.length_map] using hkept
    · intro key hkey
      obtain ⟨item, hitem, rfl⟩ := List.mem_map.mp hkey
      obtain ⟨stored, hlive, hvalue⟩ := hitems item hitem
      refine ⟨stored, hlive, ?_⟩
      rw [hheld item hitem, hvalue, hpreserve, Bool.not_false, Bool.or_true]
  · exact ⟨hroute, hcol⟩
  · simp only [CopyPhase.inHand]
    omega
  · rw [hphase]
    exact .refl _
  · simp only [hphase, CopyPhase.unread, List.map_append]
    exact List.sublist_append_right ..
  · intro p hp
    refine (List.mem_append.mp hp).imp id fun hp => ?_
    obtain ⟨key, hkey, rfl⟩ := List.mem_map.mp hp
    refine ⟨hmine key hkey, fun hmem => ?_⟩
    exact (List.nodup_append.mp hunread).2.2 _ hp _ hmem rfl
  · intro p _ hmem
    rcases hmem with hmem | hmem
    · exact .inl (List.mem_append_left _ hmem)
    · simp only [hphase, CopyPhase.unread, List.map_append] at hmem
      exact (List.mem_append.mp hmem).imp (List.mem_append_right _) id
  · intro p _ hmem
    rwa [hphase] at hmem

variable {config : MemoryConfig} {rng : Nat → Option Revision}
  {target : Target τ} {grants : F64 → Prop} {label : DateTime × Order}
  {m' : Copy τ}

theorem Copying.step (hsetup : s.setupComplete = true)
    (haccepts : target.Accepts grants holds)
    (h : Copying options s now holds t₀ handled m)
    (hlive : s.live label.1 = s.live now)
    (hstep : m.step config rng options target label = some m')
    (hok : ∀ error, m'.phase ≠ .finished (.error error)) :
    ∃ handled', Advance options s now holds t₀ label.2 handled m handled'
      m' := by
  have hsound := h.sound
  have hscanned := h.scanned
  have hopen : m.phase ≠ .opening := by
    intro hphase
    rw [hphase] at hsound
    exact hsound
  have hcopies := step_copies (h.source ▸ hsetup) hopen hstep
  generalize hphase : m.phase = phase at hcopies hsound hscanned
  cases hcopies with
  | listed => exact hsound.elim
  | ended =>
      refine ⟨handled, h.advance h.source h.kept rfl hscanned ?_ ?_
        (fun p hp => .inl hp) ?_ ?_⟩
      · exact List.nil_sublist _
      · exact List.nil_sublist _
      · intro p _ hmem
        simpa [hphase, CopyPhase.unread] using hmem
      · intro p _ hmem
        simp [hphase, CopyPhase.rest] at hmem
  | passed collection rest hnone =>
      refine ⟨handled, h.advance h.source h.kept trivial hscanned ?_ ?_
        (fun p hp => .inl hp) ?_ ?_⟩
      · rw [hphase]
        exact List.sublist_cons_self ..
      · exact List.nil_sublist _
      · intro p _ hmem
        simpa [hphase, CopyPhase.unread] using hmem
      · intro p hp hmem
        rw [hphase] at hmem
        rcases List.mem_cons.mp hmem with hcollection | hmem
        · have hroute := (mem_dueEntries.mp hp).1
          rw [hcollection, route_eq_none hnone] at hroute
          cases hroute
        · exact hmem
  | enumerated collection name rest hselected hmapped =>
      have hroute := route_eq_some.mpr ⟨hselected, hmapped⟩
      have hadvance := h.advance_enumerated label.2 hphase hroute
      rw [page, ← h.source] at hadvance
      exact ⟨handled, h.source ▸ hadvance⟩
  | drained collection name rest =>
      refine ⟨handled, h.advance h.source h.kept trivial hscanned ?_ ?_
        (fun p hp => .inl hp) ?_ ?_⟩
      · rw [hphase]
        exact .refl _
      · exact List.nil_sublist _
      · intro p _ hmem
        simpa [hphase, CopyPhase.unread] using hmem
      · intro p _ hmem
        rwa [hphase] at hmem
  | readTtls collection name keys rest hpreserve _ =>
      exact ⟨handled, h.advance_readTtls hphase hlive hpreserve⟩
  | readValues collection name keys rest items hpreserve _ hitems =>
      exact ⟨handled, h.advance_readValues hphase hlive hpreserve hitems⟩
  | written collection name left rest =>
      refine ⟨handled, h.advance h.source h.kept ⟨hsound.1, hsound.2.1⟩
        hscanned ?_ ?_ (fun p hp => .inl hp) ?_ ?_⟩
      · rw [hphase]
        exact .refl _
      · rw [hphase]
        exact .refl _
      · intro p _ hmem
        rwa [hphase] at hmem
      · intro p _ hmem
        rwa [hphase] at hmem
  | skipped collection name key items left rest =>
      exact ⟨handled, h.advance_skipped hphase⟩
  | put collection name key value ttl items left rest t hput =>
      obtain ⟨hheld, hother⟩ := haccepts.put key value name ttl m.target t hput
      exact ⟨_, h.advance_put hphase hheld hother⟩
  | putMany collection name items left rest t hput =>
      have hunread := h.unread
      simp only [hphase, CopyPhase.unread, List.map_append] at hunread
      obtain ⟨hheld, hother⟩ := haccepts.putMany items name m.target t
        (List.Nodup.of_map _ (List.nodup_append.mp hunread).1) hput
      exact ⟨_, h.advance_putMany hphase hheld hother⟩
  | putRefused | putManyRefused => exact absurd rfl (hok _)

end Steps

end OpenKeyV.Memory
