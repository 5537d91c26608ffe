import OpenKeyV.Library.TopKeys
import OpenKeyV.Memory.Capacity

/-!
# What eviction keeps

`enforce_capacity` drops what has expired and then the smallest keys, so that
the largest of the live keys stay.  Evicting after every insertion therefore
comes to the same as evicting once, unless what is inserted expires at once: it
may then have taken the place of a key that was evicted before.
-/

namespace OpenKeyV.Memory

open OpenKeyV.Library

/-! ## The keys that stay -/

section Kept

variable (config : MemoryConfig) (now : DateTime)

def freshKeys (col : Collection) : Finset String :=
  (col.keys.filter fun key =>
    (col.lookup key).any fun stored => !stored.isExpired now).toFinset

def keptKeys (col : Collection) : Finset String :=
  match config.maxEntriesPerCollection with
  | none => col.keys.toFinset
  | some max => topKeys max (freshKeys now col)

def settle (order : Order) (name : String) (col : Collection) : Collection :=
  col.eraseAll (excessKeys config now order name col)

variable {config now} {col : Collection} {key : String} {max : Nat}

theorem mem_freshKeys : key ∈ freshKeys now col ↔
    ∃ stored, col.lookup key = some stored ∧ stored.isExpired now = false := by
  rw [freshKeys, List.mem_toFinset, List.mem_filter, KeyedMap.mem_keys_iff]
  constructor
  · rintro ⟨⟨stored, hstored⟩, hfresh⟩
    exact ⟨stored, hstored, by simpa [hstored] using hfresh⟩
  · rintro ⟨stored, hstored, hfresh⟩
    exact ⟨⟨stored, hstored⟩, by simp [hstored, hfresh]⟩

theorem freshKeys_subset : freshKeys now col ⊆ col.keys.toFinset := by
  intro key hkey
  obtain ⟨stored, hstored, -⟩ := mem_freshKeys.mp hkey
  exact List.mem_toFinset.mpr (KeyedMap.mem_keys_iff.mpr ⟨stored, hstored⟩)

theorem smallestKey_le {smallest : String}
    (h : smallestKey col = some smallest) (hkey : key ∈ col.keys) :
    smallest ≤ key :=
  (List.min?_eq_some_iff.mp h).2 key hkey

theorem mem_overflowing (max fuel : Nat) (col : Collection)
    (h : col.size ≤ max + fuel) :
    key ∈ overflowing max fuel col ↔
      key ∈ col.keys ∧ key ∉ topKeys max col.keys.toFinset := by
  have hcard : ∀ col : Collection, col.keys.toFinset.card = col.size :=
    fun col => List.toFinset_card_of_nodup col.keys_nodup
  induction fuel generalizing col with
  | zero =>
      rw [topKeys_of_card_le (by rw [hcard]; omega), List.mem_toFinset]
      simp [overflowing]
  | succ fuel ih =>
      rw [overflowing]
      split
      · rename_i hlt
        obtain ⟨smallest, hsmallest⟩ :=
          exists_smallestKey (Nat.zero_lt_of_lt hlt)
        have hmem := mem_of_smallestKey hsmallest
        have hsize := KeyedMap.size_erase_of_mem hmem
        have herase : ∀ {other}, other ∈ (col.erase smallest).keys ↔
            other ≠ smallest ∧ other ∈ col.keys := fun {other} => by
          rw [AList.keys_erase, col.keys_nodup.mem_erase_iff]
        have hinsert : insert smallest (col.erase smallest).keys.toFinset =
            col.keys.toFinset := by
          ext other
          rw [Finset.mem_insert, List.mem_toFinset, herase, List.mem_toFinset]
          constructor
          · rintro (rfl | h)
            · exact hmem
            · exact h.2
          · exact fun h => or_iff_not_imp_left.mpr fun hne => ⟨hne, h⟩
        have hbelow : ∀ other ∈ (col.erase smallest).keys.toFinset,
            smallest < other := by
          intro other hother
          obtain ⟨hne, hthere⟩ := herase.mp (List.mem_toFinset.mp hother)
          exact lt_of_le_of_ne (smallestKey_le hsmallest hthere) hne.symm
        have hrest := ih (col.erase smallest) (by omega)
        have htop : topKeys max col.keys.toFinset =
            topKeys max (col.erase smallest).keys.toFinset := by
          rw [← hinsert, topKeys_insert_below hbelow,
            if_neg (by rw [hcard]; omega)]
        simp only [hsmallest, List.mem_cons]
        rw [htop]
        constructor
        · rintro (rfl | hover)
          · refine ⟨hmem, fun htop => ?_⟩
            have hthere := List.mem_toFinset.mp (topKeys_subset _ _ htop)
            exact (herase.mp hthere).1 rfl
          · obtain ⟨hthere, hlow⟩ := hrest.mp hover
            exact ⟨(herase.mp hthere).2, hlow⟩
        · rintro ⟨hthere, hlow⟩
          by_cases heq : key = smallest
          · exact .inl heq
          · exact .inr (hrest.mpr ⟨herase.mpr ⟨heq, hthere⟩, hlow⟩)
      · rename_i hle
        rw [topKeys_of_card_le (by rw [hcard]; omega), List.mem_toFinset]
        simp

theorem mem_excessKeys {order : Order} {name : String} :
    key ∈ excessKeys config now order name col ↔
      key ∈ col.keys ∧ key ∉ keptKeys config now col := by
  rw [excessKeys, keptKeys]
  cases config.maxEntriesPerCollection with
  | none => simp
  | some max =>
    have hfresh : (col.retain fun _ stored =>
        !stored.isExpired now).keys.toFinset = freshKeys now col := by
      ext other
      rw [freshKeys, List.mem_toFinset, List.mem_toFinset, List.mem_filter,
        KeyedMap.mem_keys_retain]
    have hover := @mem_overflowing key max
      (col.retain fun _ stored => !stored.isExpired now).size
      (col.retain fun _ stored => !stored.isExpired now) (by omega)
    have hkey := @List.mem_toFinset _ _
      (col.retain fun _ stored => !stored.isExpired now).keys key
    rw [hfresh, ← hkey, hfresh] at hover
    simp only [List.mem_append, (order.keys_perm name _).mem_iff,
      mem_expiredKeys]
    constructor
    · rintro (⟨hthere, hexpired⟩ | hdropped)
      · refine ⟨hthere, fun htop => ?_⟩
        obtain ⟨stored, hstored, hlive⟩ :=
          mem_freshKeys.mp (topKeys_subset _ _ htop)
        simp [hstored, hlive] at hexpired
      · obtain ⟨hkey, hlow⟩ := hover.mp hdropped
        exact ⟨List.mem_toFinset.mp (freshKeys_subset hkey), hlow⟩
    · rintro ⟨hthere, hlow⟩
      obtain ⟨stored, hstored⟩ := KeyedMap.mem_keys_iff.mp hthere
      cases hexpired : stored.isExpired now with
      | true => exact .inl ⟨hthere, by simp [hstored, hexpired]⟩
      | false =>
          exact .inr (hover.mpr
            ⟨mem_freshKeys.mpr ⟨stored, hstored, hexpired⟩, hlow⟩)

theorem lookup_settle (order : Order) (name : String) :
    (settle config now order name col).lookup key =
      if key ∈ keptKeys config now col then col.lookup key else none := by
  rw [settle, KeyedMap.lookup_eraseAll]
  by_cases hthere : key ∈ col.keys
  · by_cases hkept : key ∈ keptKeys config now col
    · rw [if_pos hkept, if_neg fun h => (mem_excessKeys.mp h).2 hkept]
    · rw [if_neg hkept, if_pos (mem_excessKeys.mpr ⟨hthere, hkept⟩)]
  · have hnone : col.lookup key = none := by
      rw [AList.lookup_eq_none]
      exact hthere
    rw [hnone, ite_self, ite_self]

theorem lookup_settle_bounded (hmax : config.maxEntriesPerCollection = some max)
    (order : Order) (name : String) :
    (settle config now order name col).lookup key =
      if key ∈ topKeys max (freshKeys now col) then col.lookup key
      else none := by
  simp only [lookup_settle, keptKeys, hmax]

theorem freshKeys_settle (hmax : config.maxEntriesPerCollection = some max)
    (order : Order) (name : String) :
    freshKeys now (settle config now order name col) =
      topKeys max (freshKeys now col) := by
  ext key
  rw [mem_freshKeys, lookup_settle_bounded hmax]
  constructor
  · rintro ⟨stored, hstored, -⟩
    by_contra hnot
    rw [if_neg hnot] at hstored
    cases hstored
  · intro htop
    rw [if_pos htop]
    exact mem_freshKeys.mp (topKeys_subset _ _ htop)

theorem keys_settle (hmax : config.maxEntriesPerCollection = some max)
    (order : Order) (name : String) :
    (settle config now order name col).keys.toFinset =
      topKeys max (freshKeys now col) := by
  ext key
  rw [List.mem_toFinset, KeyedMap.mem_keys_iff, lookup_settle_bounded hmax]
  constructor
  · rintro ⟨stored, hstored⟩
    by_contra hnot
    rw [if_neg hnot] at hstored
    cases hstored
  · intro htop
    rw [if_pos htop]
    obtain ⟨stored, hstored, -⟩ := mem_freshKeys.mp (topKeys_subset _ _ htop)
    exact ⟨stored, hstored⟩

end Kept

/-! ## Insertions -/

section Insertions

variable (config : MemoryConfig) (now : DateTime) (orders : Nat → Order)
  (name : String)

def insertItems (items : List (String × RevisionedEntry)) (col : Collection) :
    Collection :=
  items.foldl (fun col item => col.insert item.1 item.2) col

/-- Every insertion is followed by `enforce_capacity`. -/
def settleEach : Nat → List (String × RevisionedEntry) → Collection → Collection
  | _, [], col => col
  | n, item :: items, col =>
      settleEach (n + 1) items
        (settle config now (orders n) name (col.insert item.1 item.2))

def itemKeys (items : List (String × RevisionedEntry)) : Finset String :=
  (items.map Prod.fst).toFinset

variable {config now orders name} {items : List (String × RevisionedEntry)}
  {col col' : Collection} {key : String} {max : Nat}

theorem itemKeys_cons (item : String × RevisionedEntry) :
    itemKeys (item :: items) = insert item.1 (itemKeys items) := by
  rw [itemKeys, List.map_cons, List.toFinset_cons, itemKeys]

theorem lookup_insertItems_of_notMem (h : key ∉ itemKeys items) :
    (insertItems items col).lookup key = col.lookup key := by
  induction items generalizing col with
  | nil => rfl
  | cons item items ih =>
      rw [itemKeys_cons, Finset.mem_insert, not_or] at h
      rw [insertItems, List.foldl_cons, ← insertItems, ih h.2,
        KeyedMap.lookup_insert_eq, if_neg h.1]

theorem lookup_insertItems_of_mem (h : key ∈ itemKeys items) :
    ∃ item ∈ items, ∀ col : Collection,
      (insertItems items col).lookup key = some item.2 := by
  induction items with
  | nil => simp [itemKeys] at h
  | cons item items ih =>
      by_cases hrest : key ∈ itemKeys items
      · obtain ⟨last, hlast, hlookup⟩ := ih hrest
        exact ⟨last, List.mem_cons_of_mem _ hlast, fun col => hlookup _⟩
      · rw [itemKeys_cons, Finset.mem_insert] at h
        refine ⟨item, List.mem_cons_self .., fun col => ?_⟩
        rw [insertItems, List.foldl_cons, ← insertItems,
          lookup_insertItems_of_notMem hrest, KeyedMap.lookup_insert_eq,
          if_pos (h.resolve_right hrest)]

theorem freshKeys_insertItems
    (hfresh : ∀ item ∈ items, item.2.isExpired now = false) :
    freshKeys now (insertItems items col) =
      freshKeys now col ∪ itemKeys items := by
  ext key
  rw [mem_freshKeys, Finset.mem_union, mem_freshKeys]
  by_cases hkey : key ∈ itemKeys items
  · obtain ⟨item, hitem, hlookup⟩ := lookup_insertItems_of_mem hkey
    rw [hlookup col]
    exact iff_of_true ⟨item.2, rfl, hfresh item hitem⟩ (.inr hkey)
  · rw [lookup_insertItems_of_notMem hkey, or_iff_left hkey]

theorem freshKeys_insertItems_expired
    (hexpired : ∀ item ∈ items, item.2.isExpired now = true) :
    freshKeys now (insertItems items col) =
      freshKeys now col \ itemKeys items := by
  ext key
  rw [mem_freshKeys, Finset.mem_sdiff, mem_freshKeys]
  by_cases hkey : key ∈ itemKeys items
  · obtain ⟨item, hitem, hlookup⟩ := lookup_insertItems_of_mem hkey
    rw [hlookup col]
    refine iff_of_false ?_ fun h => h.2 hkey
    rintro ⟨stored, hstored, hlive⟩
    cases hstored
    rw [hexpired item hitem] at hlive
    cases hlive
  · rw [lookup_insertItems_of_notMem hkey, and_iff_left hkey]

theorem insertItems_singleton (item : String × RevisionedEntry) :
    insertItems [item] col = col.insert item.1 item.2 := rfl

def SameEntries (col col' : Collection) : Prop :=
  ∀ key, (col.lookup key).map (·.entry) = (col'.lookup key).map (·.entry)

theorem SameEntries.fresh (h : SameEntries col col') :
    freshKeys now col = freshKeys now col' := by
  have hsub : ∀ {col col' : Collection}, SameEntries col col' →
      freshKeys now col ⊆ freshKeys now col' := by
    intro col col' h key hkey
    obtain ⟨stored, hstored, hlive⟩ := mem_freshKeys.mp hkey
    have hsame := h key
    rw [hstored, Option.map_some] at hsame
    obtain ⟨stored', hstored', hentry⟩ := Option.map_eq_some_iff.mp hsame.symm
    refine mem_freshKeys.mpr ⟨stored', hstored', ?_⟩
    rwa [RevisionedEntry.isExpired, hentry]
  exact (hsub h).antisymm (hsub fun key => (h key).symm)

theorem SameEntries.keys (h : SameEntries col col') :
    col.keys.toFinset = col'.keys.toFinset := by
  ext key
  have hsame := congrArg Option.isSome (h key)
  simpa only [List.mem_toFinset, KeyedMap.mem_keys_iff, Option.isSome_map,
    Option.isSome_iff_exists, Bool.coe_iff_coe] using
    Bool.coe_iff_coe.mpr hsame

theorem SameEntries.settle (h : SameEntries col col') (order order' : Order) :
    SameEntries (settle config now order name col)
      (settle config now order' name col') := by
  have hkept : keptKeys config now col = keptKeys config now col' := by
    rw [keptKeys, keptKeys, h.keys, h.fresh]
  intro key
  rw [lookup_settle, lookup_settle, hkept]
  split
  · exact h key
  · rfl

theorem settleEach_unbounded
    (hmax : config.maxEntriesPerCollection = none) (n : Nat) :
    settleEach config now orders name n items col = insertItems items col := by
  induction items generalizing n col with
  | nil => rfl
  | cons item items ih =>
      rw [settleEach, ih, settle, excessKeys, hmax]
      rfl

theorem lookup_settle_settle (hmax : config.maxEntriesPerCollection = some max)
    (hfresh : ∀ item ∈ items, item.2.isExpired now = false)
    (order order' order'' : Order) :
    (settle config now order name
        (insertItems items (settle config now order' name col))).lookup key =
      (settle config now order'' name (insertItems items col)).lookup key := by
  have htop : topKeys max (freshKeys now
        (insertItems items (settle config now order' name col))) =
      topKeys max (freshKeys now (insertItems items col)) := by
    rw [freshKeys_insertItems hfresh, freshKeys_insertItems hfresh,
      freshKeys_settle hmax, topKeys_topKeys_union]
  simp only [lookup_settle_bounded hmax, htop]
  split
  · rename_i hkey
    by_cases hitem : key ∈ itemKeys items
    · obtain ⟨item, -, hlookup⟩ := lookup_insertItems_of_mem hitem
      rw [hlookup, hlookup]
    · rw [← htop, freshKeys_insertItems hfresh, freshKeys_settle hmax] at hkey
      have hbefore := (Finset.mem_union.mp
        (topKeys_subset _ _ hkey)).resolve_right hitem
      rw [lookup_insertItems_of_notMem hitem,
        lookup_insertItems_of_notMem hitem, lookup_settle_bounded hmax,
        if_pos hbefore]
  · rfl

theorem lookup_settleEach (hmax : config.maxEntriesPerCollection = some max)
    (hfresh : ∀ item ∈ items, item.2.isExpired now = false)
    (hsome : items ≠ []) (order : Order) (n : Nat) :
    (settleEach config now orders name n items col).lookup key =
      (settle config now order name (insertItems items col)).lookup key := by
  induction items generalizing n col with
  | nil => exact absurd rfl hsome
  | cons item items ih =>
      rw [settleEach]
      by_cases hrest : items = []
      · rw [hrest, settleEach, insertItems_singleton, lookup_settle,
          lookup_settle]
      · rw [ih (fun item hitem => hfresh item (List.mem_cons_of_mem _ hitem))
            hrest, lookup_settle_settle hmax
            (fun item hitem => hfresh item (List.mem_cons_of_mem _ hitem))
            order (orders n) order]
        rfl

theorem lookup_settleEach_within
    (hmax : config.maxEntriesPerCollection = some max)
    (hexpired : ∀ item ∈ items, item.2.isExpired now = true)
    (hall : col.keys.toFinset = freshKeys now col)
    (hsize : (freshKeys now col).card ≤ max) (n : Nat) :
    (settleEach config now orders name n items col).lookup key =
      if key ∈ itemKeys items then none else col.lookup key := by
  induction items generalizing n col with
  | nil => rfl
  | cons item items ih =>
      have hone : freshKeys now (col.insert item.1 item.2) =
          freshKeys now col \ {item.1} :=
        @freshKeys_insertItems_expired now [item] col fun other hother => by
          rw [List.mem_singleton.mp hother]
          exact hexpired item (List.mem_cons_self ..)
      have hfewer : (freshKeys now col \ {item.1}).card ≤ max :=
        (Finset.card_le_card Finset.sdiff_subset).trans hsize
      have htop := topKeys_of_card_le hfewer
      rw [settleEach, ih fun item hitem =>
        hexpired item (List.mem_cons_of_mem _ hitem)]
      · have hkey : key ∈ freshKeys now col ↔ key ∈ col.keys := by
          rw [← hall, List.mem_toFinset]
        simp only [itemKeys_cons, Finset.mem_insert, lookup_settle_bounded hmax,
          hone, htop, Finset.mem_sdiff, Finset.mem_singleton,
          KeyedMap.lookup_insert_eq, hkey]
        by_cases hitem : key = item.1
        · simp [hitem]
        · by_cases hthere : key ∈ col.keys
          · simp [hitem, hthere]
          · simp [hitem, hthere, AList.lookup_eq_none.mpr hthere]
      · rw [keys_settle hmax, freshKeys_settle hmax]
      · rw [freshKeys_settle hmax, hone, htop]
        exact hfewer

theorem lookup_settleEach_expired
    (hmax : config.maxEntriesPerCollection = some max)
    {item : String × RevisionedEntry}
    (hexpired : ∀ other ∈ item :: items, other.2.isExpired now = true)
    (n : Nat) :
    (settleEach config now orders name n (item :: items) col).lookup key =
      if key ∈ topKeys max (freshKeys now col \ {item.1}) \ itemKeys items then
        col.lookup key
      else none := by
  have hone : freshKeys now (col.insert item.1 item.2) =
      freshKeys now col \ {item.1} :=
    @freshKeys_insertItems_expired now [item] col fun other hother => by
      rw [List.mem_singleton.mp hother]
      exact hexpired item (List.mem_cons_self ..)
  rw [settleEach, lookup_settleEach_within hmax fun other hother =>
    hexpired other (List.mem_cons_of_mem _ hother)]
  · simp only [lookup_settle_bounded hmax, hone, Finset.mem_sdiff,
      KeyedMap.lookup_insert_eq]
    by_cases hitems : key ∈ itemKeys items
    · simp [hitems]
    · by_cases htop : key ∈ topKeys max (freshKeys now col \ {item.1})
      · have hne := (Finset.mem_sdiff.mp (topKeys_subset _ _ htop)).2
        rw [Finset.mem_singleton] at hne
        simp [hitems, htop, hne]
      · simp [hitems, htop]
  · rw [keys_settle hmax, freshKeys_settle hmax]
  · rw [freshKeys_settle hmax, card_topKeys]
    exact Nat.min_le_left ..

theorem lookup_settle_expired (hmax : config.maxEntriesPerCollection = some max)
    (hexpired : ∀ item ∈ items, item.2.isExpired now = true) (order : Order) :
    (settle config now order name (insertItems items col)).lookup key =
      if key ∈ topKeys max (freshKeys now col \ itemKeys items) then
        col.lookup key
      else none := by
  simp only [lookup_settle_bounded hmax, freshKeys_insertItems_expired hexpired]
  split
  · rename_i htop
    exact lookup_insertItems_of_notMem
      (Finset.mem_sdiff.mp (topKeys_subset _ _ htop)).2
  · rfl

def SameValues (col col' : Collection) : Prop :=
  ∀ key, (col.lookup key).map (·.entry.value) =
    (col'.lookup key).map (·.entry.value)

theorem SameEntries.values (h : SameEntries col col') :
    SameValues col col' := by
  intro key
  have hsame := congrArg (Option.map (·.value)) (h key)
  rwa [Option.map_map, Option.map_map] at hsame

theorem SameValues.keys (h : SameValues col col') :
    col.keys.toFinset = col'.keys.toFinset := by
  ext key
  have hsame := congrArg Option.isSome (h key)
  rw [Option.isSome_map, Option.isSome_map] at hsame
  rw [List.mem_toFinset, List.mem_toFinset, KeyedMap.mem_keys_iff,
    KeyedMap.mem_keys_iff, ← Option.isSome_iff_exists,
    ← Option.isSome_iff_exists, hsame]

theorem sameValues_parts_iff {part part' : Collection}
    {keys keys' : Finset String} (hkeys : keys ⊆ col.keys.toFinset)
    (hkeys' : keys' ⊆ col.keys.toFinset)
    (hpart : ∀ key, part.lookup key =
      if key ∈ keys then col.lookup key else none)
    (hpart' : ∀ key, part'.lookup key =
      if key ∈ keys' then col.lookup key else none) :
    SameValues part part' ↔ keys = keys' := by
  have hwhole : ∀ {part : Collection} {keys : Finset String},
      keys ⊆ col.keys.toFinset → (∀ key, part.lookup key =
        if key ∈ keys then col.lookup key else none) →
      part.keys.toFinset = keys := by
    intro part keys hsub hlookup
    ext key
    rw [List.mem_toFinset, KeyedMap.mem_keys_iff, hlookup]
    by_cases hkey : key ∈ keys
    · have hthere := List.mem_toFinset.mp (hsub hkey)
      rw [if_pos hkey]
      exact iff_of_true (KeyedMap.mem_keys_iff.mp hthere) hkey
    · simp [hkey]
  constructor
  · intro h
    rw [← hwhole hkeys hpart, h.keys, hwhole hkeys' hpart']
  · rintro rfl key
    rw [hpart, hpart']

/-- Evicting once leaves what evicting after every insertion does: always, if
the entries last; otherwise the keys written later do not come before the others
that fit, or nothing is left beyond these. -/
def Commutes (config : MemoryConfig) (now : DateTime) (ephemeral : Prop)
    (keys : List String) (col : Collection) : Prop :=
  match config.maxEntriesPerCollection, keys with
  | none, _ => True
  | some max, [] => freshKeys now col = col.keys.toFinset ∧ col.size ≤ max
  | some max, first :: rest =>
      ephemeral →
        Disjoint (topKeys max (freshKeys now col \ {first})) rest.toFinset ∨
          (freshKeys now col \ {first}) \ rest.toFinset ⊆
            topKeys max (freshKeys now col \ {first})

/-- Enforcing the capacity alone changes nothing if nothing has expired and all
fits. -/
theorem sameValues_settle_iff (hmax : config.maxEntriesPerCollection = some max)
    (order : Order) :
    SameValues (settle config now order name col) col ↔
      freshKeys now col = col.keys.toFinset ∧ col.size ≤ max := by
  have hcard : col.keys.toFinset.card = col.size :=
    List.toFinset_card_of_nodup col.keys_nodup
  rw [sameValues_parts_iff ((topKeys_subset max _).trans freshKeys_subset)
    subset_rfl (fun key => lookup_settle_bounded hmax order name) fun key => ?_]
  · constructor
    · intro h
      have hfresh : freshKeys now col = col.keys.toFinset :=
        freshKeys_subset.antisymm (h ▸ topKeys_subset max _)
      refine ⟨hfresh, ?_⟩
      have htop := congrArg Finset.card h
      rw [card_topKeys, hfresh] at htop
      omega
    · rintro ⟨hfresh, hsize⟩
      rw [hfresh, topKeys_of_card_le (by omega)]
  · split
    · rfl
    · rename_i hnot
      rw [List.mem_toFinset] at hnot
      exact AList.lookup_eq_none.mpr hnot

theorem sameValues_settleEach_iff {ephemeral : Prop}
    (hlife : ∀ item ∈ items, item.2.isExpired now = true ↔ ephemeral)
    (order : Order) (n : Nat) :
    SameValues (settle config now order name (insertItems items col))
        (settleEach config now orders name n items col) ↔
      Commutes config now ephemeral (items.map Prod.fst) col := by
  cases hmax : config.maxEntriesPerCollection with
  | none =>
      simp only [settleEach_unbounded hmax, settle, excessKeys, hmax,
        Commutes]
      exact iff_of_true (fun _ => rfl) trivial
  | some max =>
      cases items with
      | nil =>
          simp only [List.map_nil, Commutes, hmax]
          exact sameValues_settle_iff hmax order
      | cons item rest =>
          simp only [List.map_cons, Commutes, hmax]
          by_cases hephemeral : ephemeral
          · have hexpired : ∀ other ∈ item :: rest,
                other.2.isExpired now = true := fun other hother =>
              (hlife other hother).mpr hephemeral
            have hkeys : freshKeys now col \ itemKeys (item :: rest) =
                (freshKeys now col \ {item.1}) \ itemKeys rest := by
              rw [itemKeys_cons, Finset.insert_eq, sdiff_sdiff_left]
              rfl
            rw [imp_iff_right hephemeral, ← itemKeys, ← topKeys_sdiff_iff,
              @sameValues_parts_iff col _ _ _ _
                ((topKeys_subset max _).trans
                  (Finset.sdiff_subset.trans freshKeys_subset))
                (Finset.sdiff_subset.trans ((topKeys_subset max _).trans
                  (Finset.sdiff_subset.trans freshKeys_subset)))
                (fun key => lookup_settle_expired hmax hexpired order)
                (fun key => lookup_settleEach_expired hmax hexpired n), hkeys]
            exact eq_comm
          · have hfresh : ∀ other ∈ item :: rest,
                other.2.isExpired now = false := fun other hother =>
              Bool.eq_false_iff.mpr (mt (hlife other hother).mp hephemeral)
            refine iff_of_true (fun key => ?_) fun h => absurd h hephemeral
            rw [lookup_settleEach hmax hfresh (List.cons_ne_nil item rest)
              order]

end Insertions

/-! ## The recorded changes -/

section Changes

variable (config : MemoryConfig) (now : DateTime) (orders : Nat → Order)
  (name : String)

def foldChange (keys : Finset String) (mutation : Mutation) : Finset String :=
  if mutation.collection = name then
    match mutation.operation with
    | .put => insert mutation.key keys
    | .delete => keys.erase mutation.key
  else keys

def foldChanges (keys : Finset String) (mutations : List Mutation) :
    Finset String :=
  mutations.foldl (foldChange name) keys

def puts (keys : List String) : List Mutation :=
  keys.map fun key => ⟨name, key, .put⟩

def changesEach : Nat → List (String × RevisionedEntry) → Collection →
    List Mutation
  | _, [], _ => []
  | n, item :: items, col =>
      let inserted := col.insert item.1 item.2
      puts name [item.1] ++
        deletions name (excessKeys config now (orders n) name inserted) ++
        changesEach (n + 1) items (settle config now (orders n) name inserted)

/-- The changes account for what becomes of the keys: whatever they are applied
to, the keys that are written or disappear end up as they do. -/
structure Accounts (written before after : Finset String)
    (mutations : List Mutation) : Prop where
  grown : after ⊆ before ∪ written
  fold : ∀ keys key, key ∈ foldChanges name keys mutations ↔
    if key ∈ written ∨ (key ∈ before ∧ key ∉ after) then key ∈ after
    else key ∈ keys

variable {config now orders name} {items : List (String × RevisionedEntry)}
  {written written' before middle after : Finset String}
  {mutations mutations' : List Mutation} {col : Collection}

theorem mem_foldChanges_puts (keys : List String) (start : Finset String)
    (key : String) :
    key ∈ foldChanges name start (puts name keys) ↔
      key ∈ keys ∨ key ∈ start := by
  induction keys generalizing start with
  | nil => simp [puts, foldChanges]
  | cons first keys ih =>
      rw [puts, List.map_cons, foldChanges, List.foldl_cons, ← foldChanges,
        ← puts, ih, foldChange, if_pos rfl, Finset.mem_insert, List.mem_cons]
      tauto

theorem mem_foldChanges_deletions (keys : List String) (start : Finset String)
    (key : String) :
    key ∈ foldChanges name start (deletions name keys) ↔
      key ∈ start ∧ key ∉ keys := by
  induction keys generalizing start with
  | nil => simp [deletions, foldChanges]
  | cons first keys ih =>
      rw [deletions, List.map_cons, foldChanges, List.foldl_cons,
        ← foldChanges, ← deletions, ih, foldChange, if_pos rfl,
        Finset.mem_erase, List.mem_cons]
      tauto

theorem foldChanges_append (start : Finset String) :
    foldChanges name start (mutations ++ mutations') =
      foldChanges name (foldChanges name start mutations) mutations' :=
  List.foldl_append

theorem Accounts.nothing (keys : Finset String) :
    Accounts name ∅ keys keys [] where
  grown := Finset.subset_union_left
  fold start key := by
    rw [if_neg]
    · rfl
    · rintro (h | h)
      · exact absurd h (Finset.notMem_empty key)
      · exact h.2 h.1

theorem Accounts.append (h : Accounts name written before middle mutations)
    (h' : Accounts name written' middle after mutations') :
    Accounts name (written ∪ written') before after
      (mutations ++ mutations') where
  grown key hkey := by
    have hmiddle := h'.grown hkey
    have hbefore := @h.grown key
    simp only [Finset.mem_union] at hmiddle hbefore ⊢
    tauto
  fold start key := by
    have hmiddle := @h'.grown key
    have hbefore := @h.grown key
    simp only [Finset.mem_union] at hmiddle hbefore
    rw [foldChanges_append, h'.fold]
    simp only [h.fold, Finset.mem_union]
    split_ifs <;> tauto

theorem accounts_settle (keys : List String) (order : Order)
    (hkeys : col.keys.toFinset = before ∪ keys.toFinset) :
    Accounts name keys.toFinset before
      (settle config now order name col).keys.toFinset
      (puts name keys ++
        deletions name (excessKeys config now order name col)) := by
  have hthere : ∀ key, key ∈ col.keys ↔ key ∈ before ∨ key ∈ keys := by
    intro key
    rw [← List.mem_toFinset, hkeys, Finset.mem_union, List.mem_toFinset]
  have hsettled : ∀ key, key ∈ (settle config now order name col).keys ↔
      (key ∈ before ∨ key ∈ keys) ∧
        key ∉ excessKeys config now order name col := by
    intro key
    rw [settle, KeyedMap.mem_keys_eraseAll, hthere]
  constructor
  · intro key hkey
    rw [List.mem_toFinset, hsettled] at hkey
    simpa using hkey.1
  · intro start key
    have hexcess : key ∈ excessKeys config now order name col →
        key ∈ before ∨ key ∈ keys :=
      fun h => (hthere key).mp (mem_excessKeys.mp h).1
    rw [foldChanges_append, mem_foldChanges_deletions, mem_foldChanges_puts]
    simp only [List.mem_toFinset, hsettled]
    split_ifs <;> tauto

theorem keys_insertItems (items : List (String × RevisionedEntry))
    (col : Collection) :
    (insertItems items col).keys.toFinset =
      col.keys.toFinset ∪ itemKeys items := by
  ext key
  rw [List.mem_toFinset, KeyedMap.mem_keys_iff, Finset.mem_union,
    List.mem_toFinset, KeyedMap.mem_keys_iff]
  by_cases hkey : key ∈ itemKeys items
  · obtain ⟨item, -, hlookup⟩ := lookup_insertItems_of_mem hkey
    exact iff_of_true ⟨item.2, hlookup col⟩ (.inr hkey)
  · rw [lookup_insertItems_of_notMem hkey, or_iff_left hkey]

theorem accounts_changesEach (n : Nat) :
    Accounts name (itemKeys items) col.keys.toFinset
      (settleEach config now orders name n items col).keys.toFinset
      (changesEach config now orders name n items col) := by
  induction items generalizing n col with
  | nil => exact .nothing _
  | cons item items ih =>
      have hone := @accounts_settle config now name col.keys.toFinset
        (col.insert item.1 item.2) [item.1] (orders n)
        (keys_insertItems [item] col)
      have hboth := hone.append (ih (n + 1))
      rw [itemKeys_cons, Finset.insert_eq]
      exact hboth

theorem Accounts.foldChanges_eq
    (h : Accounts name written before after mutations)
    (h' : Accounts name written before after mutations')
    (start : Finset String) :
    foldChanges name start mutations = foldChanges name start mutations' := by
  ext key
  rw [h.fold, h'.fold]

end Changes

end OpenKeyV.Memory
