import OpenKeyV.Redis.Contents

/-!
# Listing and destroying one collection

`keys` and `destroy_collection` read the pages of a `SCAN` with the pattern of
the collection.  A scan returns each matching key that is there all the time
at least once, in any batches.
-/

namespace OpenKeyV.Redis

open Library Program

def pageKeys (keyspace : Subspace) (collection : String)
    (page : List String) : List String :=
  page.filterMap (stripPrefix (keyspace.frame ++ collectionFrame collection))

def logicalKeys (s : Server) (keyspace : Subspace) (collection : String) :
    List String :=
  pageKeys keyspace collection
    (s.objects.keys.filter fun identity => (s.find identity).isSome)

section Pages

variable {keyspace : Subspace} {collection : String}

theorem stripPrefix_identity {identity key : String} :
    stripPrefix (keyspace.frame ++ collectionFrame collection) identity =
        some key ↔
      identity = subspaceCompoundKey keyspace collection key := by
  rw [stripPrefix_eq_some]
  simp only [subspaceCompoundKey, Subspace.scope, compoundKey,
    String.append_assoc]

theorem mem_pageKeys {page : List String} {key : String} :
    key ∈ pageKeys keyspace collection page ↔
      subspaceCompoundKey keyspace collection key ∈ page := by
  simp only [pageKeys, List.mem_filterMap, stripPrefix_identity]
  constructor
  · rintro ⟨identity, hmem, rfl⟩
    exact hmem
  · exact fun h => ⟨_, h, rfl⟩

theorem scanMatch_eq (page : List String) :
    scanMatch (collectionScanPattern keyspace collection) page =
      (pageKeys keyspace collection page).map
        (subspaceCompoundKey keyspace collection) := by
  induction page with
  | nil => rfl
  | cons identity page ih =>
      simp only [scanMatch, pageKeys] at ih ⊢
      cases hkey : stripPrefix (keyspace.frame ++ collectionFrame collection)
          identity with
      | none =>
          have hmatch : ¬ Glob.globMatch
              (collectionScanPattern keyspace collection) identity = true := by
            intro hmatch
            obtain ⟨key, hidentity⟩ := matches_collection_iff.mp hmatch
            rw [stripPrefix_identity.mpr hidentity] at hkey
            cases hkey
          rw [List.filter_cons_of_neg hmatch, List.filterMap_cons_none hkey, ih]
      | some key =>
          have hidentity := stripPrefix_identity.mp hkey
          rw [List.filter_cons_of_pos (matches_collection_iff.mpr
            ⟨key, hidentity⟩), List.filterMap_cons_some hkey, List.map_cons, ih,
            ← hidentity]

theorem mem_logicalKeys {s : Server} {key : String} :
    key ∈ logicalKeys s keyspace collection ↔
      (s.entry keyspace collection key).isSome = true := by
  rw [logicalKeys, mem_pageKeys, List.mem_filter]
  refine ⟨And.right, fun h => ⟨?_, h⟩⟩
  obtain ⟨slot, hslot⟩ := Option.isSome_iff_exists.mp h
  have hlookup := (Option.filter_eq_some_iff.mp hslot).1
  exact KeyedMap.mem_keys_iff.mpr ⟨slot, hlookup⟩

theorem nodup_logicalKeys (s : Server) :
    (logicalKeys s keyspace collection).Nodup := by
  refine List.Nodup.filterMap ?_ (s.objects.nodupKeys.filter _)
  intro identity identity' key hkey hkey'
  rw [stripPrefix_identity.mp hkey, stripPrefix_identity.mp hkey']

end Pages

/-- The pages of a full iteration over a database that does not change. -/
def Scans (s : Server) (pattern : String) (pages : List (List String)) :
    Prop :=
  (∀ page ∈ pages, ∀ identity ∈ page, (s.find identity).isSome = true) ∧
    ∀ identity, (s.find identity).isSome = true →
      Glob.globMatch pattern identity = true → ∃ page ∈ pages, identity ∈ page

def ListsKeys (config : RedisConfig) (s : Server) (collection : Option String)
    (limit : Option Nat) (pages : List (List String)) : Prop :=
  ∃ names, RedisStore.keys config collection limit pages = .ok names ∧
    names.Nodup ∧
    (∀ name ∈ names, name ∈ logicalKeys s config.keyspace
      (config.collectionName collection)) ∧
    names.length = min (pageLimit limit) (logicalKeys s config.keyspace
      (config.collectionName collection)).length

section Listing

variable {config : RedisConfig} {collection : String} {limit : Nat}

theorem collectKeys_page (hsize : collection.utf8ByteSize < 2 ^ 64)
    (keys : List String) :
    ∀ found : List String, found.Nodup → found.length < limit →
      ∃ names full, RedisStore.collectKeys config collection limit
          (keys.map (subspaceCompoundKey config.keyspace collection)) found =
          .ok (names, full) ∧
        names.Nodup ∧ (∀ name ∈ names, name ∈ found ∨ name ∈ keys) ∧
        (full = true → names.length = limit) ∧
        (full = false → names.length < limit ∧
          ∀ name, name ∈ found ∨ name ∈ keys → name ∈ names) := by
  induction keys with
  | nil =>
      intro found hnodup hroom
      exact ⟨found, false, rfl, hnodup, fun _ h => .inl h,
        fun h => (Bool.noConfusion h), fun _ => ⟨hroom, fun name h =>
          h.elim id fun h => (List.not_mem_nil h).elim⟩⟩
  | cons key keys ih =>
      intro found hnodup hroom
      have hstep : RedisStore.collectKeys config collection limit
          ((key :: keys).map
            (subspaceCompoundKey config.keyspace collection)) found =
          if (found.insert key).length = limit then
            .ok (found.insert key, true)
          else RedisStore.collectKeys config collection limit
            (keys.map (subspaceCompoundKey config.keyspace collection))
            (found.insert key) := by
        simp only [List.map_cons, RedisStore.collectKeys]
        rw [subspaceCompoundKey, Subspace.scope, stripPrefix_append]
        simp only [decompoundKey_compoundKey, if_pos hsize, bind, Except.bind,
          ne_eq, not_true_eq_false, if_false]
        rfl
      have hinsert : (found.insert key).Nodup := hnodup.insert
      rw [hstep]
      split
      · rename_i hfull
        refine ⟨_, true, rfl, hinsert, fun name h => ?_, fun _ => hfull,
          fun h => (Bool.noConfusion h)⟩
        rcases List.mem_insert_iff.mp h with rfl | h
        · exact .inr (List.mem_cons_self ..)
        · exact .inl h
      · rename_i hfull
        have hlen : (found.insert key).length ≤ found.length + 1 := by
          by_cases hmem : key ∈ found
          · rw [List.length_insert_of_mem hmem]
            omega
          · rw [List.length_insert_of_not_mem hmem]
        obtain ⟨names, full, heval, hnames, honly, hstop, hall⟩ :=
          ih (found.insert key) hinsert (by omega)
        refine ⟨names, full, heval, hnames, fun name h => ?_, hstop,
          fun hfull => ⟨(hall hfull).1, fun name h => (hall hfull).2 name ?_⟩⟩
        · rcases honly name h with h | h
          · rcases List.mem_insert_iff.mp h with rfl | h
            · exact .inr (List.mem_cons_self ..)
            · exact .inl h
          · exact .inr (List.mem_cons_of_mem _ h)
        · rcases h with h | h
          · exact .inl (List.mem_insert_of_mem h)
          · rcases List.mem_cons.mp h with rfl | h
            · exact .inl List.mem_insert_self
            · exact .inr h

theorem keysLoop_pages (hsize : collection.utf8ByteSize < 2 ^ 64)
    (pages : List (List String)) :
    ∀ found : List String, found.Nodup → found.length < limit →
      ∃ names, RedisStore.keysLoop config collection limit pages found =
          .ok names ∧ names.Nodup ∧
        (∀ name ∈ names, name ∈ found ∨ ∃ page ∈ pages,
          name ∈ pageKeys config.keyspace collection page) ∧
        (names.length = limit ∨ names.length < limit ∧
          ∀ name, (name ∈ found ∨ ∃ page ∈ pages,
            name ∈ pageKeys config.keyspace collection page) →
              name ∈ names) := by
  induction pages with
  | nil =>
      intro found hnodup hroom
      exact ⟨found, rfl, hnodup, fun _ h => .inl h, .inr ⟨hroom,
        fun name h => h.elim id fun ⟨_, h, _⟩ => (List.not_mem_nil h).elim⟩⟩
  | cons page pages ih =>
      intro found hnodup hroom
      obtain ⟨names, full, heval, hnames, honly, hstop, hall⟩ :=
        @collectKeys_page config collection limit hsize
          (pageKeys config.keyspace collection page) found hnodup hroom
      have hpage : ∀ name, name ∈ found ∨
          name ∈ pageKeys config.keyspace collection page →
            name ∈ found ∨ ∃ page' ∈ page :: pages,
              name ∈ pageKeys config.keyspace collection page' :=
        fun name h => h.imp id fun h => ⟨page, List.mem_cons_self .., h⟩
      simp only [RedisStore.keysLoop, scanMatch_eq, heval, bind, Except.bind]
      cases full with
      | true =>
          exact ⟨names, rfl, hnames, fun name h => hpage name (honly name h),
            .inl (hstop rfl)⟩
      | false =>
          obtain ⟨hless, hcovers⟩ := hall rfl
          obtain ⟨names', heval', hnames', honly', hcount⟩ :=
            ih names hnames hless
          refine ⟨names', heval', hnames', fun name h => ?_,
            hcount.imp id fun ⟨hless', hcovers'⟩ => ⟨hless', fun name h =>
              hcovers' name ?_⟩⟩
          · rcases honly' name h with h | ⟨page', hmem, h⟩
            · exact hpage name (honly name h)
            · exact .inr ⟨page', List.mem_cons_of_mem _ hmem, h⟩
          · rcases h with h | ⟨page', hmem, h⟩
            · exact .inl (hcovers name (.inl h))
            · rcases List.mem_cons.mp hmem with rfl | hmem
              · exact .inl (hcovers name (.inr h))
              · exact .inr ⟨page', hmem, h⟩

/-- Whatever the server holds, `keys` is exact. -/
theorem keys_exact {s : Server} {collection : Option String}
    (hsize : (config.collectionName collection).utf8ByteSize < 2 ^ 64)
    (limit : Option Nat) {pages : List (List String)}
    (hscans : Scans s (collectionScanPattern config.keyspace
      (config.collectionName collection)) pages) :
    ListsKeys config s collection limit pages := by
  have hscanned : ∀ name, (∃ page ∈ pages, name ∈ pageKeys config.keyspace
      (config.collectionName collection) page) ↔
        name ∈ logicalKeys s config.keyspace
          (config.collectionName collection) := by
    intro name
    rw [mem_logicalKeys]
    constructor
    · rintro ⟨page, hpage, hname⟩
      exact hscans.1 page hpage _ (mem_pageKeys.mp hname)
    · intro hsome
      obtain ⟨page, hpage, hmem⟩ := hscans.2 _ hsome
        (matches_collection_iff.mpr ⟨name, rfl⟩)
      exact ⟨page, hpage, mem_pageKeys.mpr hmem⟩
  unfold ListsKeys RedisStore.keys
  by_cases hzero : pageLimit limit = 0
  · refine ⟨[], if_pos hzero, .nil, fun _ h => (List.not_mem_nil h).elim, ?_⟩
    rw [hzero, Nat.zero_min]
    rfl
  · obtain ⟨names, heval, hnodup, honly, hcount⟩ :=
      @keysLoop_pages config _ (pageLimit limit) hsize pages [] .nil
        (Nat.pos_of_ne_zero hzero)
    have hsub : names ⊆ logicalKeys s config.keyspace
        (config.collectionName collection) := fun name h =>
      (hscanned name).mp ((honly name h).resolve_left List.not_mem_nil)
    have hle := (hnodup.subperm hsub).length_le
    refine ⟨names, (if_neg hzero).trans heval, hnodup, hsub, ?_⟩
    rcases hcount with hfull | ⟨hless, hcovers⟩
    · omega
    · have hge := ((nodup_logicalKeys s).subperm fun name h =>
        hcovers name (.inr ((hscanned name).mpr h))).length_le
      omega

end Listing

end OpenKeyV.Redis
