import OpenKeyV.RocksDB.Enumeration

/-!
# Limits of merged enumerations

Each of the loops lets the name that it meets first through, whatever the
limit.  A limit of zero is honoured where there is nothing to list, and every
other limit everywhere.
-/

namespace OpenKeyV

open Memory RocksDB Wrapper

theorem resolvedKeys_honours (routes : Routes) (collection : Option String)
    (limit : Option Nat) :
    (∃ error, resolve routes collection = .error error ∧
        resolvedKeys routes collection limit = .error error) ∨
      ∃ store, resolve routes collection = .ok store ∧
        Honours limit (store.keySet collection)
          ((store.keySet collection).card ≤ pageLimit)
          (resolvedKeys routes collection limit) := by
  cases hresolve : resolve routes collection with
  | error error =>
      exact .inl ⟨error, rfl, by rw [resolvedKeys, hresolve]; rfl⟩
  | ok store =>
      refine .inr ⟨store, rfl, ?_⟩
      rw [resolvedKeys, hresolve]
      exact Page.honours (store.keys_page collection limit)

/-- Merged enumerations honour their limit exactly if it is not zero or there is
nothing to list. -/
theorem merged_enumerations_honour_limit_iff (limit : Option Nat)
    (collection : Option String) (stores : List Lister) (routes : Routes)
    (cache primary : Lister) (utf8Error : Bytes → String) (order : SetOrder)
    (config : RocksDBConfig) (store : StoreDatabase) :
    (Honours limit (foundIn (·.keySet collection) stores)
        (AllFit (·.keySet collection) stores)
        (routedKeys stores collection limit) ↔
      (limit = some 0 → foundIn (·.keySet collection) stores = ∅)) ∧
    (Honours limit (foundIn (·.collectionSet) stores)
        (AllFit (·.collectionSet) stores)
        (routedCollections stores limit) ↔
      (limit = some 0 → foundIn (·.collectionSet) stores = ∅)) ∧
    ((∃ error, resolve routes collection = .error error ∧
        resolvedKeys routes collection limit = .error error) ∨
      ∃ store, resolve routes collection = .ok store ∧
        Honours limit (store.keySet collection)
          ((store.keySet collection).card ≤ pageLimit)
          (resolvedKeys routes collection limit)) ∧
    (Honours limit (foundBehind routes)
        (AllFit (·.collectionSet) (routes.map Prod.snd))
        (resolvedCollections routes limit) ↔
      (limit = some 0 → foundBehind routes = ∅)) ∧
    (Honours limit (foundIn (·.keySet collection) [cache, primary])
        (AllFit (·.keySet collection) [cache, primary])
        (cachedKeys cache primary collection limit) ↔
      (limit = some 0 → foundIn (·.keySet collection) [cache, primary] = ∅)) ∧
    (Honours limit (foundIn (·.collectionSet) [cache, primary])
        (AllFit (·.collectionSet) [cache, primary])
        (cachedCollections cache primary limit) ↔
      (limit = some 0 → foundIn (·.collectionSet) [cache, primary] = ∅)) ∧
    (Honours limit (keySet store.db (config.collectionName collection))
        ((keySet store.db (config.collectionName collection)).card ≤ pageLimit)
        (RocksDB.keys utf8Error config collection limit store.db) ↔
      (limit = some 0 →
        keySet store.db (config.collectionName collection) = ∅)) ∧
    (Honours limit (collectionSet store.db)
        ((collectionSet store.db).card ≤ pageLimit)
        (RocksDB.collections utf8Error order limit store.db) ↔
      (limit = some 0 → collectionSet store.db = ∅)) := by
  refine ⟨?_, ?_, resolvedKeys_honours routes collection limit,
    mergeRoutes_honours_iff limit routes, ?_, ?_,
    keys_honours_iff utf8Error config store collection limit,
    collections_honours_iff utf8Error order store limit⟩
  · exact mergeStores_honours_iff limit stores fun store =>
      store.keys_page collection none
  · exact mergeStores_honours_iff limit stores fun store =>
      store.collections_page none
  · rw [cachedKeys, mergeBoth_eq limit (cache.keys_page collection none)
      (primary.keys_page collection none)]
    exact mergeStores_honours_iff limit [cache, primary] fun store =>
      store.keys_page collection none
  · rw [cachedCollections, mergeBoth_eq limit (cache.collections_page none)
      (primary.collections_page none)]
    exact mergeStores_honours_iff limit [cache, primary] fun store =>
      store.collections_page none

def oneName (name : String) : Lister where
  keys _ limit := .ok ([name].take (pageLen limit))
  collections limit := .ok ([name].take (pageLen limit))
  keySet _ := {name}
  collectionSet := {name}
  keys_page _ limit := ⟨_, rfl, (List.nodup_singleton name).sublist
    (List.take_sublist ..), fun other h => by
      simpa using List.mem_of_mem_take (List.mem_toFinset.mp h),
    List.length_take⟩
  collections_page limit := ⟨_, rfl, (List.nodup_singleton name).sublist
    (List.take_sublist ..), fun other h => by
      simpa using List.mem_of_mem_take (List.mem_toFinset.mp h),
    List.length_take⟩

def oneKeyStore : StoreDatabase :=
  ⟨oneKey, written_empty.put "k" (by decide) _⟩

/-- Asked for no names, the wrappers and the store list one each. -/
theorem limit_zero_lists_a_name :
    let found := foundIn (·.collectionSet) [oneName "c"]
    let keysFound := keySet oneKey "default_collection"
    (routedCollections [oneName "c"] (some 0) = .ok ["c"] ∧
      ∀ fits, ¬ Honours (some 0) found fits
        (routedCollections [oneName "c"] (some 0))) ∧
    RocksDB.keys (fun _ => "") plainConfig none (some 0) oneKeyStore.db =
        .ok ["k"] ∧
      ∀ fits, ¬ Honours (some 0) keysFound fits
        (RocksDB.keys (fun _ => "") plainConfig none (some 0)
          oneKeyStore.db) := by
  have hrouted : routedCollections [oneName "c"] (some 0) = .ok ["c"] := rfl
  have hkeys : RocksDB.keys (fun _ => "") plainConfig none (some 0)
      oneKeyStore.db = .ok ["k"] := by
    decide +kernel
  refine ⟨⟨hrouted, fun fits h => ?_⟩, hkeys, fun fits h => ?_⟩
  · rw [hrouted] at h
    exact absurd (eq_nil_of_honours h) (by decide)
  · rw [hkeys] at h
    exact absurd (eq_nil_of_honours h) (by decide)

end OpenKeyV
