import OpenKeyV.Enumeration
import OpenKeyV.Wrapper.Routing

/-!
# Enumerations over several stores

`RoutingWrapper`, `CollectionRoutingWrapper` and `PassthroughCacheWrapper` ask
their stores for one page each and merge what they get.  Whatever the loop
looks like, it goes through the names of all pages in a row: it keeps the first
occurrences, up to the limit, but never less than one.
-/

namespace OpenKeyV.Wrapper

open Memory RoutingWrapper

/-! ## The loops -/

def mergeAnswers (limit : Option Nat) : List String → List Answer → Answer
  | merged, [] => .ok merged
  | _, .error error :: _ => .error error
  | merged, .ok names :: answers =>
      match mergeNames limit merged names with
      | (merged, true) => .ok merged
      | (merged, false) => mergeAnswers limit merged answers

def routedKeys (stores : List Lister) (collection : Option String)
    (limit : Option Nat) : Answer :=
  mergeAnswers limit [] (stores.map fun store => store.keys collection none)

def routedCollections (stores : List Lister) (limit : Option Nat) : Answer :=
  mergeAnswers limit [] (stores.map fun store => store.collections none)

abbrev Routes := List (String × Lister)

def resolve (routes : Routes) : Option String → Except Error Lister
  | none => .error (.invalidOperation
      "collection routing requires an explicit collection")
  | some collection =>
      match routes.lookup collection with
      | some store => .ok store
      | none => .error (.invalidOperation
          ("no store configured for collection " ++ collection))

def resolvedKeys (routes : Routes) (collection : Option String)
    (limit : Option Nat) : Answer := do
  let store ← resolve routes collection
  store.keys collection limit

def mergeRoutes (limit : Option Nat) : List String → Routes → Answer
  | merged, [] => .ok merged
  | merged, (name, store) :: routes =>
      match mergeNames limit merged [name] with
      | (merged, true) => .ok merged
      | (merged, false) =>
          match store.collections none with
          | .error error => .error error
          | .ok names =>
              match mergeNames limit merged names with
              | (merged, true) => .ok merged
              | (merged, false) => mergeRoutes limit merged routes

def resolvedCollections (routes : Routes) (limit : Option Nat) : Answer :=
  mergeRoutes limit [] routes

def cachedKeys (cache primary : Lister) (collection : Option String)
    (limit : Option Nat) : Answer := do
  let cache ← cache.keys collection none
  let primary ← primary.keys collection none
  return (mergeNames limit [] (cache ++ primary)).1

def cachedCollections (cache primary : Lister) (limit : Option Nat) :
    Answer := do
  let cache ← cache.collections none
  let primary ← primary.collections none
  return (mergeNames limit [] (cache ++ primary)).1

/-! ## All names in a row -/

section Merge

variable {limit : Option Nat} {merged names : List String}

theorem mergeNames_append (limit : Option Nat)
    (merged names more : List String) :
    mergeNames limit merged (names ++ more) =
      match mergeNames limit merged names with
      | (merged, true) => (merged, true)
      | (merged, false) => mergeNames limit merged more := by
  induction names generalizing merged with
  | nil => rfl
  | cons name names ih =>
      rw [List.cons_append, mergeNames, mergeNames]
      split
      · exact ih merged
      · cases limit with
        | none => exact ih _
        | some limit =>
            simp only
            split
            · rfl
            · exact ih _

theorem mergeAnswers_ok (limit : Option Nat) (merged : List String)
    (pages : List (List String)) :
    mergeAnswers limit merged (pages.map .ok) =
      .ok (mergeNames limit merged pages.flatten).1 := by
  induction pages generalizing merged with
  | nil => rfl
  | cons page pages ih =>
      rw [List.map_cons, mergeAnswers, List.flatten_cons, mergeNames_append]
      rcases mergeNames limit merged page with ⟨merged, _ | _⟩
      · exact ih merged
      · rfl

def firsts : List String → List String → List String
  | _, [] => []
  | seen, name :: names =>
      if name ∈ seen then firsts seen names
      else name :: firsts (seen ++ [name]) names

theorem mem_firsts {seen : List String} {name : String} :
    name ∈ firsts seen names ↔ name ∈ names ∧ name ∉ seen := by
  induction names generalizing seen with
  | nil => simp [firsts]
  | cons head names ih =>
      rw [firsts]
      split
      · rename_i hseen
        rw [ih, List.mem_cons]
        constructor
        · exact fun ⟨hmem, hnew⟩ => ⟨.inr hmem, hnew⟩
        · rintro ⟨rfl | hmem, hnew⟩
          · exact absurd hseen hnew
          · exact ⟨hmem, hnew⟩
      · rename_i hnew
        rw [List.mem_cons, ih, List.mem_cons, List.mem_append,
          List.mem_singleton]
        by_cases hname : name = head
        · simp [hname, hnew]
        · simp [hname]

theorem nodup_firsts (seen names : List String) :
    (firsts seen names).Nodup := by
  induction names generalizing seen with
  | nil => exact .nil
  | cons name names ih =>
      rw [firsts]
      split
      · exact ih seen
      · refine List.nodup_cons.mpr ⟨fun hmem => ?_, ih _⟩
        exact (mem_firsts.mp hmem).2 (by simp)

def pushed (limit : Option Nat) (names : List String) : List String :=
  limit.elim names fun n => names.take (max n 1)

theorem mergeNames_eq
    (h : ∀ n, limit = some n → merged.length < max n 1) :
    (mergeNames limit merged names).1 =
      pushed limit (merged ++ firsts merged names) := by
  induction names generalizing merged with
  | nil =>
      rw [mergeNames, firsts, List.append_nil]
      cases limit with
      | none => rfl
      | some n => exact (List.take_of_length_le (Nat.le_of_lt (h n rfl))).symm
  | cons name names ih =>
      rw [mergeNames, firsts]
      split
      · exact ih h
      · have happend : merged ++ name :: firsts (merged ++ [name]) names =
            merged ++ [name] ++ firsts (merged ++ [name]) names := by simp
        rw [happend]
        cases limit with
        | none => exact ih fun n hn => by cases hn
        | some n =>
            have hbelow := h n rfl
            have hlength : (merged ++ [name]).length = merged.length + 1 := by
              simp
            simp only
            split
            · have hfull : (merged ++ [name]).length = max n 1 := by omega
              rw [pushed, Option.elim_some, ← hfull, List.take_left]
            · apply ih
              intro m hm
              cases hm
              omega

theorem mergeNames_nil (limit : Option Nat) (names : List String) :
    (mergeNames limit [] names).1 = pushed limit (firsts [] names) := by
  rw [mergeNames_eq, List.nil_append]
  intro n _
  simp

end Merge

/-! ## Limits -/

section Limits

/-- The loops honour every limit but that of zero, and that one where there is
nothing to list. -/
theorem honours_pushed_iff {limit : Option Nat} {found : Finset String}
    {fits : Prop} {distinct : List String} (hnodup : distinct.Nodup)
    (hsub : distinct.toFinset ⊆ found)
    (hfits : fits → distinct.toFinset = found)
    (hsome : found ≠ ∅ → distinct ≠ []) :
    Honours limit found fits (.ok (pushed limit distinct)) ↔
      (limit = some 0 → found = ∅) := by
  have hcard : fits → distinct.length = found.card := fun h => by
    rw [← hfits h, List.toFinset_card_of_nodup hnodup]
  have hknown : ∀ name ∈ distinct, name ∈ found := fun name hname =>
    hsub (List.mem_toFinset.mpr hname)
  cases limit with
  | none =>
      refine iff_of_true ⟨distinct, rfl, hnodup, fun n hn => ?_, hknown, hcard⟩
        fun h => ?_
      · cases hn
      · cases h
  | some n =>
      have htake : ∀ name ∈ distinct.take (max n 1), name ∈ found :=
        fun name hname => hknown name (List.mem_of_mem_take hname)
      cases n with
      | zero =>
          rw [imp_iff_right rfl]
          constructor
          · intro h
            by_contra hne
            have hnil := eq_nil_of_honours h
            obtain ⟨name, names, rfl⟩ :=
              List.exists_cons_of_ne_nil (hsome hne)
            simp [pushed] at hnil
          · rintro rfl
            obtain rfl : distinct = [] := List.eq_nil_iff_forall_not_mem.mpr
              fun name hname => Finset.notMem_empty name (hknown name hname)
            exact honours_nil (some 0) fits
      | succ n =>
          refine iff_of_true ⟨_, rfl, hnodup.sublist (List.take_sublist ..),
            fun m hm => ?_, htake, fun h => ?_⟩ fun h => ?_
          · cases hm
            rw [pushed, Option.elim_some, List.length_take]
            omega
          · rw [pushed, Option.elim_some, List.length_take, hcard h, within,
              Option.elim_some]
            omega
          · cases h

theorem honours_pushedPage_iff {limit : Option Nat} {found : Finset String}
    {distinct : List String} (hnodup : distinct.Nodup)
    (hwhole : distinct.toFinset = found) :
    Honours limit found (found.card ≤ pageLimit)
        (.ok (pushed (some (pageLen limit)) distinct)) ↔
      (limit = some 0 → found = ∅) := by
  by_cases hzero : limit = some 0
  · subst hzero
    refine honours_pushed_iff hnodup hwhole.subset (fun _ => hwhole) ?_
    rintro hne rfl
    exact hne (hwhole ▸ List.toFinset_nil)
  · refine iff_of_true (Page.honours ?_) fun h => absurd h hzero
    have hpage : 1 ≤ pageLen limit := by
      cases limit with
      | none => decide
      | some n =>
          have hn : n ≠ 0 := fun h => hzero (congrArg some h)
          simp only [pageLen, Option.getD_some, pageLimit]
          omega
    refine ⟨_, rfl, hnodup.sublist (List.take_sublist ..), ?_, ?_⟩
    · intro name hname
      rw [List.mem_toFinset] at hname
      rw [← hwhole, List.mem_toFinset]
      exact List.mem_of_mem_take hname
    · rw [pushed, Option.elim_some, List.length_take, ← hwhole,
        List.toFinset_card_of_nodup hnodup, Nat.max_eq_left hpage]

abbrev Sources := List (Finset String × Answer)

def Sources.found (sources : Sources) : Finset String :=
  union (sources.map Prod.fst)

def Sources.Fit (sources : Sources) : Prop :=
  ∀ source ∈ sources, source.1.card ≤ pageLimit

theorem exists_pages {sources : Sources}
    (h : ∀ source ∈ sources, Page source.1 none source.2) :
    ∃ pages : List (List String), sources.map Prod.snd = pages.map .ok := by
  induction sources with
  | nil => exact ⟨[], rfl⟩
  | cons source sources ih =>
      obtain ⟨⟨page, hpage, -⟩, hrest⟩ := List.forall_mem_cons.mp h
      obtain ⟨pages, hpages⟩ := ih hrest
      exact ⟨page :: pages, by rw [List.map_cons, List.map_cons, hpage, hpages]⟩

theorem mergeAnswers_honours_iff (limit : Option Nat) {sources : Sources}
    (h : ∀ source ∈ sources, Page source.1 none source.2) :
    Honours limit sources.found sources.Fit
        (mergeAnswers limit [] (sources.map Prod.snd)) ↔
      (limit = some 0 → sources.found = ∅) := by
  obtain ⟨pages, hpages⟩ := exists_pages h
  rw [hpages, mergeAnswers_ok, mergeNames_nil]
  have hmem : ∀ name, name ∈ firsts [] pages.flatten ↔
      ∃ page ∈ pages, name ∈ page := fun name => by
    rw [mem_firsts, List.mem_flatten]
    simp
  -- Every page has a source behind it, and every source has a page.
  have hsource : ∀ page ∈ pages, ∃ source ∈ sources,
      page.toFinset ⊆ source.1 := by
    intro page hin
    have hanswer : Except.ok page ∈ sources.map Prod.snd :=
      hpages ▸ List.mem_map_of_mem hin
    obtain ⟨source, hsource, heq⟩ := List.mem_map.mp hanswer
    obtain ⟨_, hok, -, hsub, -⟩ := heq ▸ h source hsource
    cases hok
    exact ⟨source, hsource, hsub⟩
  have hpage : ∀ source ∈ sources, ∃ page ∈ pages, page.Nodup ∧
      page.toFinset ⊆ source.1 ∧
      page.length = min pageLimit source.1.card := by
    intro source hsource
    have hanswer : source.2 ∈ pages.map (@Except.ok Error _) :=
      hpages ▸ List.mem_map_of_mem hsource
    obtain ⟨page, hin, heq⟩ := List.mem_map.mp hanswer
    obtain ⟨_, hok, hfacts⟩ := h source hsource
    obtain rfl := Except.ok.inj (heq.trans hok)
    exact ⟨page, hin, hfacts⟩
  apply honours_pushed_iff (nodup_firsts [] _)
  · intro name hname
    obtain ⟨page, hin, hname⟩ := (hmem name).mp (List.mem_toFinset.mp hname)
    obtain ⟨source, hsource, hsub⟩ := hsource page hin
    exact mem_union.mpr ⟨source.1, List.mem_map_of_mem hsource,
      hsub (List.mem_toFinset.mpr hname)⟩
  · intro hfits
    ext name
    rw [List.mem_toFinset, hmem, Sources.found, mem_union]
    constructor
    · rintro ⟨page, hin, hname⟩
      obtain ⟨source, hsource, hsub⟩ := hsource page hin
      exact ⟨source.1, List.mem_map_of_mem hsource,
        hsub (List.mem_toFinset.mpr hname)⟩
    · rintro ⟨_, hin, hname⟩
      obtain ⟨source, hsource, rfl⟩ := List.mem_map.mp hin
      obtain ⟨page, hin, hnodup, hsub, hlength⟩ := hpage source hsource
      have hwhole := toFinset_of_fits hnodup hsub hlength (hfits source hsource)
      rw [← hwhole, List.mem_toFinset] at hname
      exact ⟨page, hin, hname⟩
  · intro hne hnil
    apply hne
    refine union_eq_empty.mpr fun found hfound => ?_
    obtain ⟨source, hsource, rfl⟩ := List.mem_map.mp hfound
    obtain ⟨page, hin, -, -, hlength⟩ := hpage source hsource
    have hempty : page = [] := List.eq_nil_iff_forall_not_mem.mpr
      fun name hname => by
        have hlisted := (hmem name).mpr ⟨page, hin, hname⟩
        rw [hnil] at hlisted
        cases hlisted
    rw [hempty, List.length_nil, pageLimit] at hlength
    exact Finset.card_eq_zero.mp (by omega)

end Limits

/-! ## The wrappers -/

section Wrappers

def foundIn (view : Lister → Finset String) (stores : List Lister) :
    Finset String :=
  union (stores.map view)

def AllFit (view : Lister → Finset String) (stores : List Lister) : Prop :=
  ∀ store ∈ stores, (view store).card ≤ pageLimit

theorem mergeStores_honours_iff (limit : Option Nat) (stores : List Lister)
    {view : Lister → Finset String} {ask : Lister → Answer}
    (hask : ∀ store, Page (view store) none (ask store)) :
    Honours limit (foundIn view stores) (AllFit view stores)
        (mergeAnswers limit [] (stores.map ask)) ↔
      (limit = some 0 → foundIn view stores = ∅) := by
  have hsources : ∀ source ∈ stores.map fun store => (view store, ask store),
      Page source.1 none source.2 := by
    intro source hsource
    obtain ⟨store, -, rfl⟩ := List.mem_map.mp hsource
    exact hask store
  have h := mergeAnswers_honours_iff limit hsources
  simpa only [Sources.found, Sources.Fit, List.map_map, Function.comp_def,
    List.forall_mem_map, foundIn, AllFit] using h

theorem mergeBoth_eq (limit : Option Nat) {cache primary : Answer}
    {first second : Finset String} (hcache : Page first none cache)
    (hprimary : Page second none primary) :
    (do
      let cache ← cache
      let primary ← primary
      return (mergeNames limit [] (cache ++ primary)).1) =
      mergeAnswers limit [] [cache, primary] := by
  obtain ⟨names, rfl, -⟩ := hcache
  obtain ⟨more, rfl, -⟩ := hprimary
  have hmerge := mergeAnswers_ok limit [] [names, more]
  rw [List.flatten_cons, List.flatten_singleton] at hmerge
  exact hmerge.symm

theorem mergeRoutes_eq (limit : Option Nat) (merged : List String)
    (routes : Routes) :
    mergeRoutes limit merged routes =
      mergeAnswers limit merged (routes.flatMap fun route =>
        [.ok [route.1], route.2.collections none]) := by
  induction routes generalizing merged with
  | nil => rfl
  | cons route routes ih =>
      rw [mergeRoutes, List.flatMap_cons, List.cons_append, mergeAnswers,
        List.cons_append, List.nil_append]
      rcases mergeNames limit merged [route.1] with ⟨merged, _ | _⟩
      · rcases route.2.collections none with error | names
        · rfl
        · simp only [mergeAnswers]
          rcases mergeNames limit merged names with ⟨merged, _ | _⟩
          · exact ih merged
          · rfl
      · rfl

def foundBehind (routes : Routes) : Finset String :=
  union (routes.flatMap fun route => [{route.1}, route.2.collectionSet])

theorem mergeRoutes_honours_iff (limit : Option Nat) (routes : Routes) :
    Honours limit (foundBehind routes)
        (AllFit Lister.collectionSet (routes.map Prod.snd))
        (resolvedCollections routes limit) ↔
      (limit = some 0 → foundBehind routes = ∅) := by
  let sources : Sources := routes.flatMap fun route =>
    [({route.1}, .ok [route.1]),
      (route.2.collectionSet, route.2.collections none)]
  have hsources : ∀ source ∈ sources, Page source.1 none source.2 := by
    intro source hsource
    obtain ⟨route, -, hmem⟩ := List.mem_flatMap.mp hsource
    rcases List.mem_pair.mp hmem with rfl | rfl
    · exact ⟨[route.1], rfl, List.nodup_singleton _, by simp, rfl⟩
    · exact route.2.collections_page none
  have hfound : sources.found = foundBehind routes := by
    simp [sources, Sources.found, foundBehind, List.map_flatMap]
  have hanswers : sources.map Prod.snd = routes.flatMap fun route =>
      [.ok [route.1], route.2.collections none] := by
    simp [sources, List.map_flatMap]
  have hfit : sources.Fit ↔
      AllFit Lister.collectionSet (routes.map Prod.snd) := by
    constructor
    · intro h store hstore
      obtain ⟨route, hroute, rfl⟩ := List.mem_map.mp hstore
      exact h (route.2.collectionSet, route.2.collections none)
        (List.mem_flatMap.mpr ⟨route, hroute, by simp⟩)
    · intro h source hsource
      obtain ⟨route, hroute, hmem⟩ := List.mem_flatMap.mp hsource
      rcases List.mem_pair.mp hmem with rfl | rfl
      · rw [Finset.card_singleton]
        decide
      · exact h route.2 (List.mem_map_of_mem hroute)
  have h := mergeAnswers_honours_iff limit hsources
  rw [hfound, hanswers, ← mergeRoutes_eq, propext hfit] at h
  exact h

end Wrappers

/-! ## Memory stores behind the router -/

section MemoryStores

variable (w : RoutingWrapper) (now : DateTime) (chance : Chance)

def answerOf : Except Error Response → Answer
  | .ok (.names names) => .ok names
  | .ok _ => .error (.invalidOperation "not an enumeration")
  | .error error => .error error

theorem page_of_lists {all : List String} (hnodup : all.Nodup)
    {limit : Option Nat} {result : Except Error Response}
    (h : Lists all (pageLen limit) result) :
    Page all.toFinset limit (answerOf result) := by
  obtain ⟨names, rfl, hnames, hsub, hlength⟩ := h
  refine ⟨names, rfl, hnames, fun name hname => ?_, ?_⟩
  · exact List.mem_toFinset.mpr (hsub (List.mem_toFinset.mp hname))
  · rw [hlength, List.toFinset_card_of_nodup hnodup]

def RoutingWrapper.memoryLister (hseed : w.config.seed = none) (n : Nat)
    (s : MemoryState) : Lister where
  keys collection limit :=
    answerOf (w.ask now chance n s (.keys collection limit)).1
  collections limit := answerOf (w.ask now chance n s (.collections limit)).1
  keySet collection :=
    (keysOf s (w.config.collectionName collection)).toFinset
  collectionSet := s.collections.keys.toFinset
  keys_page collection limit := by
    have hnodup : (keysOf s (w.config.collectionName collection)).Nodup :=
      AList.keys_nodup _
    apply page_of_lists hnodup
    rw [ask, runAlone_keys hseed]
    exact lists_take hnodup ((chance.order n).keys_perm _ _) _
  collections_page limit := by
    apply page_of_lists s.collections.keys_nodup
    rw [ask, runAlone_collections hseed]
    exact lists_take s.collections.keys_nodup
      ((chance.order n).keys_perm _ _) _

theorem enumerate_eq {call : Call}
    (hnames : ∀ n s, ∃ names,
      (w.ask now chance n s call).1 = .ok (.names names))
    (limit : Option Nat) (n : Nat) (merged : List String)
    (stores : List MemoryState) :
    (w.enumerate now chance call limit n merged stores).1 =
      (mergeAnswers limit merged (stores.mapIdx fun i s =>
        answerOf (w.ask now chance (n + i) s call).1)).map .names := by
  induction stores generalizing n merged with
  | nil => rfl
  | cons s stores ih =>
      obtain ⟨names, hask⟩ := hnames n s
      rw [List.mapIdx_cons, Nat.add_zero, hask, answerOf, mergeAnswers,
        enumerate]
      have hrest := ih (n + 1)
      simp only [Nat.add_assoc, Nat.add_comm 1] at hrest
      generalize w.ask now chance n s call = r at hask
      obtain ⟨_, s'⟩ := r
      cases hask
      simp only
      rcases mergeNames limit merged names with ⟨merged, _ | _⟩
      · exact hrest merged
      · rfl

variable (hseed : w.config.seed = none) (stores : List MemoryState)

/-- The `RoutingWrapper` over `MemoryStore`s merges what they list. -/
theorem keys_eq_routedKeys (collection : Option String) (limit : Option Nat) :
    (w.keys now chance collection limit stores).1 =
      (routedKeys (stores.mapIdx (w.memoryLister now chance hseed))
        collection limit).map .names := by
  rw [RoutingWrapper.keys, enumerate_eq]
  · simp only [Nat.zero_add, routedKeys, List.mapIdx_eq_zipIdx_map,
      List.map_map]
    rfl
  · intro n s
    rw [ask, runAlone_keys hseed]
    exact ⟨_, rfl⟩

theorem collections_eq_routedCollections (limit : Option Nat) :
    (w.collections now chance limit stores).1 =
      (routedCollections (stores.mapIdx (w.memoryLister now chance hseed))
        limit).map .names := by
  rw [RoutingWrapper.collections, enumerate_eq]
  · simp only [Nat.zero_add, routedCollections, List.mapIdx_eq_zipIdx_map,
      List.map_map]
    rfl
  · intro n s
    rw [ask, runAlone_collections hseed]
    exact ⟨_, rfl⟩

end MemoryStores

end OpenKeyV.Wrapper
