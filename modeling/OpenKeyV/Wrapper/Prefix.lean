import OpenKeyV.Library.Page
import OpenKeyV.Library.Text
import OpenKeyV.Wrapper.SingleCollection
import OpenKeyV.Wrapper.Tenants

/-!
# Tenants told apart by a prefix

`PrefixKeysWrapper` puts a prefix before the keys of its calls, and
`PrefixCollectionsWrapper` one before the collections.  The enumeration of what
is prefixed filters one page of the shared store.
-/

namespace OpenKeyV.Wrapper

open Library Memory

def stripped (namePrefix : String) (limit : Option Nat)
    (names : List String) : List String :=
  (names.filterMap (stripPrefix namePrefix)).take
    (limit.getD SingleCollectionWrapper.usizeMax)

/-! ## The wrappers -/

namespace PrefixKeysWrapper

def prefixed (namePrefix key : String) : String := namePrefix ++ key

def inner (namePrefix : String) : Memory.Call → Memory.Call
  | .get key c => .get (prefixed namePrefix key) c
  | .ttl key c => .ttl (prefixed namePrefix key) c
  | .put key value c seconds =>
      .put (prefixed namePrefix key) value c seconds
  | .delete key c => .delete (prefixed namePrefix key) c
  | .getMany ks c => .getMany (ks.map (prefixed namePrefix)) c
  | .ttlMany ks c => .ttlMany (ks.map (prefixed namePrefix)) c
  | .putMany ks values c seconds =>
      .putMany (ks.map (prefixed namePrefix)) values c seconds
  | .deleteMany ks c => .deleteMany (ks.map (prefixed namePrefix)) c
  | .getWithRevision key c => .getWithRevision (prefixed namePrefix key) c
  | .compareAndSwap key expected value c seconds =>
      .compareAndSwap (prefixed namePrefix key) expected value c seconds
  | .compareAndDelete key expected c =>
      .compareAndDelete (prefixed namePrefix key) expected c
  | .keys c _ => .keys c none
  | .collections limit => .collections limit
  -- The wrapper offers no other call.
  | call => call

def answer (namePrefix : String) :
    Memory.Call → Except Error Response → Except Error Response
  | .keys _ limit, .ok (.names names) =>
      .ok (.names (stripped namePrefix limit names))
  | _, result => result

end PrefixKeysWrapper

namespace PrefixCollectionsWrapper

def prefixedCollection (namePrefix : String) : Option String → String
  | some c => namePrefix ++ c
  | none => namePrefix ++ "default_collection"

def inner (namePrefix : String) : Memory.Call → Memory.Call
  | .get key c => .get key (prefixedCollection namePrefix c)
  | .ttl key c => .ttl key (prefixedCollection namePrefix c)
  | .put key value c seconds =>
      .put key value (prefixedCollection namePrefix c) seconds
  | .delete key c => .delete key (prefixedCollection namePrefix c)
  | .getMany ks c => .getMany ks (prefixedCollection namePrefix c)
  | .ttlMany ks c => .ttlMany ks (prefixedCollection namePrefix c)
  | .putMany ks values c seconds =>
      .putMany ks values (prefixedCollection namePrefix c) seconds
  | .deleteMany ks c => .deleteMany ks (prefixedCollection namePrefix c)
  | .getWithRevision key c =>
      .getWithRevision key (prefixedCollection namePrefix c)
  | .compareAndSwap key expected value c seconds =>
      .compareAndSwap key expected value (prefixedCollection namePrefix c)
        seconds
  | .compareAndDelete key expected c =>
      .compareAndDelete key expected (prefixedCollection namePrefix c)
  | .keys c limit => .keys (prefixedCollection namePrefix c) limit
  | .collections _ => .collections none
  -- The wrapper offers no other call.
  | call => call

def answer (namePrefix : String) :
    Memory.Call → Except Error Response → Except Error Response
  | .collections limit, .ok (.names names) =>
      .ok (.names (stripped namePrefix limit names))
  | _, result => result

end PrefixCollectionsWrapper

/-! ## Tenants -/

/-- No two tasks have tenants of which one's prefix begins the other's. -/
def PrefixFree (owner : Nat → String) : Prop :=
  ∀ task task', owner task ≠ owner task' →
    ¬ (owner task).toList <+: (owner task').toList

def prefixKeys (config : MemoryConfig) (owner : Nat → String) : Tenancy :=
  ⟨config, owner, fun tenant =>
    ⟨PrefixKeysWrapper.inner tenant, PrefixKeysWrapper.answer tenant⟩⟩

def prefixCollections (config : MemoryConfig) (owner : Nat → String) :
    Tenancy :=
  ⟨config, owner, fun tenant =>
    ⟨PrefixCollectionsWrapper.inner tenant,
      PrefixCollectionsWrapper.answer tenant⟩⟩

def Begins (namePrefix name : String) : Prop :=
  ∃ rest, name = namePrefix ++ rest

section Separation

variable {config : MemoryConfig} {owner : Nat → String}

theorem isSome_stripPrefix {namePrefix name : String} :
    (stripPrefix namePrefix name).isSome = true ↔ Begins namePrefix name := by
  rw [Option.isSome_iff_exists]
  exact exists_congr fun _ => stripPrefix_eq_some

theorem PrefixFree.apart (hfree : PrefixFree owner) {task task' : Nat}
    {name : String} (hne : owner task ≠ owner task')
    (h : Begins (owner task) name) : ¬ Begins (owner task') name := by
  rintro ⟨rest', hrest'⟩
  obtain ⟨rest, hrest⟩ := h
  have hlist : ∀ {lead rest : String}, name = lead ++ rest →
      lead.toList <+: name.toList := by
    rintro lead rest rfl
    rw [String.toList_append]
    exact List.prefix_append ..
  rcases List.prefix_or_prefix_of_prefix (hlist hrest) (hlist hrest') with
    hbegins | hbegins
  · exact hfree task task' hne hbegins
  · exact hfree task' task (Ne.symm hne) hbegins

theorem separated_keys (hseed : config.seed = none)
    (hfree : PrefixFree owner) :
    (prefixKeys config owner).Separated fun tenant cell =>
      Begins tenant cell.2 := by
  refine ⟨hseed, fun tenant call hpassed => ?_,
    fun tenant call hpassed key hkey => ?_,
    fun _ _ _ hne h => hfree.apart hne h⟩
  · cases call <;> first | rfl | cases hpassed
  · cases call with
    | subscribe | cull | destroyCollection | destroy => cases hpassed
    | keys | collections => cases hkey
    | get | ttl | put | delete | getWithRevision | compareAndSwap
    | compareAndDelete => exact ⟨_, List.mem_singleton.mp hkey⟩
    | getMany | ttlMany | putMany | deleteMany =>
        obtain ⟨rest, -, rfl⟩ := List.mem_map.mp hkey
        exact ⟨rest, rfl⟩

theorem begins_prefixedCollection (tenant : String) (c : Option String) :
    Begins tenant
      (PrefixCollectionsWrapper.prefixedCollection tenant c) := by
  cases c with
  | none => exact ⟨_, rfl⟩
  | some c => exact ⟨c, rfl⟩

theorem collection_inner (config : MemoryConfig) (tenant : String)
    {call : Memory.Call} (hpassed : Passed call = true)
    (hentries : (PrefixCollectionsWrapper.inner tenant call).onEntries = true) :
    Begins tenant (config.collectionName
      (PrefixCollectionsWrapper.inner tenant call).collection?) := by
  cases call with
  | subscribe | cull | destroyCollection | destroy => cases hpassed
  | collections => cases hentries
  | _ => exact begins_prefixedCollection ..

theorem separated_collections (hseed : config.seed = none)
    (hfree : PrefixFree owner) :
    (prefixCollections config owner).Separated fun tenant cell =>
      Begins tenant cell.1 := by
  refine ⟨hseed, fun tenant call hpassed => ?_,
    fun tenant call hpassed key hkey => ?_,
    fun _ _ _ hne h => hfree.apart hne h⟩
  · cases call <;> first | rfl | cases hpassed
  · refine collection_inner config tenant hpassed ?_
    cases call with
    | subscribe | cull | destroyCollection | destroy => cases hpassed
    | collections => cases hkey
    | _ => rfl

end Separation

/-! ## Enumerations -/

def ownNames (namePrefix : String) (names : List String) : List String :=
  names.filterMap (stripPrefix namePrefix)

def wanted (limit : Option Nat) : Nat :=
  min (limit.getD SingleCollectionWrapper.usizeMax) pageLimit

/-- As many names as are wanted fit on a page behind those of others. -/
def Fits (namePrefix : String) (limit : Option Nat) (names : List String) :
    Prop :=
  let shown := min (wanted limit) (ownNames namePrefix names).length
  shown = 0 ∨
    shown + (names.filter fun name =>
      !(stripPrefix namePrefix name).isSome).length ≤ pageLimit

section Enumerations

variable {namePrefix : String} {limit : Option Nat} {names names' : List String}

theorem mem_ownNames {name : String} :
    name ∈ ownNames namePrefix names ↔ namePrefix ++ name ∈ names := by
  rw [ownNames, List.mem_filterMap]
  constructor
  · rintro ⟨full, hfull, hstrip⟩
    exact stripPrefix_eq_some.mp hstrip ▸ hfull
  · intro hmem
    exact ⟨_, hmem, stripPrefix_eq_some.mpr rfl⟩

theorem nodup_ownNames (h : names.Nodup) :
    (ownNames namePrefix names).Nodup := by
  refine h.filterMap fun name name' rest hname hname' => ?_
  rw [stripPrefix_eq_some.mp hname, stripPrefix_eq_some.mp hname']

def listed (names : List String) : Except Error Response := .ok (.names names)

theorem exists_same_order (h : names'.Perm names) (order : Order)
    (name : String) :
    ∃ order' : Order, order'.keys name names' = order.keys name names :=
  exists_order_keys ((order.keys_perm name names).trans h.symm) name

theorem stripped_page (hfits : Fits namePrefix limit names)
    (hnodup : names.Nodup) (hnodup' : names'.Nodup)
    (hown : ∀ name, name ∈ names' ↔ name ∈ names ∧ Begins namePrefix name)
    (order : Order) (name : String) :
    ∃ order' : Order,
      stripped namePrefix limit ((order.keys name names).take pageLimit) =
        stripped namePrefix limit
          ((order'.keys name names').take pageLimit) := by
  have hperm := order.keys_perm name names
  have hnames : ((order.keys name names).filter fun name =>
      (stripPrefix namePrefix name).isSome).Perm names' := by
    refine (List.perm_ext_iff_of_nodup
      ((hperm.nodup_iff.mpr hnodup).filter _) hnodup').mpr fun full => ?_
    rw [List.mem_filter, hperm.mem_iff, hown, isSome_stripPrefix]
  obtain ⟨order', horder'⟩ := exists_order_keys hnames name
  refine ⟨order', ?_⟩
  rw [horder']
  refine Page.take_filterMap_page _ ?_
  rw [(hperm.filterMap _).length_eq, (hperm.filter _).length_eq,
    ← Nat.min_assoc]
  exact hfits

theorem stripped_lists_iff (hnodup : names.Nodup) (name : String) :
    (∀ order : Order, Lists (ownNames namePrefix names) (wanted limit)
        (.ok (.names (stripped namePrefix limit
          ((order.keys name names).take pageLimit))))) ↔
      Fits namePrefix limit names := by
  have hcount : ∀ l : List String,
      (l.filterMap (stripPrefix namePrefix)).length =
      (l.filter fun name => (stripPrefix namePrefix name).isSome).length := by
    intro l
    rw [← Page.filterMap_filter_isSome]
    exact List.filterMap_length_eq_length.mpr fun _ h =>
      (List.mem_filter.mp h).2
  have hpage := Page.forall_page_filter (l := names) (n := pageLimit)
    (p := fun name => (stripPrefix namePrefix name).isSome)
    (m := min (wanted limit) (ownNames namePrefix names).length)
    (by rw [ownNames, hcount]; exact Nat.min_le_right ..)
  rw [Fits, ← hpage]
  constructor
  · intro h l hperm
    obtain ⟨order, horder⟩ := exists_order_keys hperm name
    obtain ⟨shown, hshown, -, -, hlength⟩ := h order
    cases hshown
    rw [← hlength, stripped, horder, List.length_take, hcount]
    exact Nat.min_le_right ..
  · intro h order
    have hperm := order.keys_perm name names
    have hsub : ((order.keys name names).take pageLimit).Sublist
        (order.keys name names) := List.take_sublist ..
    have hown := hsub.filterMap (stripPrefix namePrefix)
    refine ⟨_, rfl, ?_, fun rest hrest => ?_, ?_⟩
    · exact ((nodup_ownNames (hperm.nodup_iff.mpr hnodup)).sublist
        hown).sublist (List.take_sublist ..)
    · exact (hperm.filterMap _).subset
        (hown.subset (List.mem_of_mem_take hrest))
    · have hmany := h _ hperm
      have hshort := (hown.length_le.trans
        (hperm.filterMap (stripPrefix namePrefix)).length_eq.le)
      have hlimit := (List.length_filterMap_le (stripPrefix namePrefix)
        ((order.keys name names).take pageLimit)).trans
          (List.length_take_le ..)
      rw [← hcount] at hmany
      rw [stripped, List.length_take]
      simp only [wanted, ownNames] at hmany ⊢
      omega

end Enumerations

/-- The page that an enumeration of keys is answered with has room, and all
collections are the tenant's where they are enumerated. -/
def PrefixKeysWrapper.Room (config : MemoryConfig) (owner : Nat → String)
    (t : Shared) : Turn → Prop
  | .resume task _ _ =>
      match t.issued task, t.system.tasks task with
      | some (.keys collection limit), .setup _ =>
          Fits (owner task) limit
            (keysOf t.system.state (config.collectionName collection))
      | some (.collections limit), .setup _ =>
          limit = some 0 ∨ ∀ tenant name, (tenant, name) ∈ t.reached →
            (owner task, name) ∈ t.reached
      | _, _ => True
  | _ => True

/-- The page that an enumeration of collections is answered with has room. -/
def PrefixCollectionsWrapper.Room (owner : Nat → String) (t : Shared) :
    Turn → Prop
  | .resume task _ _ =>
      match t.issued task, t.system.tasks task with
      | some (.collections limit), .setup _ =>
          Fits (owner task) limit t.system.state.collections.keys
      | _, _ => True
  | _ => True

section Isolation

variable {config : MemoryConfig} {owner : Nat → String}

theorem mem_keysOf_cells {s : MemoryState} {name key : String} :
    key ∈ keysOf s name ↔ (s.cells (name, key)).isSome = true := by
  rw [mem_keysOf, Option.isSome_iff_exists]
  rfl

theorem mem_collections {s : MemoryState} {name : String} :
    name ∈ s.collections.keys ↔ (s.collection name).isSome = true := by
  rw [KeyedMap.mem_keys_iff, MemoryState.collection, Option.isSome_iff_exists]

theorem mem_keysOf_alone {w : Tenancy} {owns : String → Cell → Prop}
    {t u : Shared} {tenant : String} (h : w.Alone owns tenant t u)
    (name key : String) :
    key ∈ keysOf u.system.state name ↔
      key ∈ keysOf t.system.state name ∧ owns tenant (name, key) := by
  rw [mem_keysOf_cells, mem_keysOf_cells]
  by_cases hown : owns tenant (name, key)
  · rw [h.agree _ hown]
    exact (and_iff_left hown).symm
  · rw [h.nothing _ hown]
    exact iff_of_false (by simp) fun hboth => hown hboth.2

theorem matched_keys :
    (prefixKeys config owner).Matched (fun tenant cell => Begins tenant cell.2)
      (PrefixKeysWrapper.Room config owner) := by
  intro t u task outer order rng hsound halone hissued inner hphase henum hroom
  simp only [PrefixKeysWrapper.Room, hissued, hphase] at hroom
  cases outer with
  | keys collection limit =>
      obtain ⟨order', hsame⟩ := stripped_page hroom (AList.keys_nodup _)
        (AList.keys_nodup _)
        (fun key => mem_keysOf_alone halone _ key) order
        (config.collectionName collection)
      exact ⟨order', congrArg listed hsame⟩
  | collections limit =>
      rcases hroom with rfl | hall
      · exact ⟨order, rfl⟩
      · -- Every collection of the store is the tenant's.
        have hperm : u.system.state.collections.keys.Perm
            t.system.state.collections.keys := by
          refine (List.perm_ext_iff_of_nodup (AList.keys_nodup _)
            (AList.keys_nodup _)).mpr fun name => ?_
          rw [mem_collections, mem_collections, halone.named, hsound.named]
          exact ⟨fun h => ⟨_, h⟩, fun ⟨tenant, h⟩ => hall tenant name h⟩
        obtain ⟨order', horder'⟩ := exists_same_order hperm order ""
        have hpage := congrArg (List.take (pageLen limit)) horder'.symm
        exact ⟨order', congrArg listed hpage⟩
  | subscribe | cull | destroyCollection | destroy => cases henum
  | get | ttl | put | delete | getMany | ttlMany | putMany | deleteMany
  | getWithRevision | compareAndSwap | compareAndDelete => cases henum

theorem matched_collections (hfree : PrefixFree owner) :
    (prefixCollections config owner).Matched
      (fun tenant cell => Begins tenant cell.1)
      (PrefixCollectionsWrapper.Room owner) := by
  intro t u task outer order rng hsound halone hissued inner hphase henum hroom
  simp only [PrefixCollectionsWrapper.Room, hissued, hphase] at hroom
  cases outer with
  | keys collection limit =>
      let name := config.collectionName
        (PrefixCollectionsWrapper.prefixedCollection (owner task) collection)
      have hperm : (keysOf u.system.state name).Perm
          (keysOf t.system.state name) := by
        refine (List.perm_ext_iff_of_nodup (AList.keys_nodup _)
          (AList.keys_nodup _)).mpr fun key => ?_
        exact (mem_keysOf_alone halone name key).trans
          (and_iff_left (begins_prefixedCollection ..))
      obtain ⟨order', horder'⟩ := exists_same_order hperm order name
      have hpage := congrArg (List.take (pageLen limit)) horder'.symm
      exact ⟨order', congrArg listed hpage⟩
  | collections limit =>
      have hown : ∀ name, name ∈ u.system.state.collections.keys ↔
          name ∈ t.system.state.collections.keys ∧
            Begins (owner task) name := by
        intro name
        have hbegins : ∀ tenant, (tenant, name) ∈ t.reached →
            ∃ other, owner other = tenant ∧ Begins tenant name := by
          intro tenant hreached
          obtain ⟨other, call, hother, hpassed, hentries, rfl⟩ :=
            hsound.origin tenant name hreached
          exact ⟨other, hother,
            collection_inner config tenant hpassed hentries⟩
        rw [mem_collections, mem_collections, halone.named, hsound.named]
        constructor
        · intro hreached
          obtain ⟨-, -, hname⟩ := hbegins _ hreached
          exact ⟨⟨_, hreached⟩, hname⟩
        · rintro ⟨⟨tenant, hreached⟩, hname⟩
          obtain ⟨other, rfl, hother⟩ := hbegins tenant hreached
          have hsame : owner task = owner other := by
            by_contra hne
            exact hfree.apart hne hname hother
          change (owner task, name) ∈ t.reached
          rwa [hsame]
      obtain ⟨order', hsame⟩ := stripped_page hroom (AList.keys_nodup _)
        (AList.keys_nodup _) hown order ""
      exact ⟨order', congrArg listed hsame⟩
  | subscribe | cull | destroyCollection | destroy => cases henum
  | get | ttl | put | delete | getMany | ttlMany | putMany | deleteMany
  | getWithRevision | compareAndSwap | compareAndDelete => cases henum

/-- Whatever chance decides, the task is answered so after its stretch. -/
def Tenancy.Next (w : Tenancy) (t : Shared) (task : Nat)
    (P : Except Error Response → Prop) : Prop :=
  ∀ order rng t', w.step t (.resume task order rng) = some t' →
    ∃ result, w.answer t' task = some result ∧ P result

theorem next_enumerated {w : Tenancy} (hseed : w.config.seed = none)
    {t : Shared} {task : Nat} {outer : Memory.Call}
    (hissued : t.issued task = some outer)
    (hphase : t.system.tasks task =
      .setup ((w.wrapper (w.owner task)).inner outer))
    (henum : Tenancy.Enumerates ((w.wrapper (w.owner task)).inner outer) = true)
    (P : Except Error Response → Prop) :
    w.Next t task P ↔ ∀ order, P ((w.wrapper (w.owner task)).answer outer
      (Tenancy.enumerated w.config order t.system.state
        ((w.wrapper (w.owner task)).inner outer))) := by
  have hstep : ∀ order rng, ∃ t', w.step t (.resume task order rng) =
      some t' ∧ w.answer t' task = some ((w.wrapper (w.owner task)).answer outer
        (Tenancy.enumerated w.config order t.system.state
          ((w.wrapper (w.owner task)).inner outer))) := by
    intro order rng
    refine ⟨_, by rw [Tenancy.step, step_setup w.config rng order hphase]; rfl,
      ?_⟩
    simp only [Tenancy.answer, hissued, Function.update_self,
      Tenancy.enter_enumerates hseed rng _ _ _ henum]
  constructor
  · intro h order
    obtain ⟨t', hnext, hanswer⟩ := hstep order fun _ => none
    obtain ⟨result, hresult, hP⟩ := h order _ t' hnext
    cases hanswer.symm.trans hresult
    exact hP
  · intro h order rng t' hnext
    obtain ⟨u, hu, hanswer⟩ := hstep order rng
    cases hu.symm.trans hnext
    exact ⟨_, hanswer, h order⟩

/-- While every page that is asked for has room, and no put evicts, each
tenant is answered as on a store of its own; and what it enumerates is all that is wanted of its own
names, whatever the order, exactly if the page has room. -/
theorem isolated_tenants (hseed : config.seed = none)
    (hfree : PrefixFree owner) (clock : DateTime) (t : Shared) :
    ((∀ turns, Along (prefixKeys config owner).step
          (fun t turn => PrefixKeysWrapper.Room config owner t turn ∧
            (prefixKeys config owner).Spacious t turn) (.init clock) turns →
        run (prefixKeys config owner).step (.init clock) turns = some t →
        ∀ self, (prefixKeys config owner).AloneToo clock turns t (owner self)) ∧
      ∀ task collection limit,
        t.issued task = some (.keys collection limit) →
        t.system.tasks task = .setup (.keys collection none) →
        let names := keysOf t.system.state (config.collectionName collection)
        ((prefixKeys config owner).Next t task
            (Lists (ownNames (owner task) names) (wanted limit)) ↔
          Fits (owner task) limit names)) ∧
    ((∀ turns, Along (prefixCollections config owner).step
          (fun t turn => PrefixCollectionsWrapper.Room owner t turn ∧
            (prefixCollections config owner).Spacious t turn)
          (.init clock) turns →
        run (prefixCollections config owner).step (.init clock) turns =
          some t →
        ∀ self, (prefixCollections config owner).AloneToo clock turns t
          (owner self)) ∧
      ∀ task limit,
        t.issued task = some (.collections limit) →
        t.system.tasks task = .setup (.collections none) →
        let names := t.system.state.collections.keys
        ((prefixCollections config owner).Next t task
            (Lists (ownNames (owner task) names) (wanted limit)) ↔
          Fits (owner task) limit names)) := by
  refine ⟨⟨fun turns hroom hrun self => ?_, fun task collection limit hissued
    hphase => ?_⟩, ⟨fun turns hroom hrun self => ?_, fun task limit hissued
    hphase => ?_⟩⟩
  · exact Tenancy.alone_too (separated_keys hseed hfree) matched_keys hroom
      hrun self
  · exact (next_enumerated (w := prefixKeys config owner) hseed hissued hphase
      rfl _).trans (stripped_lists_iff (AList.keys_nodup _) _)
  · exact Tenancy.alone_too (separated_collections hseed hfree)
      (matched_collections hfree) hroom hrun self
  · exact (next_enumerated (w := prefixCollections config owner) hseed hissued
      hphase rfl _).trans (stripped_lists_iff (AList.keys_nodup _) _)

end Isolation

/-! ## A crowded page -/

section Crowded

def twoTenants (task : Nat) : String := if task = 0 then "a" else "b"

theorem prefixFree_twoTenants : PrefixFree twoTenants := by
  intro task task' hne
  by_cases h : task = 0
  · by_cases h' : task' = 0
    · exact absurd (by simp [twoTenants, h, h']) hne
    · simp only [twoTenants, if_pos h, if_neg h']
      decide
  · by_cases h' : task' = 0
    · simp only [twoTenants, if_neg h, if_pos h']
      decide
    · exact absurd (by simp [twoTenants, h, h']) hne

abbrev crowded : Tenancy :=
  prefixKeys ⟨none, "default_collection", none⟩ twoTenants

def putTurns (item : Nat × String) : List Turn :=
  .call item.1 (.put item.2 .null none none) ::
    List.replicate 3 (.resume item.1 .stored fun _ => some (.fill 0))

def listedTurns : List Turn :=
  putTurns (0, "y") ++ [.call 1 (.keys none none),
    .resume 1 .stored fun _ => none]

theorem first_put_fits {config : MemoryConfig} {now : DateTime}
    {name key : String} {stored : RevisionedEntry} {m : Cells RevisionedEntry}
    (hmax : ∀ max, config.maxEntriesPerCollection = some max → 0 < max)
    (hfresh : stored.entry.isExpired now = false)
    (hnone : ∀ key, m (name, key) = none) :
    (Action.put name key stored).Spacious config now m := by
  intro max hsome
  refine ⟨{key}, hmax max hsome, ?_⟩
  rw [Cells.held_update]
  refine Cells.Within.update (fun other entry hentry => ?_)
    (Finset.mem_singleton_self key) hfresh
  rw [Cells.held, hnone] at hentry
  cases hentry

abbrev cramped : Tenancy :=
  prefixKeys ⟨some 1, "default_collection", none⟩ twoTenants

theorem isolated_tenants_listed : ∃ t,
    run cramped.step (.init .epoch) listedTurns = some t ∧
      cramped.answer t 1 = some (.ok (.names [])) ∧
      cramped.AloneToo .epoch listedTurns t "b" := by
  refine ⟨_, rfl, rfl, (isolated_tenants rfl prefixFree_twoTenants .epoch
    _).1.1 listedTurns ⟨⟨trivial, trivial⟩, fun _ h => ?_⟩ rfl 1⟩
  cases h
  refine ⟨⟨trivial, fun _ h => by cases h⟩, fun _ h => ?_⟩
  cases h
  refine ⟨⟨trivial, fun action haction => ?_⟩, fun _ h => ?_⟩
  · cases haction
    refine first_put_fits (fun max hmax => ?_) (by decide +kernel)
      fun _ => rfl
    cases hmax
    exact Nat.one_pos
  cases h
  refine ⟨⟨trivial, fun _ h => by cases h⟩, fun _ h => ?_⟩
  cases h
  refine ⟨⟨trivial, trivial⟩, fun _ h => ?_⟩
  cases h
  exact ⟨⟨.inl (by decide +kernel), fun _ h => by cases h⟩, fun _ _ => trivial⟩

def Quiet (t : Shared) : Prop :=
  t.system.holder = none ∧ ∀ task, t.system.tasks task = .idle ∨
    ∃ result, t.system.tasks task = .done result

theorem enter_put (now : DateTime) (s : MemoryState) (key : String) :
    ∃ stored, (enter crowded.config (fun _ => some (.fill 0)) now .stored s
        (.put key .null none none)).2 =
      .lock (.put "default_collection" key stored) := by
  rw [Tenancy.enter_unseeded rfl]
  exact ⟨_, rfl⟩

theorem perform_put (now : DateTime) {s : MemoryState} (key : String)
    (stored : RevisionedEntry)
    (hcol : (s.collection "default_collection").isSome = true) :
    let locked := perform crowded.config now .stored s
      (.put "default_collection" key stored)
    (∃ mutation, locked.pending = [mutation]) ∧
      locked.state.cells =
        Function.update s.cells ("default_collection", key) (some stored) := by
  obtain ⟨col, hcol⟩ := Option.isSome_iff_exists.mp hcol
  have hput := @put_roomy crowded.config now .stored _ _ _ hcol key stored
    (Cells.uncrowded_of_unbounded rfl)
  simp only [perform, hput]
  exact ⟨⟨_, rfl⟩, cells_insertEntry hcol key stored .plain⟩

theorem put_stored {t : Shared} (h : Quiet t) (item : Nat × String) :
    ∃ t', run crowded.step t (putTurns item) = some t' ∧ Quiet t' ∧
      ∀ cell, (t'.system.state.cells cell).isSome = true ↔
        cell = ("default_collection", twoTenants item.1 ++ item.2) ∨
          (t.system.state.cells cell).isSome = true := by
  obtain ⟨task, key⟩ := item
  obtain ⟨hholder, hquiet⟩ := h
  let call : Memory.Call := .put (twoTenants task ++ key) .null none none
  let s := (enter crowded.config (fun _ => some (.fill 0)) t.system.clock
    .stored t.system.state call).1
  have hcells : s.cells = t.system.state.cells :=
    Tenancy.cells_enter rfl _ _ _ _ rfl
  have hcol : (s.collection "default_collection").isSome = true :=
    (Tenancy.named_enter rfl _ _ _ _ rfl _).mpr (.inl ⟨rfl, rfl⟩)
  obtain ⟨stored, hlock⟩ := enter_put t.system.clock t.system.state
    (twoTenants task ++ key)
  obtain ⟨⟨mutation, hpending⟩, hput⟩ := perform_put t.system.clock
    (twoTenants task ++ key) stored hcol
  let action : Action := .put "default_collection" (twoTenants task ++ key)
    stored
  let locked := perform crowded.config t.system.clock .stored s action
  let resumed : Turn := .resume task .stored fun _ => some (.fill 0)
  let tasks := fun phase => Function.update t.system.tasks task phase
  obtain ⟨t₁, h₁, hs₁⟩ : ∃ t₁,
      crowded.step t (.call task (.put key .null none none)) = some t₁ ∧
        t₁.system = { t.system with tasks := tasks (.setup call) } :=
    ⟨_, Tenancy.step_called rfl (hquiet task), rfl⟩
  have hphase₁ : t₁.system.tasks task = .setup call := by
    rw [hs₁]
    exact Function.update_self ..
  obtain ⟨t₂, h₂, hs₂⟩ : ∃ t₂, crowded.step t₁ resumed = some t₂ ∧
      t₂.system = { t.system with
        state := s
        tasks := tasks (.lock action) } := by
    refine ⟨_, Tenancy.step_entered _ _ hphase₁, ?_⟩
    simp only [hs₁, tasks, Function.update_idem, call, hlock, s, action]
  have hphase₂ : t₂.system.tasks task = .lock action := by
    rw [hs₂]
    exact Function.update_self ..
  obtain ⟨t₃, h₃, hs₃⟩ : ∃ t₃, crowded.step t₂ resumed = some t₃ ∧
      t₃.system = { t.system with
        state := locked.state
        holder := some task
        tasks := tasks (.record action [mutation] locked.guards
          locked.result) } := by
    refine ⟨_, Tenancy.step_performed _ _ hphase₂ (by rw [hs₂]; exact hholder),
      ?_⟩
    simp only [hs₂, action, hpending, System.proceed, tasks,
      Function.update_idem, locked]
  have hphase₃ : t₃.system.tasks task =
      .record action [mutation] locked.guards locked.result := by
    rw [hs₃]
    exact Function.update_self ..
  obtain ⟨t₄, h₄, hs₄⟩ : ∃ t₄, crowded.step t₃ resumed = some t₄ ∧
      t₄.system = { t.system with
        state := locked.state.recordChange t.system.clock mutation
        holder := none
        tasks := tasks (.done locked.result) } := by
    refine ⟨_, Tenancy.step_recorded _ _ hphase₃, ?_⟩
    simp only [hs₃, System.proceed, tasks, Function.update_idem]
  refine ⟨t₄, ?_, ⟨by rw [hs₄], fun other => ?_⟩, fun cell => ?_⟩
  · exact run_cons_eq_some.mpr ⟨t₁, h₁, run_cons_eq_some.mpr ⟨t₂, h₂,
      run_cons_eq_some.mpr ⟨t₃, h₃, run_cons_eq_some.mpr ⟨t₄, h₄, rfl⟩⟩⟩⟩
  · rw [hs₄]
    simp only [tasks, Function.update_apply]
    split
    · exact .inr ⟨_, rfl⟩
    · exact hquiet other
  · have hrecord : t₄.system.state.cells = Function.update
        t.system.state.cells ("default_collection", twoTenants task ++ key)
        (some stored) := by
      rw [hs₄, ← hcells, ← hput]
      rfl
    rw [hrecord, Function.update_apply]
    split
    · rename_i heq
      exact iff_of_true rfl (.inl heq)
    · rename_i hne
      exact (or_iff_right hne).symm

theorem puts_stored {t : Shared} (h : Quiet t) (items : List (Nat × String)) :
    ∃ t', run crowded.step t (items.flatMap putTurns) = some t' ∧ Quiet t' ∧
      ∀ key, key ∈ keysOf t'.system.state "default_collection" ↔
        key ∈ (items.map fun item => twoTenants item.1 ++ item.2) ∨
          key ∈ keysOf t.system.state "default_collection" := by
  induction items generalizing t with
  | nil => exact ⟨t, rfl, h, fun key => by simp⟩
  | cons item items ih =>
      obtain ⟨s, hs, hquiet, hcells⟩ := put_stored h item
      obtain ⟨t', ht', hquiet', hkeys⟩ := ih hquiet
      refine ⟨t', run_append_eq_some.mpr ⟨s, hs, ht'⟩, hquiet', fun key => ?_⟩
      rw [hkeys, mem_keysOf_cells, hcells, ← mem_keysOf_cells, List.map_cons,
        List.mem_cons, Prod.mk.injEq, or_assoc, or_left_comm]
      simp

theorem not_fits_crowd {names : List String} (hkey : "b" ++ "x" ∈ names)
    (hkeys : ∀ n < pageLimit, "a" ++ toString n ∈ names) :
    ¬ Fits "b" none names := by
  let others := names.filter fun name => !(stripPrefix "b" name).isSome
  have hown : 0 < (ownNames "b" names).length :=
    List.length_pos_of_mem (mem_ownNames.mpr hkey)
  have hmany : pageLimit ≤ others.length := by
    have hnodup : ((List.range pageLimit).map fun n =>
        "a" ++ toString n).Nodup := by
      refine List.nodup_range.map fun n m h => ?_
      exact toString_nat_inj ((String.append_right_inj "a").mp h)
    have hsub : ((List.range pageLimit).map fun n => "a" ++ toString n) ⊆
        others := by
      intro name hname
      obtain ⟨n, hn, rfl⟩ := List.mem_map.mp hname
      refine List.mem_filter.mpr ⟨hkeys n (List.mem_range.mp hn), ?_⟩
      have hne : twoTenants 0 ≠ twoTenants 1 := by decide
      have hapart : ¬ Begins "b" ("a" ++ toString n) :=
        prefixFree_twoTenants.apart hne ⟨toString n, rfl⟩
      simpa using mt isSome_stripPrefix.mp hapart
    have hle := (hnodup.subperm hsub).length_le
    rwa [List.length_map, List.length_range] at hle
  have hwanted : wanted none = pageLimit := by decide
  have hpage : 0 < pageLimit := by decide
  rw [Fits, hwanted]
  simp only [others] at hmany
  omega

def crowd : List (Nat × String) :=
  (1, "x") :: (List.range pageLimit).map fun n => (0, toString n)

/-- A key is not listed behind a page of the keys of others. -/
theorem page_hides_key : PrefixFree twoTenants ∧ ∃ turns t,
    run crowded.step (.init .epoch) turns = some t ∧
      t.issued 1 = some (.keys none none) ∧
      t.system.tasks 1 = .setup (.keys none none) ∧
      "x" ∈ ownNames "b" (keysOf t.system.state "default_collection") ∧
      ¬ crowded.Next t 1 (Lists
        (ownNames "b" (keysOf t.system.state "default_collection"))
        (wanted none)) := by
  obtain ⟨t, hrun, hquiet, hkeys⟩ := puts_stored
    (t := .init .epoch) ⟨rfl, fun _ => .inl rfl⟩ crowd
  obtain ⟨t', hcall, hstate, hissued, htasks⟩ : ∃ t',
      crowded.step t (.call 1 (.keys none none)) = some t' ∧
        t'.system.state = t.system.state ∧
        t'.issued = Function.update t.issued 1 (some (.keys none none)) ∧
        t'.system.tasks = Function.update t.system.tasks 1
          (.setup (.keys none none)) :=
    ⟨_, Tenancy.step_called rfl (hquiet.2 1), rfl, rfl, rfl⟩
  have hissued' : t'.issued 1 = some (.keys none none) := by
    rw [hissued]
    exact Function.update_self ..
  have hphase : t'.system.tasks 1 = .setup (.keys none none) := by
    rw [htasks]
    exact Function.update_self ..
  have hmem : ∀ item ∈ crowd, twoTenants item.1 ++ item.2 ∈
      keysOf t'.system.state "default_collection" := fun item hitem =>
    hstate ▸ (hkeys _).mpr (.inl (List.mem_map_of_mem hitem))
  have hkey := hmem (1, "x") (List.mem_cons_self ..)
  refine ⟨prefixFree_twoTenants, crowd.flatMap putTurns ++
    [.call 1 (.keys none none)], t', ?_, hissued', hphase,
    mem_ownNames.mpr hkey, fun hnext => ?_⟩
  · exact run_append_eq_some.mpr ⟨t, hrun, run_cons_eq_some.mpr
      ⟨t', hcall, rfl⟩⟩
  · have hlists := (next_enumerated (w := crowded) rfl hissued' hphase rfl
      _).mp hnext
    refine not_fits_crowd hkey (fun n hn => ?_)
      ((stripped_lists_iff (AList.keys_nodup _) "default_collection").mp
        hlists)
    exact hmem (0, toString n) (List.mem_cons_of_mem _
      (List.mem_map_of_mem (List.mem_range.mpr hn)))

end Crowded

end OpenKeyV.Wrapper
