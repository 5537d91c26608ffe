import OpenKeyV.FileTree.History
import OpenKeyV.Library.Trusting
import OpenKeyV.Sled.Removal

/-!
# Calls of many `DiskStore`s on one database

Any number of calls run on one database, each by a store with a default
collection of its own, and any of their requests may fail; other programs use
trees of their own beside them.
-/

namespace OpenKeyV.Sled

open Library Library.Interaction DiskStore
open FileTree (Call Reply)

def perform (store : DiskStore) : Call → Requests Reply
  | .get key collection => do return .value (← store.get key collection)
  | .ttl key collection => do return .timed (← store.ttl key collection)
  | .put key value collection ttl => do
      store.put key value collection ttl
      return .unit
  | .delete key collection => do return .flag (← store.delete key collection)
  | .getMany keys collection => do
      return .values (← store.getMany keys collection)
  | .ttlMany keys collection => do
      return .timeds (← store.ttlMany keys collection)
  | .putMany keys values collection ttl => do
      store.putMany keys values collection ttl
      return .unit
  | .deleteMany keys collection => do
      return .count (← store.deleteMany keys collection)
  | .cull => do
      DiskStore.cull
      return .unit
  | .keys collection limit => do return .names (← store.keys collection limit)
  | .collections limit => do return .names (← DiskStore.collections limit)
  | .destroyCollection collection => do
      return .flag (← DiskStore.destroyCollection collection)
  | .destroy => do return .flag (← DiskStore.destroy)

/-- A property of the values that are put under a collection and a key. -/
abbrev Marking := String → String → Value → Prop

section Marked

variable (W : Marking)

def Puts (store : DiskStore) : Call → Prop
  | .put key value collection _ =>
      W (store.collectionName collection) key value ∧ value.Storable
  | .putMany keys values collection _ => ∀ item ∈ keys.zip values,
      W (store.collectionName collection) item.1 item.2 ∧ item.2.Storable
  | _ => True

structure Task where
  store : DiskStore
  call : Call
  puts : Puts W store call

def Returns (store : DiskStore) : Call → Reply → Prop
  | .get key c, .value r => ∀ value ∈ r, W (store.collectionName c) key value
  | .ttl key c, .timed r =>
      ∀ found ∈ r, W (store.collectionName c) key found.1
  | .getMany keys c, .values rs => List.Forall₂ (fun key r =>
      ∀ value ∈ r, W (store.collectionName c) key value) keys rs
  | .ttlMany keys c, .timeds rs => List.Forall₂ (fun key (r : Option _) =>
      ∀ found ∈ r, W (store.collectionName c) key found.1) keys rs
  | _, _ => True

/-- A failure of the database, an invalid TTL, or a batch of two lengths:
nothing that the store reads back is to blame. -/
def Excused : Error → Prop
  | .storeConnection _ | .invalidTtl _ | .batchSizeMismatch .. => True
  | _ => False

/-! ## The invariant -/

/-- An entry of a value that was put under this collection and key. -/
def Kept (name key value : Bytes) : Prop :=
  ∃ collection text entry, name = treeName collection ∧ key = utf8 text ∧
    ManagedEntry.decode value = .ok entry ∧ W collection text entry.value

structure InOrder (s : State) : Prop where
  named : ∀ name tree, Own name → s.db.lookup name = some tree →
    ∃ collection, name = treeName collection
  kept : ∀ name tree key value, Own name → s.db.lookup name = some tree →
    tree.lookup key = some value → Kept W name key value

def May : Access → Prop
  | .insert tree key value => Kept W tree key value
  | .openTree tree | .get tree _ | .remove tree _ | .iter tree
  | .flush tree | .dropTree tree => ∃ collection, tree = treeName collection
  | .treeNames | .now => True

def SoundAnswer : (a : Access) → a.Answer → Prop
  | .treeNames, names => ∀ name ∈ (names : List Bytes), Own name →
      ∃ collection, name = treeName collection
  | .get tree key, answer => ∀ value, answer = .ok (some value) →
      Kept W tree key value
  | .iter tree, items => ∀ key value,
      .ok (key, value) ∈ (items : List (Answer (Bytes × Bytes))) →
        Kept W tree key value
  | _, _ => True

abbrev Does {α : Type} (call : Requests α) (post : α → Prop) : Prop :=
  Behaves (May W) (SoundAnswer W) Excused call post

end Marked

section Kept

variable {W : Marking} {collection text : String} {name key value : Bytes}

theorem Kept.own (h : Kept W name key value) :
    ∃ collection, name = treeName collection := by
  obtain ⟨collection, -, -, hname, -⟩ := h
  exact ⟨collection, hname⟩

theorem Kept.decode (h : Kept W (treeName collection) (utf8 text) value) :
    ∃ entry, ManagedEntry.decode value = .ok entry ∧
      W collection text entry.value := by
  obtain ⟨c, t, entry, hname, hkey, hentry, hmark⟩ := h
  rw [treeName_inj.mp hname, utf8_injective hkey]
  exact ⟨entry, hentry, hmark⟩

theorem kept_encode {entry : ManagedEntry}
    (hmark : W collection text entry.value)
    (hstorable : entry.value.Storable) :
    Kept W (treeName collection) (utf8 text) entry.encode :=
  ⟨collection, text, entry.truncMillis, rfl, rfl,
    ManagedEntry.decode_encode entry hstorable.1 hstorable.2, hmark⟩

theorem excused_connected {α : Type} {message : String} {answer : Answer α}
    {e : Error} (h : connected message answer = .error e) : Excused e := by
  cases answer <;> cases h
  trivial

theorem connected_eq_ok {α : Type} {message : String} {answer : Answer α}
    {a : α} (h : connected message answer = .ok a) : answer = .ok a := by
  cases answer <;> cases h
  rfl

end Kept

/-! ## What each call does -/

section Does

variable {W : Marking} {store : DiskStore} {collection text : String}

theorem does_openTree (collection : String) :
    Does W (openTree (treeName collection)) fun _ => True := by
  refine (behaves_access ⟨collection, rfl⟩).bind fun answer _ => ?_
  exact behaves_attempt (fun _ _ => trivial) fun e => excused_connected

theorem does_getTree (collection : String) :
    Does W (getTree collection) fun tree => tree = treeName collection :=
  (does_openTree collection).bind fun _ _ => behaves_pure rfl

theorem does_utcNow : Does W utcNow fun _ => True :=
  behaves_access trivial

theorem does_liveEntry (collection text : String) :
    Does W (liveEntry (treeName collection) text) fun r =>
      ∀ entry ∈ r, W collection text entry.value := by
  have hget : Does W (getBytes (treeName collection) (utf8 text)) fun r =>
      ∀ value ∈ r, Kept W (treeName collection) (utf8 text) value := by
    refine (behaves_access ⟨collection, rfl⟩).bind fun answer hanswer => ?_
    refine behaves_attempt ?_ fun e => excused_connected
    intro r hr value hvalue
    rw [Option.mem_def.mp hvalue] at hr
    exact hanswer value (connected_eq_ok hr)
  refine hget.bind fun r hr => ?_
  cases r with
  | none => exact behaves_pure fun _ h => by cases h
  | some value =>
      obtain ⟨entry, hentry, hmark⟩ := (hr value rfl).decode
      refine behaves_attempt_bind hentry ?_
      refine does_utcNow.bind fun time _ => ?_
      split
      · exact behaves_pure fun _ h => by cases h
      · refine behaves_pure ?_
        rintro _ ⟨⟩
        exact hmark

theorem does_withTtl {r : Option ManagedEntry}
    (h : ∀ entry ∈ r, W collection text entry.value) :
    Does W (withTtl r) fun r => ∀ found ∈ r, W collection text found.1 := by
  cases r with
  | none => exact behaves_pure fun _ h => by cases h
  | some entry =>
      refine does_utcNow.bind fun time _ => behaves_pure ?_
      rintro _ ⟨⟩
      exact h entry rfl

theorem does_get (key : String) (c : Option String) :
    Does W (store.get key c) fun r =>
      ∀ value ∈ r, W (store.collectionName c) key value := by
  refine (does_getTree _).bind ?_
  rintro _ rfl
  refine (does_liveEntry _ key).bind fun r hr => behaves_pure ?_
  intro value hvalue
  obtain ⟨entry, hentry, rfl⟩ := Option.mem_map.mp hvalue
  exact hr entry hentry

theorem does_ttl (key : String) (c : Option String) :
    Does W (store.ttl key c) fun r =>
      ∀ found ∈ r, W (store.collectionName c) key found.1 := by
  refine (does_getTree _).bind ?_
  rintro _ rfl
  exact (does_liveEntry _ key).bind fun r hr => does_withTtl hr

theorem does_getEach (collection : String) (keys : List String) :
    Does W (getEach (treeName collection) keys) fun rs =>
      List.Forall₂ (fun key r => ∀ value ∈ r, W collection key value)
        keys rs := by
  induction keys with
  | nil => exact behaves_pure .nil
  | cons key keys ih =>
      refine (does_liveEntry _ key).bind fun r hr => ih.bind fun rs hrs => ?_
      refine behaves_pure (.cons ?_ hrs)
      intro value hvalue
      obtain ⟨entry, hentry, rfl⟩ := Option.mem_map.mp hvalue
      exact hr entry hentry

theorem does_ttlEach (collection : String) (keys : List String) :
    Does W (ttlEach (treeName collection) keys) fun rs =>
      List.Forall₂ (fun key (r : Option _) =>
        ∀ found ∈ r, W collection key found.1) keys rs := by
  induction keys with
  | nil => exact behaves_pure .nil
  | cons key keys ih =>
      refine (does_liveEntry _ key).bind fun r hr => ?_
      refine (does_withTtl hr).bind fun found hfound => ih.bind fun rs hrs => ?_
      exact behaves_pure (.cons hfound hrs)

theorem does_newEntry (value : Value) (ttl : Option F64) :
    Does W (newEntry value ttl) fun entry => entry.value = value := by
  refine does_utcNow.bind fun time _ => behaves_attempt ?_ ?_
  · exact fun entry => ManagedEntry.value_of_ofTtl
  · intro e he
    obtain ⟨text, rfl⟩ := ManagedEntry.ofTtl_error he
    trivial

theorem does_insertBytes {entry : ManagedEntry}
    (hmark : W collection text entry.value)
    (hstorable : entry.value.Storable) :
    Does W (insertBytes (treeName collection) (utf8 text) entry.encode)
      fun _ => True := by
  have hmay : May W (.insert (treeName collection) (utf8 text)
      entry.encode) := kept_encode hmark hstorable
  refine (behaves_access hmay).bind fun answer _ => ?_
  exact behaves_attempt (fun _ _ => trivial) fun e => excused_connected

theorem does_flushTree (collection : String) :
    Does W (flushTree (treeName collection)) fun _ => True := by
  refine (behaves_access ⟨collection, rfl⟩).bind fun answer _ => ?_
  exact behaves_attempt (fun _ _ => trivial) fun e => excused_connected

theorem does_put {key : String} {value : Value} {c : Option String}
    (ttl : Option F64) (hmark : W (store.collectionName c) key value)
    (hstorable : value.Storable) :
    Does W (store.put key value c ttl) fun _ => True := by
  refine (does_newEntry value ttl).bind ?_
  rintro entry rfl
  refine (does_getTree _).bind ?_
  rintro _ rfl
  exact (does_insertBytes hmark hstorable).bind fun _ _ => does_flushTree _

theorem does_newEntries {items : List (String × Value)} (ttl : Option F64)
    (h : ∀ item ∈ items, W collection item.1 item.2 ∧ item.2.Storable) :
    Does W (newEntries ttl items) fun entries => ∀ item ∈ entries,
      W collection item.1 item.2.value ∧ item.2.value.Storable := by
  induction items with
  | nil => exact behaves_pure (List.forall_mem_nil _)
  | cons item items ih =>
      obtain ⟨key, value⟩ := item
      refine (does_newEntry value ttl).bind ?_
      rintro entry rfl
      refine (ih fun item hitem => h item (List.mem_cons_of_mem _ hitem)).bind
        fun entries hentries => behaves_pure ?_
      intro item hitem
      rcases List.mem_cons.mp hitem with rfl | hitem
      · exact h (key, entry.value) (List.mem_cons_self ..)
      · exact hentries item hitem

theorem does_insertEach {entries : List (String × ManagedEntry)}
    (h : ∀ item ∈ entries,
      W collection item.1 item.2.value ∧ item.2.value.Storable) :
    Does W (insertEach (treeName collection) entries) fun _ => True := by
  induction entries with
  | nil => exact behaves_pure trivial
  | cons item entries ih =>
      obtain ⟨hmark, hstorable⟩ := h item (List.mem_cons_self ..)
      refine (does_insertBytes hmark hstorable).bind fun _ _ => ?_
      exact ih fun item hitem => h item (List.mem_cons_of_mem _ hitem)

theorem does_validateTtl (ttl : Option F64) :
    Does W (validateTtl ttl) fun _ => True := by
  cases ttl with
  | none => exact behaves_pure trivial
  | some seconds =>
      refine does_utcNow.bind fun time _ => ?_
      refine behaves_attempt (fun _ _ => trivial) fun e he => ?_
      unfold ManagedEntry.validateTtl at he
      cases hexpires : ManagedEntry.expirationAt time seconds with
      | ok expires =>
          simp [hexpires, bind, Except.bind, pure, Except.pure] at he
      | error e' =>
          obtain ⟨text, rfl⟩ := ManagedEntry.expirationAt_error hexpires
          simp only [hexpires, bind, Except.bind, Except.error.injEq] at he
          exact he ▸ trivial

theorem does_putMany {keys : List String} {values : List Value}
    {c : Option String} (ttl : Option F64)
    (h : ∀ item ∈ keys.zip values,
      W (store.collectionName c) item.1 item.2 ∧ item.2.Storable) :
    Does W (store.putMany keys values c ttl) fun _ => True := by
  unfold DiskStore.putMany
  split
  · trivial
  · refine (does_validateTtl ttl).bind fun _ _ => ?_
    refine (does_newEntries ttl h).bind fun entries hentries => ?_
    refine (does_getTree _).bind ?_
    rintro _ rfl
    exact (does_insertEach hentries).bind fun _ _ => does_flushTree _

theorem does_removeBytes (message collection : String) (key : Bytes) :
    Does W (removeBytes message (treeName collection) key) fun _ => True := by
  refine (behaves_access ⟨collection, rfl⟩).bind fun answer _ => ?_
  exact behaves_attempt (fun _ _ => trivial) fun e => excused_connected

theorem does_deleteEach (collection : String) (keys : List String) :
    Does W (deleteEach (treeName collection) keys) fun _ => True := by
  induction keys with
  | nil => exact behaves_pure trivial
  | cons key keys ih =>
      exact (does_removeBytes ..).bind fun _ _ => ih.bind fun _ _ =>
        behaves_pure trivial

theorem excused_readKeys {items : List (Answer (Bytes × Bytes))} {name : Bytes}
    (h : ∀ key value, .ok (key, value) ∈ items → Kept W name key value)
    {e : Error} (he : readKeys items = .error e) : Excused e := by
  induction items with
  | nil => cases he
  | cons item items ih =>
      cases item with
      | error u =>
          cases he
          trivial
      | ok item =>
          obtain ⟨-, text, -, -, hkey, -⟩ :=
            h item.1 item.2 (List.mem_cons_self ..)
          have hread : readKey item.1 = .ok text := by
            rw [readKey_eq_ok, hkey, ofUtf8_utf8]
          simp only [readKeys, connected, hread, bind, Except.bind] at he
          split at he
          · rename_i e' hrest
            cases he
            exact ih (fun key value hmem =>
              h key value (List.mem_cons_of_mem _ hmem)) hrest
          · cases he

theorem does_keys (c : Option String) (limit : Option Nat) :
    Does W (store.keys c limit) fun _ => True := by
  refine (does_getTree _).bind ?_
  rintro _ rfl
  refine (behaves_access ⟨_, rfl⟩).bind fun items hitems => ?_
  have hread : Does W (attempt (readKeys items)) fun _ => True :=
    behaves_attempt (fun _ _ => trivial) fun e => excused_readKeys hitems
  exact hread.bind fun _ _ => behaves_pure trivial

theorem exists_ownedTrees {names : List Bytes}
    (h : ∀ name ∈ names, Own name →
      ∃ collection, name = treeName collection) :
    ∃ trees, ownedTrees names = .ok trees := by
  induction names with
  | nil => exact ⟨[], rfl⟩
  | cons name names ih =>
      obtain ⟨trees, htrees⟩ := ih fun name hname =>
        h name (List.mem_cons_of_mem _ hname)
      have hname : ∃ tree, decodeTreeName name = .ok tree := by
        by_cases hown : Own name
        · obtain ⟨collection, rfl⟩ := h name (List.mem_cons_self ..) hown
          exact ⟨_, decodeTreeName_treeName collection⟩
        · exact ⟨none, decodeTreeName_foreign hown⟩
      obtain ⟨tree, htree⟩ := hname
      simp only [ownedTrees, htree, htrees, bind, Except.bind, pure,
        Except.pure]
      exact ⟨_, rfl⟩

theorem does_ownedTreeNames :
    Does W ownedTreeNames fun trees => ∀ tree ∈ trees,
      tree.1 = treeName tree.2 := by
  refine (behaves_access trivial).bind fun names hnames => ?_
  refine behaves_attempt (fun trees htrees tree htree => ?_) fun e he => ?_
  · exact ((ownedTrees_eq_ok htrees).2 tree htree).2
  · obtain ⟨trees, htrees⟩ := exists_ownedTrees hnames
    rw [htrees] at he
    cases he

theorem does_validateItems {items : List (Answer (Bytes × Bytes))}
    {name : Bytes}
    (h : ∀ key value, .ok (key, value) ∈ items → Kept W name key value) :
    Does W (validateItems items) fun _ => True := by
  induction items with
  | nil => exact behaves_pure trivial
  | cons item items ih =>
      have hrest := ih fun key value hmem =>
        h key value (List.mem_cons_of_mem _ hmem)
      cases item with
      | error u => exact trivial
      | ok item =>
          obtain ⟨-, text, entry, -, hkey, hentry, -⟩ :=
            h item.1 item.2 (List.mem_cons_self ..)
          have hread : readKey item.1 = .ok text := by
            rw [readKey_eq_ok, hkey, ofUtf8_utf8]
          refine behaves_attempt_bind rfl ?_
          refine behaves_attempt_bind hread ?_
          refine behaves_attempt_bind hentry ?_
          refine does_utcNow.bind fun time _ => hrest.bind fun _ _ => ?_
          exact behaves_pure trivial

theorem does_validateTreeEntries (collection : String) :
    Does W (validateTreeEntries (treeName collection)) fun _ => True :=
  (behaves_access ⟨collection, rfl⟩).bind fun _ hitems =>
    does_validateItems hitems

theorem does_collectExpired {trees : List (Bytes × String)}
    (h : ∀ tree ∈ trees, tree.1 = treeName tree.2) :
    Does W (collectExpired trees) fun expired => ∀ tree ∈ expired,
      ∃ collection, tree.1 = treeName collection := by
  induction trees with
  | nil => exact behaves_pure (List.forall_mem_nil _)
  | cons tree trees ih =>
      obtain ⟨name, collection⟩ := tree
      obtain rfl : name = treeName collection := h _ (List.mem_cons_self ..)
      refine (does_openTree collection).bind fun _ _ => ?_
      refine (does_validateTreeEntries collection).bind fun keys _ => ?_
      refine (ih fun tree htree => h tree (List.mem_cons_of_mem _ htree)).bind
        fun expired hexpired => behaves_pure ?_
      intro tree htree
      rcases List.mem_cons.mp htree with rfl | htree
      · exact ⟨collection, rfl⟩
      · exact hexpired tree htree

theorem does_removeKeys (collection : String) (keys : List Bytes) :
    Does W (removeKeys (treeName collection) keys) fun _ => True := by
  induction keys with
  | nil => exact behaves_pure trivial
  | cons key keys ih => exact (does_removeBytes ..).bind fun _ _ => ih

theorem does_removeExpired {expired : List (Bytes × List Bytes)}
    (h : ∀ tree ∈ expired, ∃ collection, tree.1 = treeName collection) :
    Does W (removeExpired expired) fun _ => True := by
  induction expired with
  | nil => exact behaves_pure trivial
  | cons tree expired ih =>
      obtain ⟨name, keys⟩ := tree
      obtain ⟨collection, rfl⟩ := h _ (List.mem_cons_self ..)
      refine (does_removeKeys collection keys).bind fun _ _ => ?_
      exact ih fun tree htree => h tree (List.mem_cons_of_mem _ htree)

theorem does_cull : Does W cull fun _ => True :=
  does_ownedTreeNames.bind fun _ htrees =>
    (does_collectExpired htrees).bind fun _ hexpired =>
      does_removeExpired hexpired

theorem does_dropTree (collection : String) :
    Does W (dropTree (treeName collection)) fun _ => True := by
  refine (behaves_access ⟨collection, rfl⟩).bind fun answer _ => ?_
  exact behaves_attempt (fun _ _ => trivial) fun e => excused_connected

theorem does_destroyCollection (collection : String) :
    Does W (destroyCollection collection) fun _ => True := by
  refine (behaves_access trivial).bind fun names _ => ?_
  split
  · refine (does_openTree collection).bind fun _ _ => ?_
    exact (does_validateTreeEntries collection).bind fun _ _ =>
      does_dropTree collection
  · exact behaves_pure trivial

theorem does_validateTrees {trees : List (Bytes × String)}
    (h : ∀ tree ∈ trees, tree.1 = treeName tree.2) :
    Does W (validateTrees trees) fun _ => True := by
  induction trees with
  | nil => exact behaves_pure trivial
  | cons tree trees ih =>
      obtain ⟨name, collection⟩ := tree
      obtain rfl : name = treeName collection := h _ (List.mem_cons_self ..)
      refine (does_openTree collection).bind fun _ _ => ?_
      refine (does_validateTreeEntries collection).bind fun _ _ => ?_
      exact ih fun tree htree => h tree (List.mem_cons_of_mem _ htree)

theorem does_dropTrees {trees : List (Bytes × String)}
    (h : ∀ tree ∈ trees, tree.1 = treeName tree.2) :
    Does W (dropTrees trees) fun _ => True := by
  induction trees with
  | nil => exact behaves_pure trivial
  | cons tree trees ih =>
      obtain ⟨name, collection⟩ := tree
      obtain rfl : name = treeName collection := h _ (List.mem_cons_self ..)
      refine (does_dropTree collection).bind fun _ _ => ?_
      exact ih fun tree htree => h tree (List.mem_cons_of_mem _ htree)

theorem does_destroy : Does W destroy fun _ => True :=
  does_ownedTreeNames.bind fun _ htrees =>
    (does_validateTrees htrees).bind fun _ _ =>
      (does_dropTrees htrees).bind fun _ _ => behaves_pure trivial

theorem does_delete (key : String) (c : Option String) :
    Does W (store.delete key c) fun _ => True := by
  refine (does_getTree _).bind ?_
  rintro _ rfl
  exact (does_removeBytes ..).bind fun _ _ => behaves_pure trivial

theorem does_deleteMany (keys : List String) (c : Option String) :
    Does W (store.deleteMany keys c) fun _ => True := by
  refine (does_getTree _).bind ?_
  rintro _ rfl
  exact does_deleteEach _ keys

theorem does_getMany (keys : List String) (c : Option String) :
    Does W (store.getMany keys c) fun rs => List.Forall₂ (fun key r =>
      ∀ value ∈ r, W (store.collectionName c) key value) keys rs := by
  refine (does_getTree _).bind ?_
  rintro _ rfl
  exact does_getEach _ keys

theorem does_ttlMany (keys : List String) (c : Option String) :
    Does W (store.ttlMany keys c) fun rs =>
      List.Forall₂ (fun key (r : Option _) =>
        ∀ found ∈ r, W (store.collectionName c) key found.1) keys rs := by
  refine (does_getTree _).bind ?_
  rintro _ rfl
  exact does_ttlEach _ keys

theorem does_collections (limit : Option Nat) :
    Does W (DiskStore.collections limit) fun _ => True :=
  does_ownedTreeNames.bind fun _ _ => behaves_pure trivial

theorem does_perform (task : Task W) :
    Does W (perform task.store task.call)
      (Returns W task.store task.call) := by
  obtain ⟨store, call, hputs⟩ := task
  cases call with
  | get key c => exact (does_get key c).bind fun _ h => behaves_pure h
  | ttl key c => exact (does_ttl key c).bind fun _ h => behaves_pure h
  | put key value c ttl =>
      exact (does_put ttl hputs.1 hputs.2).bind fun _ _ => behaves_pure trivial
  | delete key c =>
      exact (does_delete key c).bind fun _ _ => behaves_pure trivial
  | getMany keys c =>
      exact (does_getMany keys c).bind fun _ h => behaves_pure h
  | ttlMany keys c =>
      exact (does_ttlMany keys c).bind fun _ h => behaves_pure h
  | putMany keys values c ttl =>
      exact (does_putMany ttl hputs).bind fun _ _ => behaves_pure trivial
  | deleteMany keys c =>
      exact (does_deleteMany keys c).bind fun _ _ => behaves_pure trivial
  | cull => exact does_cull.bind fun _ _ => behaves_pure trivial
  | keys c limit =>
      exact (does_keys c limit).bind fun _ _ => behaves_pure trivial
  | collections limit =>
      exact (does_collections limit).bind fun _ _ => behaves_pure trivial
  | destroyCollection collection =>
      exact (does_destroyCollection collection).bind fun _ _ =>
        behaves_pure trivial
  | destroy => exact does_destroy.bind fun _ _ => behaves_pure trivial

end Does

/-! ## Any number of calls -/

abbrev CallPool (W : Marking) :=
  Pool State (Task W) Access.Answer (Except Error Reply)

/-- Another program gives one of its own trees these contents, or drops it. -/
structure Outside where
  name : Bytes
  tree : Option Tree
  foreign : ¬ Own name

def Outside.happen (event : Outside) (s : State) : Option State :=
  some { s with
    db := match event.tree with
      | some tree => s.db.insert event.name tree
      | none => s.db.erase event.name }

section Pools

variable (W : Marking)

def program (task : Task W) : Interaction Access.Answer (Except Error Reply) :=
  (perform task.store task.call).run

def step : CallPool W → Pool.Label (Task W) Choice Outside →
    Option (CallPool W) :=
  Pool.step (program W) (fun _ => handle) Outside.happen

def Finishes (task : Task W) : Except Error Reply → Prop
  | .ok reply => Returns W task.store task.call reply
  | .error error => Excused error

/-- A step has changed trees of the store only, and what is in them now is
kept. -/
def Changes (s s' : State) : Prop :=
  ∀ name, s'.db.lookup name = s.db.lookup name ∨
    (∃ collection, name = treeName collection) ∧
      ∀ tree, s'.db.lookup name = some tree → ∀ key value,
        tree.lookup key = some value → Kept W name key value

end Pools

section Served

variable {W : Marking} {s s' : State} {name key value : Bytes} {tree : Tree}

theorem Changes.inOrder (h : Changes W s s') (hs : InOrder W s) :
    InOrder W s' := by
  constructor
  case named =>
    intro name tree hown htree
    rcases h name with heq | ⟨hname, -⟩
    · exact hs.named name tree hown (heq ▸ htree)
    · exact hname
  case kept =>
    intro name tree key value hown htree hvalue
    rcases h name with heq | ⟨-, hkept⟩
    · exact hs.kept name tree key value hown (heq ▸ htree) hvalue
    · exact hkept tree htree key value hvalue

theorem Changes.foreign (h : Changes W s s') (hforeign : ¬ Own name) :
    s'.db.lookup name = s.db.lookup name := by
  rcases h name with heq | ⟨⟨collection, rfl⟩, -⟩
  · exact heq
  · exact (hforeign (own_treeName collection)).elim

theorem changes_same (h : s'.db = s.db) : Changes W s s' :=
  fun _ => .inl (by rw [h])

theorem changes_insert {collection : String}
    (h : ∀ key value, tree.lookup key = some value →
      Kept W (treeName collection) key value) :
    Changes W s { s with db := s.db.insert (treeName collection) tree } := by
  intro name
  by_cases hname : name = treeName collection
  · refine .inr ⟨⟨collection, hname⟩, fun found hfound => ?_⟩
    simp only [KeyedMap.lookup_insert_eq, if_pos hname,
      Option.some.injEq] at hfound
    subst hfound hname
    exact h
  · refine .inl ?_
    simp only [KeyedMap.lookup_insert_eq, if_neg hname]

theorem changes_serve (hs : InOrder W s) {a : Access} (hmay : May W a)
    (order : List Bytes → List Bytes) : Changes W s (serve order a s).2 := by
  cases a with
  | treeNames | get | iter | flush | now => exact changes_same rfl
  | openTree name =>
      obtain ⟨collection, rfl⟩ := hmay
      simp only [serve, Database.openTree]
      split
      · exact changes_same rfl
      · exact changes_insert fun key value h => by cases h
  | insert tree key value =>
      obtain ⟨collection, rfl⟩ := hmay.own
      simp only [serve]
      split
      · rename_i found hfound
        refine changes_insert fun other old hold => ?_
        rw [KeyedMap.lookup_insert_eq] at hold
        split at hold
        · rename_i hother
          cases hold
          exact hother ▸ hmay
        · exact hs.kept _ found other old (own_treeName collection) hfound hold
      · exact changes_same rfl
  | remove tree key =>
      obtain ⟨collection, rfl⟩ := hmay
      simp only [serve]
      split
      · rename_i found hfound
        refine changes_insert fun other old hold => ?_
        rw [KeyedMap.lookup_erase_eq] at hold
        split at hold
        · cases hold
        · exact hs.kept _ found other old (own_treeName collection) hfound hold
      · exact changes_same rfl
  | dropTree name =>
      obtain ⟨collection, rfl⟩ := hmay
      intro name
      simp only [serve, KeyedMap.lookup_erase_eq]
      split
      · rename_i hname
        exact .inr ⟨⟨collection, hname⟩, fun _ h => by cases h⟩
      · exact .inl rfl

theorem changes_settle {α : Type} {fault : Option Bool}
    {outcome result : Answer α × State}
    (h : settle fault outcome s = result) (houtcome : Changes W s outcome.2) :
    Changes W s result.2 := by
  rcases settle_cases h with rfl | ⟨-, heq | heq⟩
  · exact houtcome
  · rw [heq]
    exact houtcome
  · rw [heq]
    exact changes_same rfl

theorem changes_handle {choice : Choice} {a : Access} {answer : a.Answer}
    (hs : InOrder W s) (hmay : May W a)
    (h : handle choice a s = some (answer, s')) : Changes W s s' := by
  cases a with
  | treeNames | now =>
      simp only [handle] at h
      split at h <;> cases h
      exact changes_same rfl
  | iter =>
      cases h
      exact changes_same rfl
  | openTree | get | insert | remove | flush | dropTree =>
      exact changes_settle (Option.some.inj h) (changes_serve hs hmay id)

theorem sound_handle {choice : Choice} {a : Access} {answer : a.Answer}
    (hs : InOrder W s) (hmay : May W a)
    (h : handle choice a s = some (answer, s')) : SoundAnswer W a answer := by
  cases a with
  | openTree | insert | remove | flush | dropTree | now => trivial
  | treeNames =>
      simp only [handle] at h
      split at h <;> cases h
      rename_i hperm
      intro name hname hown
      obtain ⟨tree, htree⟩ := KeyedMap.mem_keys_iff.mp (hperm.mem_iff.mp hname)
      exact hs.named name tree hown htree
  | get tree key =>
      obtain ⟨collection, rfl⟩ := hmay
      rintro value rfl
      rcases settle_cases (Option.some.inj h) with heq | ⟨herror, -⟩
      · simp only [serve, Prod.mk.injEq] at heq
        obtain ⟨hanswer, -⟩ := heq
        split at hanswer
        · rename_i found hfound
          cases hvalue : found.lookup key <;> rw [hvalue] at hanswer <;>
            cases hanswer
          exact hs.kept _ found key value (own_treeName collection) hfound
            hvalue
        · cases hanswer
      · cases herror
  | iter tree =>
      obtain ⟨collection, rfl⟩ := hmay
      cases h
      intro key value hmem
      have hvalue := mem_items.mp (mem_of_mem_spoil hmem)
      cases htree : s.db.lookup (treeName collection) with
      | none =>
          rw [Database.tree, htree] at hvalue
          cases hvalue
      | some found =>
          rw [Database.tree, htree] at hvalue
          exact hs.kept _ found key value (own_treeName collection) htree
            hvalue

theorem inOrder_happen {event : Outside} (hs : InOrder W s)
    (h : event.happen s = some s') : InOrder W s' := by
  obtain ⟨name, tree, hforeign⟩ := event
  cases h
  have hsame : ∀ other, Own other →
      (match tree with
        | some tree => s.db.insert name tree
        | none => s.db.erase name : Database).lookup other =
          s.db.lookup other := by
    intro other hother
    have hne : other ≠ name := fun heq => hforeign (heq ▸ hother)
    cases tree with
    | none => exact (KeyedMap.lookup_erase_eq ..).trans (if_neg hne)
    | some tree => exact (KeyedMap.lookup_insert_eq ..).trans (if_neg hne)
  constructor
  case named =>
    intro other found hown hfound
    exact hs.named other found hown (hsame other hown ▸ hfound)
  case kept =>
    intro other found key value hown hfound
    exact hs.kept other found key value hown (hsame other hown ▸ hfound)

end Served

section Theorem

variable {W : Marking} {s : State} {pool : CallPool W}
  {labels : List (Pool.Label (Task W) Choice Outside)}

abbrev Steady (pool : CallPool W) : Prop :=
  Pool.Trusting (May W) (SoundAnswer W) (InOrder W) (Finishes W) pool

theorem trusts_program (task : Task W) :
    Trusts (May W) (SoundAnswer W) (Finishes W task) (program W task) := by
  refine Trusts.mono (fun r hr => ?_) (does_perform task)
  cases r with
  | ok reply => exact hr
  | error error => exact hr

theorem served_handle :
    Pool.Served (fun _ => handle) (May W) (SoundAnswer W) (InOrder W) :=
  fun _ _ _ _ _ _ hs hmay h =>
    ⟨(changes_handle hs hmay h).inOrder hs, sound_handle hs hmay h⟩

theorem steady_step {pool' : CallPool W} {label}
    (h : Steady pool) (hstep : step W pool label = some pool') :
    Steady pool' :=
  h.step trusts_program served_handle (fun _ _ _ => inOrder_happen) hstep

def SparesForeign (pool : CallPool W)
    (label : Pool.Label (Task W) Choice Outside) : Prop :=
  ∀ pool', step W pool label = some pool' →
    (∀ event, label ≠ .outside event) → ∀ name, ¬ Own name →
      pool'.shared.db.lookup name = pool.shared.db.lookup name

theorem Steady.sparesForeign (h : Steady pool)
    (label : Pool.Label (Task W) Choice Outside) :
    SparesForeign pool label := by
  intro pool' hstep hcall name hforeign
  cases label with
  | start task call =>
      obtain ⟨-, rfl⟩ := Pool.step_start hstep
      rfl
  | advance task choice =>
      obtain ⟨call, access, next, answer, s, htask, hhandle, rfl⟩ :=
        Pool.step_advance hstep
      have hmay : May W access := h.next (by rw [Pool.next, htask])
      exact (changes_handle h.shared hmay hhandle).foreign hforeign
  | outside event => exact (hcall event rfl).elim

/-- Whatever calls run beside each other, and whichever requests fail: reads
return what was put under their key, no call is refused for what the store has
written, and the trees of others stay as they are. -/
theorem database_in_order (hnew : ∀ name, Own name → s.db.lookup name = none)
    (hrun : run (step W) (Pool.idle s) labels = some pool) :
    (∀ task call result, pool.tasks task = some (call, .done result) →
      Finishes W call result) ∧
    InOrder W pool.shared ∧
    Along (step W) SparesForeign (Pool.idle s) labels := by
  have hstart : Steady (Pool.idle s : CallPool W) := by
    refine Pool.trusting_idle ⟨fun name tree hown htree => ?_,
      fun name tree _ _ hown htree => ?_⟩
    all_goals
      rw [hnew name hown] at htree
      cases htree
  have hend : Steady pool :=
    run_invariant (fun _ _ _ h _ hstep => steady_step h hstep) hstart
      (along_true _ _) hrun
  refine ⟨fun task call result htask => ?_, hend.shared, ?_⟩
  · exact hend.tasks task call _ htask
  · exact along_of_invariant (fun _ _ _ h _ hstep => steady_step h hstep)
      (fun _ label h _ => h.sparesForeign label) hstart (along_true _ _)

end Theorem

def onlyTrue : Marking :=
  fun collection key value => collection = "c" ∧ key = "k" ∧ value = .bool true

def putTask : Task onlyTrue where
  store := ⟨"c"⟩
  call := .put "k" (.bool true) none none
  puts := ⟨⟨rfl, rfl, rfl⟩, by decide +kernel, by decide⟩

def getTask : Task onlyTrue where
  store := ⟨"d"⟩
  call := .get "k" (some "c")
  puts := trivial

def fine : Choice := ⟨none, fun _ => false, [], .epoch⟩

def written : Option (CallPool onlyTrue) :=
  run (step onlyTrue) (Pool.idle ⟨∅, .epoch⟩)
    [.start 0 putTask, .advance 0 fine, .advance 0 fine, .advance 0 fine,
      .advance 0 fine, .start 1 getTask, .advance 1 fine, .advance 1 fine,
      .advance 1 fine]

theorem isSome_written : written.isSome = true := by decide +kernel

def answer (pool : CallPool onlyTrue) (task : Nat) :
    Option (Except Error Reply) :=
  match pool.tasks task with
  | some (_, .done result) => some result
  | _ => none

theorem database_in_order_written :
    InOrder onlyTrue (written.get isSome_written).shared ∧
      ∃ task result, result = .ok (.value (some (.bool true))) ∧
        (written.get isSome_written).tasks 1 = some (task, .done result) ∧
          Finishes onlyTrue task result := by
  obtain ⟨hresults, hinOrder, -⟩ := @database_in_order onlyTrue ⟨∅, .epoch⟩ _ _
    (fun _ _ => rfl) (Option.some_get isSome_written).symm
  refine ⟨hinOrder, ?_⟩
  have hanswer : answer (written.get isSome_written) 1 =
      some (.ok (.value (some (.bool true)))) := by decide +kernel
  unfold answer at hanswer
  split at hanswer
  · rename_i task result htask
    exact ⟨task, result, Option.some.inj hanswer, htask,
      hresults 1 task result htask⟩
  · cases hanswer

end OpenKeyV.Sled
