import OpenKeyV.Sled.Database

/-!
# What `DiskStore` removes

`cull`, `destroy_collection` and `destroy` read everything that they are about
to remove before they remove any of it.  Whatever the database holds and
whichever requests fail, nothing is lost but what they were asked to remove.
-/

namespace OpenKeyV.Sled

open Library Library.Interaction DiskStore

/-! ## Calls alone -/

/-- Every run of the call alone ends as `post` says, whatever fails. -/
def Ends {α : Type} (post : Except Error α → State → Prop)
    (call : Requests α) (s : State) : Prop :=
  Ensures handle (fun _ _ _ => True) post call.run s

section Ends

variable {α β : Type} {s : State} {db : Database} {name : Bytes}

theorem ends_pure {post : Except Error α → State → Prop} {a : α}
    (h : post (.ok a) s) : Ends post (pure a) s :=
  ensures_done h

theorem ends_attempt {post : Except Error α → State → Prop}
    {r : Except Error α} (h : post r s) : Ends post (attempt r) s :=
  ensures_done h

theorem Ends.mono {post post' : Except Error α → State → Prop}
    {call : Requests α} (himp : ∀ r s', post r s' → post' r s')
    (h : Ends post call s) : Ends post' call s :=
  Ensures.mono himp h

theorem ends_bind {post : Except Error β → State → Prop} {call : Requests α}
    {f : α → Requests β}
    (h : Ends (fun r s' => match r with
      | .ok a => Ends post (f a) s'
      | .error e => post (.error e) s') call s) :
    Ends post (call >>= f) s := by
  refine ensures_bind_run (Ensures.mono (fun r s' hr => ?_) h)
  cases r with
  | ok a => exact hr
  | error e => exact ensures_done hr

theorem ends_access {post : Except Error β → State → Prop} {a : Access}
    {f : a.Answer → Requests β}
    (h : ∀ choice answer s', handle choice a s = some (answer, s') →
      Ends post (f answer) s') :
    Ends post (access a >>= f) s :=
  ensures_access_bind fun choice answer s' _ hhandle =>
    h choice answer s' hhandle

theorem ends_utcNow {post : Except Error β → State → Prop}
    {f : DateTime → Requests β}
    (h : ∀ time, s.clock ≤ time → Ends post (f time) { s with clock := time }) :
    Ends post (utcNow >>= f) s := by
  refine ends_access fun choice answer s' hhandle => ?_
  simp only [handle] at hhandle
  split at hhandle
  · rename_i hle
    cases hhandle
    exact h _ hle
  · cases hhandle

theorem ends_openTree {tree : Tree} (h : s.db.lookup name = some tree) :
    Ends (fun _ s' => s' = s) (openTree name) s := by
  refine ends_access fun choice answer s' hhandle => ends_attempt ?_
  simp only [handle, Option.some.injEq] at hhandle
  have hsame : (serve id (.openTree name) s).2 = s := by
    rw [serve, openTree_of_some h]
  rcases settle_cases hhandle with heq | ⟨-, heq | heq⟩
  · rw [← hsame, ← heq]
  · rw [← hsame]
    exact heq
  · exact heq

end Ends

/-! ## Reading a tree before it is changed -/

def ReadableItem (item : Bytes × Bytes) : Prop :=
  (∃ text, ofUtf8 item.1 = some text) ∧
    ∃ entry, ManagedEntry.decode item.2 = .ok entry

/-- Every key is text, and every value an entry. -/
def Readable (tree : Tree) : Prop :=
  ∀ key value, tree.lookup key = some value → ReadableItem (key, value)

def ExpiredItem (time : DateTime) (item : Bytes × Bytes) : Prop :=
  ∃ entry, ManagedEntry.decode item.2 = .ok entry ∧
    entry.isExpired time = true

def ExpiredIn (db : Database) (name key : Bytes) (time : DateTime) : Prop :=
  ∃ value, (db.tree name).lookup key = some value ∧
    ExpiredItem time (key, value)

theorem ExpiredItem.mono {time later : DateTime} {item : Bytes × Bytes}
    (hle : time ≤ later) (h : ExpiredItem time item) :
    ExpiredItem later item := by
  obtain ⟨entry, hentry, hexpired⟩ := h
  exact ⟨entry, hentry, ManagedEntry.isExpired_mono hle hexpired⟩

theorem ExpiredIn.mono {db : Database} {name key : Bytes}
    {time later : DateTime} (hle : time ≤ later)
    (h : ExpiredIn db name key time) : ExpiredIn db name key later := by
  obtain ⟨value, hvalue, hexpired⟩ := h
  exact ⟨value, hvalue, hexpired.mono hle⟩

/-- The keys are those whose entries have expired, read between two times. -/
structure Validated (db : Database) (name : Bytes) (first last : DateTime)
    (keys : List Bytes) : Prop where
  readable : Readable (db.tree name)
  expired : ∀ key ∈ keys, ExpiredIn db name key last
  complete : ∀ key, ExpiredIn db name key first → key ∈ keys

theorem Validated.mono {db : Database} {name : Bytes}
    {first first' last last' : DateTime} {keys : List Bytes}
    (hfirst : first ≤ first') (hlast : last' ≤ last)
    (h : Validated db name first' last' keys) :
    Validated db name first last keys :=
  ⟨h.readable, fun key hkey => (h.expired key hkey).mono hlast,
    fun key hkey => h.complete key (hkey.mono hfirst)⟩

theorem readKey_eq_ok {key : Bytes} {text : String} :
    readKey key = .ok text ↔ ofUtf8 key = some text := by
  unfold readKey
  split <;> simp_all

structure ItemsRead (items : List (Answer (Bytes × Bytes)))
    (first last : DateTime) (keys : List Bytes) : Prop where
  readable : ∀ item ∈ items, ∃ found, item = .ok found ∧ ReadableItem found
  expired : ∀ key ∈ keys, ∃ value, .ok (key, value) ∈ items ∧
    ExpiredItem last (key, value)
  complete : ∀ key value, .ok (key, value) ∈ items →
    ExpiredItem first (key, value) → key ∈ keys

def Untouched (s s' : State) : Prop := s'.db = s.db ∧ s.clock ≤ s'.clock

theorem Untouched.refl (s : State) : Untouched s s := ⟨rfl, Int.le_refl _⟩

theorem Untouched.trans {s s' s'' : State} (h : Untouched s s')
    (h' : Untouched s' s'') : Untouched s s'' :=
  ⟨h'.1.trans h.1, Int.le_trans h.2 h'.2⟩

theorem ends_validateItems (items : List (Answer (Bytes × Bytes)))
    (s : State) :
    Ends (fun r s' => Untouched s s' ∧ ∀ keys, r = .ok keys →
      ItemsRead items s.clock s'.clock keys) (validateItems items) s := by
  induction items generalizing s with
  | nil =>
      refine ends_pure ⟨.refl s, ?_⟩
      rintro _ ⟨⟩
      exact ⟨nofun, nofun, nofun⟩
  | cons item items ih =>
      rw [validateItems]
      cases item with
      | error e => exact ends_bind (ends_attempt ⟨.refl s, nofun⟩)
      | ok item =>
          obtain ⟨key, value⟩ := item
          refine ends_bind (ends_attempt (ends_bind (ends_attempt ?_)))
          cases htext : readKey key with
          | error e => exact ⟨.refl s, nofun⟩
          | ok text =>
              refine ends_bind (ends_attempt ?_)
              cases hentry : ManagedEntry.decode value with
              | error e => exact ⟨.refl s, nofun⟩
              | ok entry =>
                  refine ends_utcNow fun time hle => ends_bind ?_
                  have hfirst : Untouched s { s with clock := time } :=
                    ⟨rfl, hle⟩
                  refine (ih { s with clock := time }).mono fun r s' hr => ?_
                  obtain ⟨hsame, hkeys⟩ := hr
                  cases r with
                  | error e => exact ⟨hfirst.trans hsame, nofun⟩
                  | ok expired =>
                      refine ends_pure ⟨hfirst.trans hsame, ?_⟩
                      rintro _ ⟨⟩
                      exact itemsRead_cons hle hsame.2 (hkeys _ rfl)
                        (readKey_eq_ok.mp htext) hentry
where
  itemsRead_cons {items : List (Answer (Bytes × Bytes))} {key value : Bytes}
      {text : String} {entry : ManagedEntry} {first time last : DateTime}
      {keys : List Bytes} (hfirst : first ≤ time) (hlast : time ≤ last)
      (h : ItemsRead items time last keys) (htext : ofUtf8 key = some text)
      (hentry : ManagedEntry.decode value = .ok entry) :
      ItemsRead (.ok (key, value) :: items) first last
        (if entry.isExpired time then key :: keys else keys) := by
    constructor
    case readable =>
      intro item hitem
      rcases List.mem_cons.mp hitem with rfl | hitem
      · exact ⟨_, rfl, ⟨text, htext⟩, entry, hentry⟩
      · exact h.readable item hitem
    case expired =>
      intro other hother
      have hcases : (other = key ∧ entry.isExpired time = true) ∨
          other ∈ keys := by
        split at hother
        · rename_i hexpired
          exact (List.mem_cons.mp hother).imp_left fun heq => ⟨heq, hexpired⟩
        · exact .inr hother
      rcases hcases with ⟨rfl, hexpired⟩ | hother
      · exact ⟨value, List.mem_cons_self .., entry, hentry,
          ManagedEntry.isExpired_mono hlast hexpired⟩
      · obtain ⟨found, hfound, hexpired⟩ := h.expired other hother
        exact ⟨found, List.mem_cons_of_mem _ hfound, hexpired⟩
    case complete =>
      intro other found hmem hexpired
      rcases List.mem_cons.mp hmem with heq | hmem
      · cases heq
        obtain ⟨found, hfound, hexpired⟩ := hexpired
        cases hentry.symm.trans hfound
        rw [if_pos (ManagedEntry.isExpired_mono hfirst hexpired)]
        exact List.mem_cons_self ..
      · have hlater := h.complete other found hmem (hexpired.mono hfirst)
        split
        · exact List.mem_cons_of_mem _ hlater
        · exact hlater

theorem ItemsRead.validated {db : Database} {name : Bytes}
    {faulty : Nat → Bool} {first last : DateTime} {keys : List Bytes}
    (h : ItemsRead (spoil faulty (db.items name)) first last keys) :
    Validated db name first last keys := by
  have hall : ∀ item ∈ db.items name,
      .ok item ∈ spoil faulty (db.items name) ∧ ReadableItem item := by
    intro item hitem
    obtain ⟨n, hn, rfl⟩ := List.mem_iff_getElem.mp hitem
    have hlen : n < (spoil faulty (db.items name)).length := by
      rw [length_spoil]
      exact hn
    have hmem := List.getElem_mem hlen
    obtain ⟨found, heq, hreadable⟩ := h.readable _ hmem
    have hfound : found = (db.items name)[n] := by
      simp only [spoil, List.getElem_mapIdx] at heq
      split at heq <;> cases heq
      rfl
    subst hfound
    rw [heq] at hmem
    exact ⟨hmem, hreadable⟩
  constructor
  case readable =>
    intro key value hvalue
    exact (hall (key, value) (mem_items.mpr hvalue)).2
  case expired =>
    intro key hkey
    obtain ⟨value, hmem, hexpired⟩ := h.expired key hkey
    exact ⟨value, mem_items.mp (mem_of_mem_spoil hmem), hexpired⟩
  case complete =>
    rintro key ⟨value, hvalue, hexpired⟩
    exact h.complete key value (hall _ (mem_items.mpr hvalue)).1 hexpired

theorem ends_validateTreeEntries (name : Bytes) (s : State) :
    Ends (fun r s' => Untouched s s' ∧ ∀ keys, r = .ok keys →
      Validated s.db name s.clock s'.clock keys)
      (validateTreeEntries name) s := by
  refine ends_access fun choice answer s' hhandle => ?_
  cases hhandle
  refine (ends_validateItems _ s).mono fun r s' hr => ⟨hr.1, ?_⟩
  exact fun keys hkeys => (hr.2 keys hkeys).validated

/-! ## The trees of the store -/

/-- Every tree of the store has the name of a collection, and can be read. -/
def Intact (db : Database) : Prop :=
  ∀ name tree, Own name → db.lookup name = some tree →
    (∃ collection, name = treeName collection) ∧ Readable tree

theorem ownedTrees_eq_ok {names : List Bytes}
    {trees : List (Bytes × String)} (h : ownedTrees names = .ok trees) :
    (∀ name ∈ names, Own name → ∃ collection, name = treeName collection ∧
        (name, collection) ∈ trees) ∧
      ∀ tree ∈ trees, tree.1 ∈ names ∧ tree.1 = treeName tree.2 := by
  induction names generalizing trees with
  | nil =>
      cases h
      exact ⟨nofun, nofun⟩
  | cons name names ih =>
      obtain ⟨tree, htree, h⟩ := bind_eq_ok.mp h
      obtain ⟨rest, hrest, h⟩ := bind_eq_ok.mp h
      cases h
      obtain ⟨hown, hmem⟩ := ih hrest
      rcases decodeTreeName_eq_ok.mp htree with
        ⟨rfl, hforeign⟩ | ⟨collection, rfl, hname⟩
      · refine ⟨fun other hother => ?_, fun tree htree => ?_⟩
        · rcases List.mem_cons.mp hother with rfl | hother
          · exact fun h => (hforeign h).elim
          · exact hown other hother
        · exact ⟨List.mem_cons_of_mem _ (hmem tree htree).1,
            (hmem tree htree).2⟩
      · refine ⟨fun other hother hotherOwn => ?_, fun tree htree => ?_⟩
        · rcases List.mem_cons.mp hother with rfl | hother
          · exact ⟨collection, hname, List.mem_cons_self ..⟩
          · obtain ⟨found, hfound, hin⟩ := hown other hother hotherOwn
            exact ⟨found, hfound, List.mem_cons_of_mem _ hin⟩
        · rcases List.mem_cons.mp htree with rfl | htree
          · exact ⟨List.mem_cons_self .., hname⟩
          · exact ⟨List.mem_cons_of_mem _ (hmem tree htree).1,
              (hmem tree htree).2⟩

structure Listed (db : Database) (trees : List (Bytes × String)) : Prop where
  complete : ∀ name tree, Own name → db.lookup name = some tree →
    ∃ collection, name = treeName collection ∧ (name, collection) ∈ trees
  present : ∀ tree ∈ trees, Own tree.1 ∧ ∃ found, db.lookup tree.1 = some found

theorem ends_ownedTreeNames (s : State) :
    Ends (fun r s' => s' = s ∧ ∀ trees, r = .ok trees → Listed s.db trees)
      ownedTreeNames s := by
  refine ends_access fun choice answer s' hhandle => ?_
  simp only [handle] at hhandle
  split at hhandle
  · rename_i hperm
    cases hhandle
    refine ends_attempt ⟨rfl, fun trees htrees => ?_⟩
    obtain ⟨hown, hmem⟩ := ownedTrees_eq_ok htrees
    constructor
    · intro name tree hownName htree
      have hname : name ∈ choice.order :=
        hperm.mem_iff.mpr (KeyedMap.mem_keys_iff.mpr ⟨tree, htree⟩)
      exact hown name hname hownName
    · intro tree htree
      obtain ⟨hname, heq⟩ := hmem tree htree
      refine ⟨heq ▸ own_treeName tree.2, ?_⟩
      exact KeyedMap.mem_keys_iff.mp (hperm.mem_iff.mp hname)
  · cases hhandle

theorem Listed.intact {db : Database} {trees : List (Bytes × String)}
    (h : Listed db trees)
    (hreadable : ∀ tree ∈ trees, Readable (db.tree tree.1)) : Intact db := by
  intro name tree hown htree
  obtain ⟨collection, hname, hmem⟩ := h.complete name tree hown htree
  refine ⟨⟨collection, hname⟩, ?_⟩
  have hread := hreadable _ hmem
  rwa [Database.tree, htree] at hread

theorem ends_collectExpired {trees : List (Bytes × String)} {s : State}
    (h : ∀ tree ∈ trees, ∃ found, s.db.lookup tree.1 = some found) :
    Ends (fun r s' => Untouched s s' ∧ ∀ expired, r = .ok expired →
      expired.map Prod.fst = trees.map Prod.fst ∧
        ∀ tree ∈ expired, Validated s.db tree.1 s.clock s'.clock tree.2)
      (collectExpired trees) s := by
  induction trees generalizing s with
  | nil =>
      refine ends_pure ⟨.refl s, ?_⟩
      rintro _ ⟨⟩
      exact ⟨rfl, nofun⟩
  | cons tree trees ih =>
      obtain ⟨name, collection⟩ := tree
      obtain ⟨found, hfound⟩ := h (name, collection) (List.mem_cons_self ..)
      refine ends_bind ((ends_openTree hfound).mono fun r s' hr => ?_)
      subst hr
      cases r with
      | error e => exact ⟨.refl _, nofun⟩
      | ok _ =>
          refine ends_bind ((ends_validateTreeEntries name s').mono
            fun r t hr => ?_)
          obtain ⟨hsame, hkeys⟩ := hr
          cases r with
          | error e => exact ⟨hsame, nofun⟩
          | ok keys =>
              have hrest : ∀ tree ∈ trees,
                  ∃ found, t.db.lookup tree.1 = some found := by
                rw [hsame.1]
                exact fun tree htree => h tree (List.mem_cons_of_mem _ htree)
              refine ends_bind ((ih hrest).mono fun r u hr => ?_)
              obtain ⟨hsame', hexpired⟩ := hr
              cases r with
              | error e => exact ⟨hsame.trans hsame', nofun⟩
              | ok expired =>
                  refine ends_pure ⟨hsame.trans hsame', ?_⟩
                  rintro _ ⟨⟩
                  obtain ⟨hnames, hvalid⟩ := hexpired _ rfl
                  refine ⟨congrArg (List.cons name) hnames, ?_⟩
                  intro other hother
                  rcases List.mem_cons.mp hother with rfl | hother
                  · exact (hkeys _ rfl).mono (Int.le_refl _) hsame'.2
                  · rw [← hsame.1]
                    exact (hvalid other hother).mono hsame.2 (Int.le_refl _)

theorem ends_validateTrees {trees : List (Bytes × String)} {s : State}
    (h : ∀ tree ∈ trees, ∃ found, s.db.lookup tree.1 = some found) :
    Ends (fun r s' => Untouched s s' ∧
      (r = .ok () → ∀ tree ∈ trees, Readable (s.db.tree tree.1)))
      (validateTrees trees) s := by
  induction trees generalizing s with
  | nil => exact ends_pure ⟨.refl s, fun _ => nofun⟩
  | cons tree trees ih =>
      obtain ⟨name, collection⟩ := tree
      obtain ⟨found, hfound⟩ := h (name, collection) (List.mem_cons_self ..)
      refine ends_bind ((ends_openTree hfound).mono fun r s' hr => ?_)
      subst hr
      cases r with
      | error e => exact ⟨.refl _, nofun⟩
      | ok _ =>
          refine ends_bind ((ends_validateTreeEntries name s').mono
            fun r t hr => ?_)
          obtain ⟨hsame, hkeys⟩ := hr
          cases r with
          | error e => exact ⟨hsame, nofun⟩
          | ok keys =>
              have hrest : ∀ tree ∈ trees,
                  ∃ found, t.db.lookup tree.1 = some found := by
                rw [hsame.1]
                exact fun tree htree => h tree (List.mem_cons_of_mem _ htree)
              refine (ih hrest).mono fun r u hr => ⟨hsame.trans hr.1, ?_⟩
              intro hok other hother
              rcases List.mem_cons.mp hother with rfl | hother
              · exact (hkeys _ rfl).readable
              · have hread := hr.2 hok other hother
                rwa [hsame.1] at hread

/-! ## Removing keys -/

/-- Nothing has changed but that some of these entries are gone. -/
structure Pruned (removed : Bytes → Bytes → Prop) (db db' : Database) :
    Prop where
  trees : ∀ name, (db'.lookup name).isSome = (db.lookup name).isSome
  others : ∀ name, (∀ key, ¬ removed name key) →
    db'.lookup name = db.lookup name
  entries : ∀ name key,
    (db'.tree name).lookup key = (db.tree name).lookup key ∨
      (db'.tree name).lookup key = none ∧ removed name key

namespace Pruned

variable {removed removed' : Bytes → Bytes → Prop} {db db' db'' : Database}

theorem refl (removed : Bytes → Bytes → Prop) (db : Database) :
    Pruned removed db db :=
  ⟨fun _ => rfl, fun _ _ => rfl, fun _ _ => .inl rfl⟩

theorem trans (h : Pruned removed db db') (h' : Pruned removed db' db'') :
    Pruned removed db db'' := by
  refine ⟨fun name => (h'.trees name).trans (h.trees name),
    fun name hnone => (h'.others name hnone).trans (h.others name hnone),
    fun name key => ?_⟩
  rcases h'.entries name key with heq | hgone
  · rw [heq]
    exact h.entries name key
  · exact .inr hgone

theorem mono (himp : ∀ name key, removed name key → removed' name key)
    (h : Pruned removed db db') : Pruned removed' db db' :=
  ⟨h.trees, fun name hnone => h.others name fun key hkey =>
      hnone key (himp name key hkey),
    fun name key => (h.entries name key).imp_right fun hgone =>
      ⟨hgone.1, himp name key hgone.2⟩⟩

theorem gone (h : Pruned removed db db') {name key : Bytes}
    (hnone : (db.tree name).lookup key = none) :
    (db'.tree name).lookup key = none := by
  rcases h.entries name key with heq | hgone
  · rw [heq, hnone]
  · exact hgone.1

end Pruned

theorem tree_insert {db : Database} {name name' : Bytes} {tree : Tree} :
    Database.tree (db.insert name tree) name' =
      if name' = name then tree else db.tree name' := by
  rw [Database.tree, KeyedMap.lookup_insert_eq]
  split <;> rfl

theorem pruned_erase {db : Database} {name key : Bytes} {tree : Tree}
    (h : db.lookup name = some tree) :
    Pruned (fun n k => n = name ∧ k = key) db
      (db.insert name (tree.erase key)) := by
  have htree : db.tree name = tree := by rw [Database.tree, h, Option.getD_some]
  constructor
  case trees =>
    intro name'
    rw [KeyedMap.lookup_insert_eq]
    split
    · rename_i heq
      rw [heq, h]
      rfl
    · rfl
  case others =>
    intro name' hnone
    rw [KeyedMap.lookup_insert_eq, if_neg]
    exact fun heq => hnone key ⟨heq, rfl⟩
  case entries =>
    intro name' key'
    rw [tree_insert]
    by_cases hname : name' = name
    · subst hname
      rw [if_pos rfl, KeyedMap.lookup_erase_eq, htree]
      by_cases hkey : key' = key
      · exact .inr ⟨if_pos hkey, rfl, hkey⟩
      · exact .inl (if_neg hkey)
    · exact .inl (by rw [if_neg hname])

theorem ends_removeBytes {name key : Bytes} (message : String) {s : State}
    (h : (s.db.lookup name).isSome = true) :
    Ends (fun r s' => s'.clock = s.clock ∧
      Pruned (fun n k => n = name ∧ k = key) s.db s'.db ∧
      ∀ old, r = .ok old → (s'.db.tree name).lookup key = none)
      (removeBytes message name key) s := by
  obtain ⟨tree, htree⟩ := Option.isSome_iff_exists.mp h
  refine ends_access fun choice answer s' hhandle => ends_attempt ?_
  simp only [handle, Option.some.injEq, serve, htree] at hhandle
  have hpruned := @pruned_erase s.db name key tree htree
  rcases settle_cases hhandle with heq | ⟨heq, hstate | hstate⟩
  · cases heq
    refine ⟨rfl, hpruned, fun old _ => ?_⟩
    rw [tree_insert, if_pos rfl, KeyedMap.lookup_erase_eq, if_pos rfl]
  · subst hstate heq
    exact ⟨rfl, hpruned, nofun⟩
  · subst hstate heq
    exact ⟨rfl, .refl _ _, nofun⟩

theorem ends_removeKeys {name : Bytes} {keys : List Bytes} {s : State}
    (h : (s.db.lookup name).isSome = true) :
    Ends (fun r s' => s'.clock = s.clock ∧
      Pruned (fun n k => n = name ∧ k ∈ keys) s.db s'.db ∧
      (r = .ok () → ∀ key ∈ keys, (s'.db.tree name).lookup key = none))
      (removeKeys name keys) s := by
  induction keys generalizing s with
  | nil => exact ends_pure ⟨rfl, .refl _ _, fun _ => nofun⟩
  | cons key keys ih =>
      refine ends_bind ((@ends_removeBytes name key _ s h).mono
        fun r t hr => ?_)
      obtain ⟨hclock, hpruned, hgone⟩ := hr
      have hfirst : Pruned (fun n k => n = name ∧ k ∈ key :: keys) s.db
          t.db := by
        refine hpruned.mono ?_
        rintro n k ⟨rfl, rfl⟩
        exact ⟨rfl, List.mem_cons_self ..⟩
      cases r with
      | error e => exact ⟨hclock, hfirst, nofun⟩
      | ok old =>
          have ht : (t.db.lookup name).isSome = true := by
            rw [hpruned.trees, h]
          refine (ih ht).mono fun r u hr => ?_
          obtain ⟨hclock', hpruned', hgone'⟩ := hr
          refine ⟨hclock'.trans hclock, hfirst.trans (hpruned'.mono ?_), ?_⟩
          · exact fun n k hnk => ⟨hnk.1, List.mem_cons_of_mem _ hnk.2⟩
          intro hok other hother
          rcases List.mem_cons.mp hother with rfl | hother
          · exact hpruned'.gone (hgone old rfl)
          · exact hgone' hok other hother

theorem ends_removeExpired {expired : List (Bytes × List Bytes)} {s : State}
    (h : ∀ tree ∈ expired, (s.db.lookup tree.1).isSome = true) :
    Ends (fun r s' => s'.clock = s.clock ∧
      Pruned (fun n k => ∃ keys, (n, keys) ∈ expired ∧ k ∈ keys) s.db s'.db ∧
      (r = .ok () → ∀ tree ∈ expired, ∀ key ∈ tree.2,
        (s'.db.tree tree.1).lookup key = none))
      (removeExpired expired) s := by
  induction expired generalizing s with
  | nil => exact ends_pure ⟨rfl, .refl _ _, fun _ => nofun⟩
  | cons tree expired ih =>
      obtain ⟨name, keys⟩ := tree
      refine ends_bind ((@ends_removeKeys name keys s
        (h _ (List.mem_cons_self ..))).mono fun r t hr => ?_)
      obtain ⟨hclock, hpruned, hgone⟩ := hr
      have hfirst : Pruned (fun n k => ∃ ks,
          (n, ks) ∈ (name, keys) :: expired ∧ k ∈ ks) s.db t.db := by
        refine hpruned.mono fun n k hnk => ⟨keys, ?_, hnk.2⟩
        rw [hnk.1]
        exact List.mem_cons_self ..
      cases r with
      | error e => exact ⟨hclock, hfirst, nofun⟩
      | ok _ =>
          have ht : ∀ tree ∈ expired, (t.db.lookup tree.1).isSome = true := by
            intro tree htree
            rw [hpruned.trees]
            exact h tree (List.mem_cons_of_mem _ htree)
          refine (ih ht).mono fun r u hr => ?_
          obtain ⟨hclock', hpruned', hgone'⟩ := hr
          refine ⟨hclock'.trans hclock, hfirst.trans (hpruned'.mono ?_), ?_⟩
          · rintro n k ⟨ks, hks, hk⟩
            exact ⟨ks, List.mem_cons_of_mem _ hks, hk⟩
          · intro hok other hother key hkey
            rcases List.mem_cons.mp hother with rfl | hother
            · exact hpruned'.gone (hgone rfl key hkey)
            · exact hgone' hok other hother key hkey

/-! ## The calls that remove -/

structure Culls (s s' : State) (r : Except Error Unit) : Prop where
  removes : Pruned (fun name key => Own name ∧
    ExpiredIn s.db name key s'.clock) s.db s'.db
  refuses : ¬ Intact s.db → (∃ error, r = .error error) ∧ s'.db = s.db
  complete : r = .ok () → ∀ name key, Own name →
    ExpiredIn s.db name key s.clock → (s'.db.tree name).lookup key = none

theorem ends_cull (s : State) : Ends (fun r s' => Culls s s' r) cull s := by
  refine ends_bind ((ends_ownedTreeNames s).mono fun r t hr => ?_)
  obtain ⟨rfl, hlisted⟩ := hr
  cases r with
  | error error =>
      exact ⟨.refl _ _, fun _ => ⟨⟨error, rfl⟩, rfl⟩, nofun⟩
  | ok trees =>
      have hlisted := hlisted trees rfl
      refine ends_bind ((ends_collectExpired fun tree htree =>
        (hlisted.present tree htree).2).mono fun r u hr => ?_)
      obtain ⟨⟨hdb, -⟩, hexpired⟩ := hr
      cases r with
      | error error =>
          refine ⟨hdb ▸ .refl _ _, fun _ => ⟨⟨error, rfl⟩, hdb⟩, nofun⟩
      | ok expired =>
          obtain ⟨hnames, hvalid⟩ := hexpired expired rfl
          have hin : ∀ tree ∈ expired, ∃ collection,
              (tree.1, collection) ∈ trees := by
            intro tree htree
            have hname : tree.1 ∈ trees.map Prod.fst := by
              rw [← hnames]
              exact List.mem_map_of_mem htree
            obtain ⟨found, hfound, heq⟩ := List.mem_map.mp hname
            exact ⟨found.2, heq ▸ hfound⟩
          have hpresent : ∀ tree ∈ expired,
              (u.db.lookup tree.1).isSome = true := by
            intro tree htree
            obtain ⟨collection, hmem⟩ := hin tree htree
            obtain ⟨found, hfound⟩ := (hlisted.present _ hmem).2
            rw [hdb, hfound]
            rfl
          refine (ends_removeExpired hpresent).mono fun r s' hr => ?_
          obtain ⟨hclock, hpruned, hgone⟩ := hr
          rw [hdb] at hpruned
          constructor
          case removes =>
            refine hpruned.mono ?_
            rintro name key ⟨keys, hkeys, hkey⟩
            obtain ⟨collection, hmem⟩ := hin _ hkeys
            refine ⟨(hlisted.present _ hmem).1, ?_⟩
            rw [hclock]
            exact (hvalid _ hkeys).expired key hkey
          case refuses =>
            intro hbroken
            refine absurd (hlisted.intact fun tree htree => ?_) hbroken
            have hname : tree.1 ∈ expired.map Prod.fst := by
              rw [hnames]
              exact List.mem_map_of_mem htree
            obtain ⟨found, hfound, heq⟩ := List.mem_map.mp hname
            rw [← heq]
            exact (hvalid found hfound).readable
          case complete =>
            intro hok name key hown hexp
            obtain ⟨tree, htree⟩ : ∃ tree, t.db.lookup name = some tree := by
              obtain ⟨value, hvalue, -⟩ := hexp
              cases htree : t.db.lookup name with
              | some tree => exact ⟨tree, rfl⟩
              | none =>
                  rw [Database.tree, htree] at hvalue
                  cases hvalue
            obtain ⟨collection, -, hmem⟩ :=
              hlisted.complete name tree hown htree
            have hname : name ∈ expired.map Prod.fst := by
              rw [hnames]
              exact List.mem_map_of_mem hmem
            obtain ⟨found, hfound, rfl⟩ := List.mem_map.mp hname
            exact hgone hok found hfound key
              ((hvalid found hfound).complete key hexp)

structure DestroysCollection (collection : String) (s s' : State)
    (r : Except Error Bool) : Prop where
  others : ∀ name, name ≠ treeName collection →
    s'.db.lookup name = s.db.lookup name
  whole : s'.db.lookup (treeName collection) =
      s.db.lookup (treeName collection) ∨
    s'.db.lookup (treeName collection) = none
  refuses : ¬ Readable (s.db.tree (treeName collection)) →
    (∃ error, r = .error error) ∧ s'.db = s.db
  reports : ∀ found, r = .ok found →
    found = (s.db.lookup (treeName collection)).isSome ∧
      s'.db.lookup (treeName collection) = none

theorem ends_dropTree (name : Bytes) (s : State) :
    Ends (fun r s' => (∀ name', name' ≠ name →
        s'.db.lookup name' = s.db.lookup name') ∧
      (s'.db.lookup name = s.db.lookup name ∨ s'.db.lookup name = none) ∧
      ∀ found, r = .ok found → found = (s.db.lookup name).isSome ∧
        s'.db.lookup name = none) (dropTree name) s := by
  refine ends_access fun choice answer s' hhandle => ends_attempt ?_
  simp only [handle, Option.some.injEq, serve] at hhandle
  have hothers : ∀ name', name' ≠ name →
      AList.lookup name' (s.db.erase name) = s.db.lookup name' := by
    intro name' hne
    rw [KeyedMap.lookup_erase_eq, if_neg hne]
  have hgone : AList.lookup name (s.db.erase name) = none := by
    rw [KeyedMap.lookup_erase_eq, if_pos rfl]
  rcases settle_cases hhandle with heq | ⟨heq, hstate | hstate⟩
  · cases heq
    refine ⟨hothers, .inr hgone, ?_⟩
    rintro found ⟨⟩
    exact ⟨rfl, hgone⟩
  · subst hstate heq
    exact ⟨hothers, .inr hgone, nofun⟩
  · subst hstate heq
    exact ⟨fun _ _ => rfl, .inl rfl, nofun⟩

theorem readable_empty : Readable ∅ := fun _ _ h => by cases h

theorem ends_destroyCollection (collection : String) (s : State) :
    Ends (fun r s' => DestroysCollection collection s s' r)
      (destroyCollection collection) s := by
  refine ends_access fun choice answer t hhandle => ?_
  simp only [handle] at hhandle
  split at hhandle
  · rename_i hperm
    cases hhandle
    have hmem : treeName collection ∈ choice.order ↔
        ∃ tree, s.db.lookup (treeName collection) = some tree :=
      hperm.mem_iff.trans KeyedMap.mem_keys_iff
    split
    · rename_i hlisted
      obtain ⟨tree, htree⟩ := hmem.mp hlisted
      refine ends_bind ((ends_openTree htree).mono fun r t hr => ?_)
      subst hr
      cases r with
      | error error =>
          exact ⟨fun _ _ => rfl, .inl rfl, fun _ => ⟨⟨error, rfl⟩, rfl⟩,
            nofun⟩
      | ok _ =>
          refine ends_bind ((ends_validateTreeEntries _ t).mono
            fun r u hr => ?_)
          obtain ⟨⟨hdb, -⟩, hkeys⟩ := hr
          cases r with
          | error error =>
              exact ⟨fun _ _ => by rw [hdb], .inl (by rw [hdb]),
                fun _ => ⟨⟨error, rfl⟩, hdb⟩, nofun⟩
          | ok keys =>
              refine (ends_dropTree _ u).mono fun r s' hr => ?_
              rw [hdb] at hr
              obtain ⟨hothers, hwhole, hreports⟩ := hr
              exact ⟨hothers, hwhole,
                fun hbroken => (hbroken (hkeys keys rfl).readable).elim,
                hreports⟩
    · rename_i hlisted
      have hnone : s.db.lookup (treeName collection) = none :=
        Option.eq_none_iff_forall_ne_some.mpr fun tree htree =>
          hlisted (hmem.mpr ⟨tree, htree⟩)
      refine ends_pure ⟨fun _ _ => rfl, .inl rfl, fun hbroken => ?_, ?_⟩
      · rw [Database.tree, hnone] at hbroken
        exact (hbroken readable_empty).elim
      · rintro found ⟨⟩
        rw [hnone]
        exact ⟨rfl, rfl⟩
  · cases hhandle

structure Destroys (s s' : State) (r : Except Error Bool) : Prop where
  foreign : ∀ name, ¬ Own name → s'.db.lookup name = s.db.lookup name
  whole : ∀ name, s'.db.lookup name = s.db.lookup name ∨
    s'.db.lookup name = none
  refuses : ¬ Intact s.db → (∃ error, r = .error error) ∧ s'.db = s.db
  complete : ∀ found, r = .ok found → found = true ∧
    ∀ name, Own name → s'.db.lookup name = none

theorem ends_dropTrees (trees : List (Bytes × String)) (s : State) :
    Ends (fun r s' => (∀ name, name ∉ trees.map Prod.fst →
        s'.db.lookup name = s.db.lookup name) ∧
      (∀ name, s'.db.lookup name = s.db.lookup name ∨
        s'.db.lookup name = none) ∧
      (r = .ok () → ∀ tree ∈ trees, s'.db.lookup tree.1 = none))
      (dropTrees trees) s := by
  induction trees generalizing s with
  | nil => exact ends_pure ⟨fun _ _ => rfl, fun _ => .inl rfl, fun _ => nofun⟩
  | cons tree trees ih =>
      obtain ⟨name, collection⟩ := tree
      refine ends_bind ((ends_dropTree name s).mono fun r t hr => ?_)
      obtain ⟨hothers, hwhole, hreports⟩ := hr
      have hfirst : ∀ other, t.db.lookup other = s.db.lookup other ∨
          t.db.lookup other = none := by
        intro other
        by_cases hother : other = name
        · rw [hother]
          exact hwhole
        · exact .inl (hothers other hother)
      cases r with
      | error error =>
          refine ⟨fun other hother => hothers other ?_, hfirst, nofun⟩
          rintro rfl
          exact hother (List.mem_cons_self ..)
      | ok found =>
          refine (ih t).mono fun r s' hr => ?_
          obtain ⟨hothers', hwhole', hgone'⟩ := hr
          refine ⟨fun other hother => ?_, fun other => ?_, fun hok => ?_⟩
          · rw [List.map_cons, List.mem_cons, not_or] at hother
            rw [hothers' other hother.2, hothers other hother.1]
          · rcases hwhole' other with heq | hnone
            · rw [heq]
              exact hfirst other
            · exact .inr hnone
          · intro other hother
            rcases List.mem_cons.mp hother with rfl | hother
            · rcases hwhole' name with heq | hnone
              · rw [heq]
                exact (hreports found rfl).2
              · exact hnone
            · exact hgone' hok other hother

theorem ends_destroy (s : State) :
    Ends (fun r s' => Destroys s s' r) destroy s := by
  refine ends_bind ((ends_ownedTreeNames s).mono fun r t hr => ?_)
  obtain ⟨rfl, hlisted⟩ := hr
  cases r with
  | error error =>
      exact ⟨fun _ _ => rfl, fun _ => .inl rfl,
        fun _ => ⟨⟨error, rfl⟩, rfl⟩, nofun⟩
  | ok trees =>
      have hlisted := hlisted trees rfl
      refine ends_bind ((ends_validateTrees fun tree htree =>
        (hlisted.present tree htree).2).mono fun r u hr => ?_)
      obtain ⟨⟨hdb, -⟩, hreadable⟩ := hr
      cases r with
      | error error =>
          exact ⟨fun _ _ => by rw [hdb], fun _ => .inl (by rw [hdb]),
            fun _ => ⟨⟨error, rfl⟩, hdb⟩, nofun⟩
      | ok _ =>
          have hintact : Intact t.db := hlisted.intact (hreadable rfl)
          refine ends_bind ((ends_dropTrees trees u).mono fun r s' hr => ?_)
          rw [hdb] at hr
          obtain ⟨hothers, hwhole, hgone⟩ := hr
          have hforeign : ∀ name, ¬ Own name →
              s'.db.lookup name = t.db.lookup name := by
            intro name hname
            refine hothers name fun hin => ?_
            obtain ⟨tree, htree, rfl⟩ := List.mem_map.mp hin
            exact hname (hlisted.present tree htree).1
          cases r with
          | error error =>
              exact ⟨hforeign, hwhole, fun h => (h hintact).elim, nofun⟩
          | ok _ =>
              refine ends_pure ⟨hforeign, hwhole,
                fun h => (h hintact).elim, ?_⟩
              rintro _ ⟨⟩
              refine ⟨rfl, fun name hown => ?_⟩
              rcases hwhole name with heq | hnone
              · cases htree : t.db.lookup name with
                | none => rw [heq, htree]
                | some tree =>
                    obtain ⟨collection, -, hmem⟩ :=
                      hlisted.complete name tree hown htree
                    exact hgone rfl _ hmem
              · exact hnone

/-- Whatever stands in the database and whichever requests fail: a removal
that meets something that it cannot read removes nothing, trees of others
stay, a cull takes expired entries only, and what is reported is done. -/
theorem removals_read_before_they_remove (s : State) :
    Ends (fun r s' => Culls s s' r) cull s ∧
      (∀ collection, Ends (fun r s' => DestroysCollection collection s s' r)
        (destroyCollection collection) s) ∧
      Ends (fun r s' => Destroys s s' r) destroy s :=
  ⟨ends_cull s, fun collection => ends_destroyCollection collection s,
    ends_destroy s⟩

end OpenKeyV.Sled
