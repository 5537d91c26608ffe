import OpenKeyV.Memory.System

/-!
# What a stretch leaves in the journal

`Edits s events s'` says that the journal of `s'` continues that of `s` by
`events`, each allowed where it happens, and that the stored entries follow
them, while no change is recorded.  Every stretch of a task up to its next
await is such an edit, and the changes that it has to record mirror its
events, up to the silent removal of one expired entry.
-/

namespace OpenKeyV.Memory

open OpenKeyV.Library

def Event.mutation : Event → Mutation
  | .wrote collection key _ _ => ⟨collection, key, .put⟩
  | .removed collection key _ => ⟨collection, key, .delete⟩

/-- A conditional event finds what it expects. -/
def Event.Allowed (s : MemoryState) : Event → Prop
  | .wrote _ _ _ .plain | .removed _ _ none => True
  | .wrote name key _ (.created overExpired) =>
      (s.entry name key).isSome = overExpired
  | .wrote name key _ (.swapped expected)
  | .removed name key (some expected) =>
      ∃ stored, s.entry name key = some stored ∧ stored.revision = expected

def Quiet (s s' : MemoryState) : Prop :=
  s'.changes = s.changes ∧ s.draws ≤ s'.draws

inductive Edits (s : MemoryState) : List Event → MemoryState → Prop where
  | refl : Edits s [] s
  | touch {events : List Event} {s' s'' : MemoryState} : Edits s events s' →
      Quiet s' s'' → s''.events = s'.events →
      (∀ name key, s''.entry name key = s'.entry name key) →
      Edits s events s''
  | event {events : List Event} {s' s'' : MemoryState} (event : Event) :
      Edits s events s' → event.Allowed s' →
      Quiet s' s'' → s''.events = s'.events ++ [event] →
      (∀ name key, s''.entry name key =
        if event.cell = (name, key) then event.stored
        else s'.entry name key) →
      Edits s (events ++ [event]) s''

section Edits

variable {s s' s'' : MemoryState} {events events' : List Event}

theorem Edits.events_eq (h : Edits s events s') :
    s'.events = s.events ++ events := by
  induction h with
  | refl => simp
  | touch _ _ hevents _ ih => rw [hevents, ih]
  | event event _ _ _ hevents _ ih => rw [hevents, ih, List.append_assoc]

theorem Edits.quiet (h : Edits s events s') : Quiet s s' := by
  induction h with
  | refl => exact ⟨rfl, Nat.le_refl _⟩
  | touch _ hquiet _ _ ih | event _ _ _ hquiet _ _ ih =>
      exact ⟨hquiet.1.trans ih.1, Nat.le_trans ih.2 hquiet.2⟩

theorem Edits.trans (h : Edits s events s') (h' : Edits s' events' s'') :
    Edits s (events ++ events') s'' := by
  induction h' with
  | refl => simpa using h
  | touch _ hquiet hevents hentry ih => exact ih.touch hquiet hevents hentry
  | event event _ hallowed hquiet hevents hentry ih =>
      rw [← List.append_assoc]
      exact ih.event event hallowed hquiet hevents hentry

theorem Edits.single (event : Event) (hallowed : event.Allowed s)
    (hquiet : Quiet s s') (hevents : s'.events = s.events ++ [event])
    (hentry : ∀ name key, s'.entry name key =
      if event.cell = (name, key) then event.stored else s.entry name key) :
    Edits s [event] s' :=
  Edits.refl.event event hallowed hquiet hevents hentry

end Edits

/-! ## Single edits -/

section Single

variable {s : MemoryState} {name : String} {col : Collection}

theorem edits_ensureCollection (s : MemoryState) (name : String) :
    Edits s [] (s.ensureCollection name) := by
  refine Edits.refl.touch ?_ ?_ (s.entry_ensureCollection name)
  · unfold MemoryState.ensureCollection
    split <;> exact ⟨rfl, Nat.le_refl _⟩
  · unfold MemoryState.ensureCollection
    split <;> rfl

theorem entry_insertEntry (hcol : s.collection name = some col) (key : String)
    (stored : RevisionedEntry) (cause : Cause) (name' key' : String) :
    (s.insertEntry name key stored cause).entry name' key' =
      if (name, key) = (name', key') then some stored
      else s.entry name' key' := by
  simp only [MemoryState.entry, MemoryState.collection_insertEntry]
  by_cases hname : name' = name
  · subst hname
    by_cases hkey : key' = key
    · simp [hcol, hkey]
    · simp [hcol, hkey, Ne.symm hkey]
  · simp [hname, Ne.symm hname]

theorem edits_insertEntry (hcol : s.collection name = some col) (key : String)
    (stored : RevisionedEntry) (cause : Cause)
    (hallowed : (Event.wrote name key stored cause).Allowed s) :
    Edits s [.wrote name key stored cause]
      (s.insertEntry name key stored cause) := by
  refine .single _ hallowed ?_ ?_ (entry_insertEntry hcol key stored cause)
  · simp [MemoryState.insertEntry, hcol, Quiet]
  · simp [MemoryState.insertEntry, hcol]

theorem entry_removeEntry (hcol : s.collection name = some col) (key : String)
    (expected : Option Revision) (name' key' : String) :
    (s.removeEntry name key expected).entry name' key' =
      if (name, key) = (name', key') then none else s.entry name' key' := by
  simp only [MemoryState.entry, MemoryState.collection_removeEntry]
  by_cases hname : name' = name
  · subst hname
    by_cases hkey : key' = key
    · simp [hcol, hkey]
    · simp [hcol, hkey, Ne.symm hkey]
  · simp [hname, Ne.symm hname]

theorem edits_removeEntry (hcol : s.collection name = some col) (key : String)
    (expected : Option Revision)
    (hallowed : (Event.removed name key expected).Allowed s) :
    Edits s [.removed name key expected] (s.removeEntry name key expected) := by
  refine .single _ hallowed ?_ ?_ (entry_removeEntry hcol key expected)
  · simp [MemoryState.removeEntry, hcol, Quiet]
  · simp [MemoryState.removeEntry, hcol]

theorem edits_fresh (rng : Nat → Option Revision) (s : MemoryState) :
    Edits s [] (s.fresh rng).2 :=
  Edits.refl.touch ⟨rfl, Nat.le_succ _⟩ rfl fun _ _ => rfl

theorem edits_setupComplete (s : MemoryState) (setupComplete : Bool) :
    Edits s [] { s with setupComplete } :=
  Edits.refl.touch ⟨rfl, Nat.le_refl _⟩ rfl fun _ _ => rfl

end Single

/-! ## Loops -/

def removals (name : String) (keys : List String) : List Event :=
  keys.map fun key => .removed name key none

section Loops

variable {s : MemoryState} {name : String}

theorem isSome_removeEntry (hcol : (s.collection name).isSome = true)
    (name' key : String) (expected : Option Revision) :
    ((s.removeEntry name' key expected).collection name).isSome = true := by
  rw [MemoryState.collection_removeEntry]
  split
  · rename_i h
    subst h
    simpa using hcol
  · exact hcol

theorem isSome_insertEntry (hcol : (s.collection name).isSome = true)
    (name' key : String) (stored : RevisionedEntry) (cause : Cause) :
    ((s.insertEntry name' key stored cause).collection name).isSome = true := by
  rw [MemoryState.collection_insertEntry]
  split
  · rename_i h
    subst h
    simpa using hcol
  · exact hcol

theorem edits_removeKeys :
    ∀ (keys : List String) (s : MemoryState),
      (s.collection name).isSome = true →
      Edits s (removals name keys) (s.removeKeys name keys)
  | [], s, _ => .refl
  | key :: keys, s, hcol => by
      obtain ⟨col, hcol'⟩ := Option.isSome_iff_exists.mp hcol
      exact (edits_removeEntry hcol' key none trivial).trans
        (edits_removeKeys keys _ (isSome_removeEntry hcol name key none))

theorem edits_enforceCapacity (config : MemoryConfig) (now : DateTime)
    (order : Order) (name : String) (s : MemoryState) :
    Edits s (removals name (enforceCapacity config now order name s).2)
      (enforceCapacity config now order name s).1 := by
  unfold enforceCapacity
  cases hcol : s.collection name with
  | none => exact .refl
  | some col => exact edits_removeKeys _ s (by simp [hcol])

def writes (name : String) (items : List (String × RevisionedEntry)) :
    List Event :=
  items.map fun item => .wrote name item.1 item.2 .plain

theorem edits_insertMany :
    ∀ (items : List (String × RevisionedEntry)) (s : MemoryState),
      (s.collection name).isSome = true →
      Edits s (writes name items) (insertMany name s items)
  | [], s, _ => .refl
  | item :: items, s, hcol => by
      obtain ⟨col, hcol'⟩ := Option.isSome_iff_exists.mp hcol
      exact (edits_insertEntry hcol' item.1 item.2 .plain trivial).trans
        (edits_insertMany items _ (isSome_insertEntry hcol name _ _ _))

theorem edits_removeMany :
    ∀ (keys : List String) (s : MemoryState),
      Edits s (removals name (removeMany name keys s).2)
        (removeMany name keys s).1
  | [], s => .refl
  | key :: keys, s => by
      rw [removeMany]
      cases hentry : s.entry name key with
      | none => exact edits_removeMany keys s
      | some stored =>
          obtain ⟨col, hcol, -⟩ := Option.bind_eq_some_iff.mp hentry
          exact (edits_removeEntry hcol key none trivial).trans
            (edits_removeMany keys _)

@[simp] theorem draws_removeKeys (keys : List String) (s : MemoryState) :
    (s.removeKeys name keys).draws = s.draws := by
  have hremove : ∀ (s : MemoryState) (key : String),
      (s.removeEntry name key none).draws = s.draws := by
    intro s key
    unfold MemoryState.removeEntry
    split <;> rfl
  induction keys generalizing s with
  | nil => rfl
  | cons key keys ih => exact (ih _).trans (hremove s key)

theorem edits_removeCollection {col : Collection}
    (hcol : s.collection name = some col) {keys : List String}
    (hkeys : ∀ key, (col.lookup key).isSome → key ∈ keys) :
    Edits s (removals name keys) (s.removeCollection name keys) := by
  have hremoved : Edits s (removals name keys) (s.removeKeys name keys) :=
    edits_removeKeys keys s (by simp [hcol])
  refine hremoved.touch ⟨hremoved.quiet.1.symm, ?_⟩ hremoved.events_eq.symm
    fun name' key => ?_
  · exact Nat.le_of_eq (draws_removeKeys keys s)
  have hentry : ∀ (keys : List String) (s : MemoryState),
      (s.collection name).isSome = true →
      (s.removeKeys name keys).entry name' key =
        if name' = name ∧ key ∈ keys then none else s.entry name' key := by
    intro keys
    induction keys with
    | nil => simp [MemoryState.removeKeys]
    | cons key' keys ih =>
        intro s hcol
        obtain ⟨col, hcol'⟩ := Option.isSome_iff_exists.mp hcol
        have hrest := ih _ (isSome_removeEntry hcol name key' none)
        rw [entry_removeEntry hcol'] at hrest
        rw [MemoryState.removeKeys, List.foldl_cons, ← MemoryState.removeKeys,
          hrest]
        by_cases hname : name' = name <;> by_cases hkey : key = key' <;>
          by_cases hmem : key ∈ keys <;>
          simp [hname, hkey, hmem, Ne.symm, eq_comm]
  rw [hentry keys s (by simp [hcol])]
  by_cases hname : name' = name
  · subst hname
    simp only [MemoryState.entry, MemoryState.collection_removeCollection,
      if_true, Option.bind_none, true_and, hcol, Option.bind_some]
    split
    · rfl
    · rename_i hmem
      cases hlookup : col.lookup key with
      | none => rfl
      | some stored => exact absurd (hkeys key (by simp [hlookup])) hmem
  · simp [MemoryState.entry, hname]

theorem edits_clear (s : MemoryState) :
    ∃ events, Edits s events s.clear ∧
      events.filterMap Event.written = [] := by
  have hloop : ∀ (entries : List (Sigma fun _ : String => Collection))
      (s : MemoryState), entries.NodupKeys →
      (∀ entry ∈ entries, s.collection entry.1 = some entry.2) →
      ∃ events, Edits s events
          (entries.foldl (fun s entry =>
            s.removeCollection entry.1 entry.2.keys) s) ∧
        events.filterMap Event.written = [] := by
    intro entries
    induction entries with
    | nil => exact fun s _ _ => ⟨[], .refl, rfl⟩
    | cons entry entries ih =>
        intro s hnodup hcols
        obtain ⟨hfresh, hnodup⟩ := List.nodupKeys_cons.mp hnodup
        have hkeys : ∀ key, (entry.2.lookup key).isSome → key ∈ entry.2.keys :=
          fun key hkey =>
            KeyedMap.mem_keys_iff.mpr (Option.isSome_iff_exists.mp hkey)
        have hremoved := edits_removeCollection (hcols entry (by simp)) hkeys
        obtain ⟨events, hedits, hwritten⟩ := ih _ hnodup fun entry' hentry' => by
          have hne : entry'.1 ≠ entry.1 := fun heq =>
            hfresh (heq ▸ List.mem_map_of_mem hentry')
          rw [MemoryState.collection_removeCollection, if_neg hne]
          exact hcols entry' (by simp [hentry'])
        exact ⟨_, hremoved.trans hedits, by
          simp [removals, hwritten, Event.written, Event.stored]⟩
  exact hloop _ s s.collections.nodupKeys fun entry hentry =>
    AList.mem_lookup_iff.mpr hentry

theorem edits_removeEntries :
    ∀ (deleted : List (String × String)) (s : MemoryState),
      (∀ entry ∈ deleted, (s.collection entry.1).isSome = true) →
      Edits s (deleted.map fun entry => .removed entry.1 entry.2 none)
        (deleted.foldl (fun s entry => s.removeEntry entry.1 entry.2 none) s)
  | [], s, _ => .refl
  | entry :: deleted, s, hcols => by
      obtain ⟨col, hcol⟩ := Option.isSome_iff_exists.mp (hcols entry (by simp))
      refine (edits_removeEntry hcol entry.2 none trivial).trans
        (edits_removeEntries deleted _ fun entry' hentry' => ?_)
      exact isSome_removeEntry (hcols entry' (by simp [hentry'])) _ _ _

end Loops

/-! ## Actions -/

def Action.tokens : Action → List Revision
  | .put _ _ stored | .compareAndSwap _ _ _ stored => [stored.revision]
  | .putMany _ _ entries => entries.map (·.revision)
  | _ => []

/-- A put finds its collection, unless it has nothing to put. -/
def Action.Grounded (s : MemoryState) : Action → Prop
  | .put name _ _ => (s.collection name).isSome = true
  | .putMany name keys _ => keys = [] ∨ (s.collection name).isSome = true
  | _ => True

instance (s : MemoryState) : ∀ action : Action, Decidable (action.Grounded s)
  | .put name _ _ =>
      inferInstanceAs (Decidable ((s.collection name).isSome = true))
  | .putMany name keys _ => inferInstanceAs
      (Decidable (keys = [] ∨ (s.collection name).isSome = true))
  | .delete .. | .deleteMany .. | .compareAndSwap .. | .compareAndDelete ..
  | .cull | .destroyCollection _ => inferInstanceAs (Decidable True)

def Action.Matched : Action → Prop
  | .putMany _ keys entries => keys.length = entries.length
  | _ => True

/-- The changes to record are those of the events, or nothing where just one
expired entry has been removed. -/
def Mirrors (now : DateTime) (s : MemoryState) (events : List Event)
    (pending : List Mutation) : Prop :=
  pending = events.map Event.mutation ∨
    pending = [] ∧ ∃ name key stored, events = [.removed name key none] ∧
      s.entry name key = some stored ∧ stored.isExpired now = true

structure Performed (now : DateTime) (s : MemoryState) (action : Action)
    (locked : Locked) (events : List Event) : Prop where
  edits : Edits s events locked.state
  tokens : (events.filterMap Event.written).Sublist action.tokens
  mirrors : action.Grounded s → action.Matched →
    Mirrors now s events locked.pending

section Actions

variable {config : MemoryConfig} {now : DateTime} {order : Order}
  {s : MemoryState} {name key : String}

@[simp] theorem written_wrote (stored : RevisionedEntry) (cause : Cause) :
    (Event.wrote name key stored cause).written = some stored.revision := rfl

@[simp] theorem written_removed (expected : Option Revision) :
    (Event.removed name key expected).written = none := rfl

@[simp] theorem written_removals (keys : List String) :
    (removals name keys).filterMap Event.written = [] := by
  simp [removals, List.filterMap_eq_nil_iff]

@[simp] theorem mutation_removals (keys : List String) :
    (removals name keys).map Event.mutation = deletions name keys := by
  simp [removals, deletions, Event.mutation, Function.comp_def]

private theorem performed_nothing {action : Action} {guards : List Guard}
    {result : Except Error Response} :
    Performed now s action ⟨s, [], guards, result⟩ [] :=
  ⟨.refl, by simp, fun _ _ => .inl rfl⟩

theorem edits_put (config : MemoryConfig) (now : DateTime) (order : Order)
    (key : String) (hcol : (s.collection name).isSome = true)
    (stored : RevisionedEntry) :
    ∃ evicted, Edits s (.wrote name key stored .plain :: removals name evicted)
        (put config now order name s key stored).state ∧
      (put config now order name s key stored).pending =
        ⟨name, key, .put⟩ :: deletions name evicted := by
  obtain ⟨col, hcol⟩ := Option.isSome_iff_exists.mp hcol
  unfold put
  rw [hcol]
  exact ⟨_, (edits_insertEntry hcol key stored .plain trivial).trans
    (edits_enforceCapacity config now order name _), rfl⟩

theorem put_performed (stored : RevisionedEntry) :
    ∃ events, Performed now s (.put name key stored)
      (put config now order name s key stored) events := by
  cases hcol : (s.collection name).isSome with
  | true =>
      obtain ⟨evicted, hedits, hpending⟩ :=
        edits_put config now order key hcol stored
      refine ⟨_, hedits, by simp [Action.tokens], fun _ _ => .inl ?_⟩
      rw [hpending]
      simp [Event.mutation]
  | false =>
      rw [put, Option.isSome_eq_false_iff.mp hcol |> Option.isNone_iff_eq_none.mp]
      refine ⟨[], .refl, by simp, fun hgrounded _ => ?_⟩
      simp [Action.Grounded, hcol] at hgrounded

private theorem snd_zip_sublist {α β : Type} :
    ∀ (l : List α) (l' : List β), ((l.zip l').map Prod.snd).Sublist l'
  | [], _ => by simp
  | _ :: _, [] => by simp
  | _ :: l, b :: l' => (snd_zip_sublist l l').cons_cons b

theorem putMany_performed (keys : List String)
    (entries : List RevisionedEntry) :
    ∃ events, Performed now s (.putMany name keys entries)
      (putMany config now order name s keys entries) events := by
  unfold putMany
  cases hcol : s.collection name with
  | none =>
      refine ⟨[], .refl, by simp, fun hgrounded _ => .inl ?_⟩
      simp only [Action.Grounded, hcol, Option.isSome_none, Bool.false_eq_true,
        or_false] at hgrounded
      simp [hgrounded]
  | some col =>
      refine ⟨_, (edits_insertMany (keys.zip entries) s (by simp [hcol])).trans
        (edits_enforceCapacity config now order name _), ?_, fun _ hmatched => .inl ?_⟩
      · have hwritten : (writes name (keys.zip entries)).filterMap Event.written =
            ((keys.zip entries).map Prod.snd).map (·.revision) := by
          simp [writes, List.filterMap_map, Function.comp_def]
        rw [List.filterMap_append, written_removals, List.append_nil, hwritten]
        refine List.Sublist.map _ ?_
        exact snd_zip_sublist keys entries
      · have hputs : (writes name (keys.zip entries)).map Event.mutation =
            ((keys.zip entries).map Prod.fst).map
              fun key => ⟨name, key, .put⟩ := by
          simp [writes, Event.mutation, Function.comp_def]
        rw [List.map_append, mutation_removals, hputs,
          List.map_fst_zip (Nat.le_of_eq hmatched)]

theorem delete_performed :
    ∃ events, Performed now s (.delete name key) (delete name s key)
      events := by
  unfold delete
  cases hcol : s.collection name with
  | none => exact ⟨[], performed_nothing⟩
  | some col =>
      simp only
      cases col.lookup key with
      | none => exact ⟨[], performed_nothing⟩
      | some stored =>
          exact ⟨[.removed name key none],
            edits_removeEntry hcol key none trivial, List.nil_sublist _,
            fun _ _ => .inl rfl⟩

theorem deleteMany_performed (keys : List String) :
    ∃ events, Performed now s (.deleteMany name keys)
      (deleteMany name s keys) events := by
  unfold deleteMany
  cases hcol : s.collection name with
  | none => exact ⟨[], performed_nothing⟩
  | some col =>
      exact ⟨_, edits_removeMany keys s, by simp, fun _ _ => .inl (by simp)⟩

theorem compareAndSwap_performed (expected : Option Revision)
    (stored : RevisionedEntry) :
    ∃ events, Performed now s (.compareAndSwap name key expected stored)
      (compareAndSwap now name s key expected stored) events := by
  have hcases := compareAndSwap_cases now s name key expected stored
  generalize compareAndSwap now name s key expected stored = locked at hcases ⊢
  have hwrite : ∀ {col : Collection} (cause : Cause) (guards : List Guard)
      (result : Except Error Response), s.collection name = some col →
      (Event.wrote name key stored cause).Allowed s →
      ∃ events, Performed now s (.compareAndSwap name key expected stored)
        ⟨s.insertEntry name key stored cause, [⟨name, key, .put⟩], guards,
          result⟩ events := by
    intro col cause guards result hcol hallowed
    exact ⟨_, edits_insertEntry hcol key stored cause hallowed,
      by simp [Action.tokens], fun _ _ => .inl rfl⟩
  cases hcases with
  | missing _ => exact ⟨[], performed_nothing⟩
  | rejected _ _ => exact ⟨[], performed_nothing⟩
  | @swept current _ hcurrent hexpired _ =>
      obtain ⟨col, hcol, -⟩ := Option.bind_eq_some_iff.mp hcurrent
      exact ⟨[.removed name key none], edits_removeEntry hcol key none trivial,
        List.nil_sublist _, fun _ _ => .inr ⟨rfl, name, key, current, rfl,
          hcurrent, hexpired⟩⟩
  | created hcol _ _ => exact hwrite _ _ _ hcol rfl
  | @swapped col current hcol hcurrent _ _ =>
      exact hwrite _ _ _ hcol ⟨current, hcurrent, rfl⟩

theorem compareAndDelete_performed (expected : Revision) :
    ∃ events, Performed now s (.compareAndDelete name key expected)
      (compareAndDelete now name s key expected) events := by
  have hcases := compareAndDelete_cases now s name key expected
  generalize compareAndDelete now name s key expected = locked at hcases ⊢
  cases hcases with
  | missing _ => exact ⟨[], performed_nothing⟩
  | rejected _ _ => exact ⟨[], performed_nothing⟩
  | @swept current hcurrent hexpired =>
      obtain ⟨col, hcol, -⟩ := Option.bind_eq_some_iff.mp hcurrent
      exact ⟨[.removed name key none], edits_removeEntry hcol key none trivial,
        List.nil_sublist _, fun _ _ => .inr ⟨rfl, name, key, current, rfl,
          hcurrent, hexpired⟩⟩
  | @deleted col current hcol hcurrent _ hexpected =>
      exact ⟨[.removed name key (some expected)],
        edits_removeEntry hcol key (some expected)
          ⟨current, hcurrent, hexpected.symm⟩,
        List.nil_sublist _, fun _ _ => .inl rfl⟩

theorem cull_performed :
    ∃ events, Performed now s .cull (cull now order s) events := by
  have hcols : ∀ entry ∈ order.toFun (expiredEntries now s),
      (s.collection entry.1).isSome = true := by
    intro entry hentry
    have hmem := (order.perm _).mem_iff.mp hentry
    simp only [expiredEntries, List.mem_flatMap, List.mem_map] at hmem
    obtain ⟨named, hnamed, key, -, rfl⟩ := hmem
    rw [MemoryState.collection, AList.lookup_isSome, AList.mem_keys]
    exact List.mem_map_of_mem hnamed
  refine ⟨_, edits_removeEntries _ s hcols, ?_, fun _ _ => .inl ?_⟩
  · simp [Function.comp_def]
  · simp [cull, Event.mutation, Function.comp_def]

theorem destroyCollection_performed :
    ∃ events, Performed now s (.destroyCollection name)
      (destroyCollection order name s) events := by
  unfold destroyCollection
  cases hcol : s.collection name with
  | none => exact ⟨[], performed_nothing⟩
  | some col =>
      refine ⟨_, edits_removeCollection hcol fun key hkey => ?_, by simp,
        fun _ _ => .inl (by simp)⟩
      rw [(order.keys_perm name col.keys).mem_iff, KeyedMap.mem_keys_iff]
      exact Option.isSome_iff_exists.mp hkey

variable (config now order s) in
theorem perform_performed (action : Action) :
    ∃ events, Performed now s action (perform config now order s action)
      events := by
  cases action with
  | put name key stored => exact put_performed stored
  | putMany name keys entries => exact putMany_performed keys entries
  | delete name key => exact delete_performed
  | deleteMany name keys => exact deleteMany_performed keys
  | compareAndSwap name key expected stored =>
      exact compareAndSwap_performed expected stored
  | compareAndDelete name key expected =>
      exact compareAndDelete_performed expected
  | cull => exact cull_performed
  | destroyCollection name => exact destroyCollection_performed

end Actions

/-! ## The journal and the contents -/

def Traced (s : MemoryState) : Prop :=
  ∀ name key, s.entry name key =
    (latestOf Event.cell (name, key) s.events).bind Event.stored

theorem traced_empty : Traced .empty := fun _ _ => rfl

theorem Traced.step {s s' : MemoryState} (h : Traced s) {event : Event}
    (hevents : s'.events = s.events ++ [event])
    (hentry : ∀ name key, s'.entry name key =
      if event.cell = (name, key) then event.stored else s.entry name key) :
    Traced s' := by
  intro name key
  rw [hentry, hevents, latestOf_concat]
  split
  · rfl
  · exact h name key

theorem Edits.traced {s s' : MemoryState} {events : List Event}
    (h : Edits s events s') (hs : Traced s) : Traced s' := by
  induction h with
  | refl => exact hs
  | touch _ _ hevents hentry ih =>
      intro name key
      rw [hentry, hevents]
      exact ih name key
  | event event _ _ _ hevents hentry ih => exact ih.step hevents hentry

end OpenKeyV.Memory
