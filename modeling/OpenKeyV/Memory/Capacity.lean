import OpenKeyV.Memory.Tokens

/-!
# The capacity of a collection

`put`, `put_many` and seeding call `enforce_capacity` after they insert, and
bring a collection back to `max_entries_per_collection`.  `compare_and_swap`
does not, and a seed whose loading fails is left as it is.
-/

namespace OpenKeyV.Memory

open OpenKeyV.Library

/-- No collection holds more than `max` entries. -/
def Bounded (max : Nat) (s : MemoryState) : Prop :=
  ∀ name col, s.collection name = some col → col.size ≤ max

def BoundedBut (max : Nat) (name : String) (s : MemoryState) : Prop :=
  ∀ name' col, name' ≠ name → s.collection name' = some col → col.size ≤ max

section Bounded

variable {max : Nat} {name : String} {s : MemoryState}

theorem bounded_empty : Bounded max .empty := by
  intro name col hcol
  simp [MemoryState.collection, MemoryState.empty] at hcol

theorem Bounded.but (h : Bounded max s) (name : String) :
    BoundedBut max name s :=
  fun name' col _ hcol => h name' col hcol

theorem BoundedBut.bounded (h : BoundedBut max name s)
    (hname : ∀ col, s.collection name = some col → col.size ≤ max) :
    Bounded max s := by
  intro name' col hcol
  by_cases hne : name' = name
  · subst hne
    exact hname col hcol
  · exact h name' col hne hcol

theorem Bounded.ensureCollection (h : Bounded max s) (name : String) :
    Bounded max (s.ensureCollection name) := by
  intro name' col hcol
  rw [MemoryState.collection_ensureCollection] at hcol
  split at hcol
  · cases hname : s.collection name with
    | none =>
        simp only [hname, Option.getD_none, Option.some.injEq] at hcol
        subst hcol
        simp
    | some col' =>
        simp only [hname, Option.getD_some, Option.some.injEq] at hcol
        subst hcol
        exact h name _ hname
  · exact h name' col hcol

theorem Bounded.removeEntry (h : Bounded max s) (name key : String)
    (expected : Option Revision) : Bounded max (s.removeEntry name key expected) := by
  intro name' col hcol
  rw [MemoryState.collection_removeEntry] at hcol
  split at hcol
  · obtain ⟨col', hname, rfl⟩ := Option.map_eq_some_iff.mp hcol
    exact Nat.le_trans (KeyedMap.size_erase_le col' key) (h name col' hname)
  · exact h name' col hcol

theorem Bounded.removeCollection (h : Bounded max s) (name : String)
    (keys : List String) : Bounded max (s.removeCollection name keys) := by
  intro name' col hcol
  rw [MemoryState.collection_removeCollection] at hcol
  split at hcol
  · cases hcol
  · exact h name' col hcol

theorem bounded_foldl {α : Type} {f : MemoryState → α → MemoryState}
    (hf : ∀ s a, Bounded max s → Bounded max (f s a)) :
    ∀ (as : List α) (s : MemoryState), Bounded max s →
      Bounded max (as.foldl f s)
  | [], _, h => h
  | a :: as, s, h => bounded_foldl hf as (f s a) (hf s a h)

theorem BoundedBut.insertEntry (h : BoundedBut max name s) (key : String)
    (stored : RevisionedEntry) (cause : Cause) :
    BoundedBut max name (s.insertEntry name key stored cause) := by
  intro name' col hne hcol
  rw [MemoryState.collection_insertEntry, if_neg hne] at hcol
  exact h name' col hne hcol

theorem BoundedBut.insertMany (h : BoundedBut max name s)
    (items : List (String × RevisionedEntry)) :
    BoundedBut max name (insertMany name s items) := by
  induction items generalizing s with
  | nil => exact h
  | cons item items ih => exact ih (h.insertEntry item.1 item.2 .plain)

theorem collection_removeKeys (name' : String) (keys : List String) :
    (s.removeKeys name keys).collection name' =
      if name' = name then (s.collection name).map (·.eraseAll keys)
      else s.collection name' := by
  induction keys generalizing s with
  | nil =>
      split
      · rename_i h
        subst h
        cases hcol : s.collection name' <;>
          simp [MemoryState.removeKeys, KeyedMap.eraseAll, hcol]
      · rfl
  | cons key keys ih =>
      rw [MemoryState.removeKeys, List.foldl_cons, ← MemoryState.removeKeys, ih]
      simp only [MemoryState.collection_removeEntry, if_true, Option.map_map]
      split
      · cases s.collection name <;> rfl
      · rfl

end Bounded

/-! ## `enforce_capacity` -/

section Enforce

variable {config : MemoryConfig} {max : Nat} {now : DateTime} {order : Order}
  {name : String} {s : MemoryState}

theorem mem_of_smallestKey {col : Collection} {key : String}
    (h : smallestKey col = some key) : key ∈ col.keys := by
  have : Std.MinEqOr String := ⟨fun a b => min_choice a b⟩
  exact List.min?_mem h

theorem exists_smallestKey {col : Collection} (h : 0 < col.size) :
    ∃ key, smallestKey col = some key := by
  rw [← Option.isSome_iff_exists, smallestKey, List.isSome_min?_iff]
  exact List.ne_nil_of_length_pos h

variable (max) in
/-- With enough fuel the loop leaves at most `max` entries. -/
theorem size_eraseAll_overflowing :
    ∀ (fuel : Nat) (col : Collection), col.size ≤ max + fuel →
      (col.eraseAll (overflowing max fuel col)).size ≤ max
  | 0, col, h => by simpa [overflowing, KeyedMap.eraseAll] using h
  | fuel + 1, col, h => by
      rw [overflowing]
      split
      · rename_i hlt
        obtain ⟨key, hkey⟩ := exists_smallestKey (Nat.zero_lt_of_lt hlt)
        have hsize := KeyedMap.size_erase_of_mem (mem_of_smallestKey hkey)
        rw [hkey]
        exact size_eraseAll_overflowing fuel (col.erase key) (by omega)
      · rename_i hle
        simpa [KeyedMap.eraseAll] using Nat.le_of_not_lt hle

theorem mem_expiredKeys {col : Collection} {key : String} :
    key ∈ expiredKeys now col ↔
      key ∈ col.keys ∧
        (col.lookup key).any (fun stored => stored.isExpired now) = true := by
  simp [expiredKeys]

theorem size_eraseAll_excessKeys
    (hmax : config.maxEntriesPerCollection = some max) (col : Collection) :
    (col.eraseAll (excessKeys config now order name col)).size ≤ max := by
  have hkept := size_eraseAll_overflowing max
    (col.retain fun _ stored => !stored.isExpired now).size
    (col.retain fun _ stored => !stored.isExpired now) (by omega)
  refine Nat.le_trans (Nat.le_of_eq (KeyedMap.size_congr fun key => ?_)) hkept
  rw [KeyedMap.mem_keys_eraseAll, KeyedMap.mem_keys_eraseAll,
    KeyedMap.mem_keys_retain]
  simp only [excessKeys, hmax, List.mem_append, not_or,
    (order.keys_perm name _).mem_iff, mem_expiredKeys]
  have hlive : ∀ hmem : key ∈ col.keys,
      (col.lookup key).any (fun stored => !stored.isExpired now) = true ↔
        ¬ (col.lookup key).any (fun stored => stored.isExpired now) = true := by
    intro hmem
    obtain ⟨stored, hstored⟩ := KeyedMap.mem_keys_iff.mp hmem
    simp [hstored]
  constructor
  · rintro ⟨hmem, hexpired, hover⟩
    exact ⟨⟨hmem, (hlive hmem).mpr fun h => hexpired ⟨hmem, h⟩⟩, hover⟩
  · rintro ⟨⟨hmem, hfresh⟩, hover⟩
    exact ⟨hmem, fun h => (hlive hmem).mp hfresh h.2, hover⟩

theorem BoundedBut.enforceCapacity
    (hmax : config.maxEntriesPerCollection = some max)
    (h : BoundedBut max name s) :
    Bounded max (enforceCapacity config now order name s).1 := by
  unfold Memory.enforceCapacity
  cases hcol : s.collection name with
  | none => exact h.bounded fun col hsome => by simp [hcol] at hsome
  | some col =>
      have hother : BoundedBut max name
          (s.removeKeys name (excessKeys config now order name col)) := by
        intro name' col' hne hcol'
        rw [collection_removeKeys, if_neg hne] at hcol'
        exact h name' col' hne hcol'
      refine hother.bounded fun col' hcol' => ?_
      rw [collection_removeKeys, if_pos rfl, hcol] at hcol'
      cases hcol'
      exact size_eraseAll_excessKeys hmax col

end Enforce

/-! ## What may exceed the capacity -/

def Action.fits (max : Nat) (s : MemoryState) : Action → Bool
  | .compareAndSwap name key none _ =>
      (s.collection name).all fun col =>
        (col.lookup key).isSome || decide (col.size < max)
  | _ => true

section Fits

variable (config : MemoryConfig) (rng : Nat → Option Revision) (max : Nat)
  (now : DateTime) (order : Order)

def itemsFit (name : String) :
    List (Sigma fun _ : String => Value) → MemoryState → Bool
  | [], _ => true
  | ⟨key, value⟩ :: items, s =>
      match s.fresh rng with
      | (.error _, s) =>
          (s.collection name).all fun col => decide (col.size ≤ max)
      | (.ok revision, s) =>
          itemsFit name items
            (s.insertEntry name key ⟨.new now value, revision⟩ .plain)

def seedFits :
    List (Sigma fun _ : String => KeyedMap String Value) → MemoryState → Bool
  | [], _ => true
  | ⟨name, items⟩ :: seed, s =>
      itemsFit rng max now name items.entries (s.ensureCollection name) &&
        match loadItems rng now name items.entries
          (s.ensureCollection name) with
        | (.error _, _) => true
        | (.ok (), s) => seedFits seed (enforceCapacity config now order name s).1

def setupFits (s : MemoryState) : Bool :=
  s.setupComplete || config.seed.all fun seed =>
    seedFits config rng max now order seed.entries s

def System.fits (s : System) : Label → Bool
  | .resume task order =>
      match s.tasks task with
      | .setup _ => setupFits config rng max s.clock order s.state
      | .lock action => s.holder.isSome || action.fits max s.state
      | _ => true
  | _ => true

variable {config rng max now order} {s : MemoryState} {name : String}

theorem loadItems_bounded :
    ∀ {items : List (Sigma fun _ : String => Value)} {s s' : MemoryState}
      {result : Except Error Unit}, BoundedBut max name s →
      loadItems rng now name items s = (result, s') →
      BoundedBut max name s' ∧
        (itemsFit rng max now name items s = true ↔
          (result.isOk = true ∨ Bounded max s'))
  | [], s, s', result, h, hload => by
      cases hload
      exact ⟨h, fun _ => .inl rfl, fun _ => rfl⟩
  | ⟨key, value⟩ :: items, s, s', result, h, hload => by
      have hfresh : BoundedBut max name (s.fresh rng).2 := h
      rw [loadItems] at hload
      rw [itemsFit]
      cases heq : s.fresh rng with
      | mk read s₁ =>
          rw [heq] at hfresh
          simp only [heq] at hload ⊢
          cases read with
          | error error =>
              cases hload
              refine ⟨hfresh, fun hfit => .inr (hfresh.bounded fun col hcol => ?_),
                fun hbounded => ?_⟩
              · simpa [hcol] using hfit
              · rcases hbounded with hok | hbounded
                · cases hok
                · cases hcol : s'.collection name with
                  | none => simp [hcol]
                  | some col => simpa [hcol] using hbounded name col hcol
          | ok revision =>
              exact loadItems_bounded (hfresh.insertEntry key _ .plain) hload

theorem loadSeed_bounded (hmax : config.maxEntriesPerCollection = some max) :
    ∀ {seed : List (Sigma fun _ : String => KeyedMap String Value)}
      {s s' : MemoryState} {result : Except Error Unit}, Bounded max s →
      loadSeed config rng now order seed s = (result, s') →
      (result.isOk = true → Bounded max s') ∧
        (seedFits config rng max now order seed s = true ↔ Bounded max s')
  | [], s, s', result, h, hload => by
      cases hload
      exact ⟨fun _ => h, fun _ => h, fun _ => rfl⟩
  | ⟨name, items⟩ :: seed, s, s', result, h, hload => by
      have hbut := (h.ensureCollection name).but name
      rw [loadSeed] at hload
      rw [seedFits]
      split at hload
      · rename_i heq
        obtain ⟨-, hfits⟩ := loadItems_bounded hbut heq
        cases hload
        have herror : ∀ error : Error,
            (.error error : Except Error Unit).isOk = false := fun _ => rfl
        refine ⟨(fun hok => by cases hok), ?_⟩
        simpa only [heq, herror, Bool.and_true, Bool.false_eq_true,
          false_or] using hfits
      · rename_i s'' heq
        obtain ⟨hbut, hfits⟩ := loadItems_bounded hbut heq
        have hitems := hfits.mpr (.inl rfl)
        have hrest := loadSeed_bounded hmax (hbut.enforceCapacity hmax) hload
        simpa [heq, hitems] using hrest

theorem setup_bounded (hmax : config.maxEntriesPerCollection = some max)
    (h : Bounded max s) {s' : MemoryState} {result : Except Error Unit}
    (hsetup : setup config rng now order s = (result, s')) :
    (result.isOk = true → Bounded max s') ∧
      (setupFits config rng max now order s = true ↔ Bounded max s') := by
  have hkeep : ∀ {s : MemoryState}, Bounded max s →
      Bounded max { s with setupComplete := true } := id
  unfold setup at hsetup
  unfold setupFits
  split at hsetup
  · rename_i hcomplete
    cases hsetup
    exact ⟨fun _ => h, fun _ => h, fun _ => by simp [hcomplete]⟩
  · rename_i hcomplete
    cases hseed : config.seed with
    | none =>
        rw [hseed] at hsetup
        cases hsetup
        exact ⟨fun _ => hkeep h, fun _ => hkeep h, fun _ => by simp⟩
    | some seed =>
        simp only [hseed] at hsetup
        split at hsetup
        · rename_i heq
          cases hsetup
          have hload := loadSeed_bounded hmax h heq
          simpa [hcomplete] using hload
        · rename_i heq
          cases hsetup
          obtain ⟨hok, hfits⟩ := loadSeed_bounded hmax h heq
          refine ⟨fun hload => hkeep (hok hload), Iff.trans ?_ hfits⟩
          simp [hcomplete]

theorem enter_bounded (hmax : config.maxEntriesPerCollection = some max)
    (h : Bounded max s) (call : Call) :
    Bounded max (enter config rng now order s call).1 ↔
      setupFits config rng max now order s = true := by
  unfold enter
  split
  · rename_i heq
    exact (setup_bounded hmax h heq).2.symm
  · rename_i s' heq
    obtain ⟨hok, hfits⟩ := setup_bounded hmax h heq
    have hs' := hok rfl
    refine ⟨fun _ => hfits.mpr hs', fun _ name col hcol => ?_⟩
    rcases prepare_collection config rng now order s' call with
      hprepare | ⟨created, hprepare⟩ <;> rw [hprepare] at hcol
    · exact hs' name col hcol
    · exact hs'.ensureCollection created name col hcol

/-! ## Actions -/

theorem removeMany_bounded (name : String) :
    ∀ (keys : List String) (s : MemoryState), Bounded max s →
      Bounded max (removeMany name keys s).1
  | [], _, h => h
  | key :: keys, s, h => by
      rw [removeMany]
      split
      · exact removeMany_bounded name keys _ (h.removeEntry name key none)
      · exact removeMany_bounded name keys s h

theorem Bounded.insertEntry_iff (h : Bounded max s) {col : Collection}
    (hcol : s.collection name = some col) (key : String)
    (stored : RevisionedEntry) (cause : Cause) :
    Bounded max (s.insertEntry name key stored cause) ↔
      ((col.lookup key).isSome || decide (col.size < max)) = true := by
  have hinsert : (s.insertEntry name key stored cause).collection name =
      some (col.insert key stored) := by
    simp [MemoryState.collection_insertEntry, hcol]
  have hiff : Bounded max (s.insertEntry name key stored cause) ↔
      KeyedMap.size (col.insert key stored) ≤ max := by
    refine ⟨fun hbounded => hbounded name _ hinsert, fun hsize => ?_⟩
    refine ((h.but name).insertEntry key stored cause).bounded ?_
    intro col' hcol'
    rw [hinsert] at hcol'
    cases hcol'
    exact hsize
  have hsize := h name col hcol
  rw [hiff, Bool.or_eq_true, AList.lookup_isSome, decide_eq_true_eq]
  by_cases hmem : key ∈ col.keys
  · rw [KeyedMap.size_insert_of_mem stored hmem]
    exact ⟨fun _ => .inl hmem, fun _ => hsize⟩
  · rw [KeyedMap.size_insert_of_notMem stored hmem]
    exact ⟨fun hle => .inr hle, fun hfits =>
      hfits.resolve_left fun hkey => hmem hkey⟩

theorem compareAndSwap_bounded (h : Bounded max s) (key : String)
    (expected : Option Revision) (stored : RevisionedEntry) :
    Bounded max (compareAndSwap now name s key expected stored).state ↔
      (Action.compareAndSwap name key expected stored).fits max s = true := by
  have hcases := compareAndSwap_cases now s name key expected stored
  generalize compareAndSwap now name s key expected stored = locked at hcases ⊢
  cases hcases with
  | missing hcol => cases expected <;> simp [Action.fits, hcol, h]
  | rejected hfresh hexpected =>
      refine ⟨fun _ => ?_, fun _ => h⟩
      cases expected with
      | some revision => rfl
      | none =>
          cases hcol : s.collection name with
          | none => simp [Action.fits, hcol]
          | some col =>
              cases hlookup : col.lookup key with
              | none =>
                  have hentry := MemoryState.entry_eq s name key hcol
                  rw [hlookup] at hentry
                  simp [live_none_of_absent now hentry] at hexpected
              | some current => simp [Action.fits, hcol, hlookup]
  | swept hcurrent hexpired hexpected =>
      subst hexpected
      exact ⟨fun _ => rfl, fun _ => h.removeEntry name key none⟩
  | @created col hcol hlive hexpected =>
      subst hexpected
      rw [h.insertEntry_iff hcol]
      simp [Action.fits, hcol]
  | @swapped col current hcol hcurrent hlive hexpected =>
      subst hexpected
      rw [h.insertEntry_iff hcol, ← MemoryState.entry_eq s name key hcol,
        hcurrent]
      simp [Action.fits]

theorem perform_bounded (hmax : config.maxEntriesPerCollection = some max)
    (h : Bounded max s) (action : Action) :
    Bounded max (perform config now order s action).state ↔
      action.fits max s = true := by
  cases action with
  | put name key stored =>
      refine ⟨fun _ => rfl, fun _ => ?_⟩
      simp only [perform, put]
      split
      · exact ((h.but name).insertEntry key stored .plain).enforceCapacity hmax
      · exact h
  | putMany name keys entries =>
      refine ⟨fun _ => rfl, fun _ => ?_⟩
      simp only [perform, putMany]
      split
      · exact ((h.but name).insertMany _).enforceCapacity hmax
      · exact h
  | delete name key =>
      refine ⟨fun _ => rfl, fun _ => ?_⟩
      simp only [perform, delete]
      split
      · exact h
      · split
        · exact h.removeEntry name key none
        · exact h
  | deleteMany name keys =>
      refine ⟨fun _ => rfl, fun _ => ?_⟩
      simp only [perform, deleteMany]
      split
      · exact h
      · exact removeMany_bounded name keys s h
  | compareAndSwap name key expected stored =>
      exact compareAndSwap_bounded h key expected stored
  | compareAndDelete name key expected =>
      refine ⟨fun _ => rfl, fun _ => ?_⟩
      have hcases := compareAndDelete_cases now s name key expected
      simp only [perform]
      generalize compareAndDelete now name s key expected = locked at hcases ⊢
      cases hcases with
      | missing _ | rejected _ _ => exact h
      | swept _ _ | deleted _ _ _ _ => exact h.removeEntry name key _
  | cull =>
      exact ⟨fun _ => rfl, fun _ => bounded_foldl (fun s entry h =>
        h.removeEntry (Prod.fst entry) entry.2 none) _ s h⟩
  | destroyCollection name =>
      refine ⟨fun _ => rfl, fun _ => ?_⟩
      simp only [perform, destroyCollection]
      split
      · exact h.removeCollection name _
      · exact h

end Fits

/-! ## Runs -/

section Runs

variable {config : MemoryConfig} {rng : Nat → Option Revision} {max : Nat}

def StaysBounded (config : MemoryConfig) (rng : Nat → Option Revision)
    (max : Nat) (s : System) (label : Label) : Prop :=
  ∀ s', s.step config rng label = some s' → Bounded max s'.state

theorem step_bounded_iff (hmax : config.maxEntriesPerCollection = some max)
    {s : System} (h : Bounded max s.state) (label : Label) :
    StaysBounded config rng max s label ↔
      s.fits config rng max label = true := by
  refine ⟨fun hstays => ?_, fun hfits s' hstep => ?_⟩
  · cases label with
    | call | advance | cancel => rfl
    | resume task order =>
        rw [System.fits]
        cases hphase : s.tasks task with
        | setup call =>
            exact (enter_bounded hmax h call).mp
              (hstays _ (step_setup config rng order hphase))
        | lock action =>
            cases hfree : s.holder with
            | some holder => rfl
            | none =>
                have hbounded :=
                  hstays _ (step_lock config rng order hphase hfree)
                rw [state_proceed] at hbounded
                exact (perform_bounded hmax h action).mp hbounded
        | _ => rfl
  · cases step_cases hstep with
    | @entered task call order hphase =>
        rw [System.fits, hphase] at hfits
        exact (enter_bounded hmax h call).mpr hfits
    | @performed task action order locked hphase hfree hlocked =>
        rw [System.fits, hphase] at hfits
        simp only [hfree, Option.isSome_none, Bool.false_or] at hfits
        rw [state_proceed, hlocked]
        exact (perform_bounded hmax h action).mpr hfits
    | cleared _ _ =>
        exact bounded_foldl (fun s entry h =>
          h.removeCollection (Sigma.fst entry) entry.2.keys) _ s.state h
    | recorded _ =>
        rw [state_proceed]
        exact h
    | called _ | subscribing _ _ | replayed _ | reset _ | advanced _
    | cancelled => exact h

/-- The states of a run stay within the capacity exactly if no creating
`compare_and_swap` inserts into a full collection, and no token fails to be
read while a seed has a collection above the capacity. -/
theorem stays_bounded_iff (hmax : config.maxEntriesPerCollection = some max)
    (clock : DateTime) (labels : List Label) :
    Along (System.step config rng) (StaysBounded config rng max)
        (.init clock) labels ↔
      Along (System.step config rng)
        (fun s label => s.fits config rng max label = true)
        (.init clock) labels :=
  along_keeps_iff (P := fun s : System => Bounded max s.state)
    (fun _ label h => step_bounded_iff hmax h label) bounded_empty

end Runs

def seeded : MemoryConfig :=
  ⟨some 1, "default_collection", some ((∅ : SeedData).insert "c"
    (((∅ : KeyedMap String Value).insert "a" (.binary [1])).insert "b"
      (.binary [2])))⟩

def withinCapacity : List Label :=
  [.call 0 (.put "k" (.binary [1]) (some "c") none), .resume 0 .stored,
    .resume 0 .stored, .resume 0 .stored, .resume 0 .stored,
    .call 1 (.compareAndSwap "k" none (.binary [2]) (some "d") none),
    .resume 1 .stored, .resume 1 .stored, .resume 1 .stored]

theorem stays_bounded_within_capacity :
    Along (System.step seeded sampleSource) (StaysBounded seeded sampleSource 1)
      (.init .epoch) withinCapacity :=
  (stays_bounded_iff rfl .epoch withinCapacity).mpr (by decide +kernel)

def capacityOne : MemoryConfig := ⟨some 1, "default_collection", none⟩

def createdBeyond : List Label :=
  [.call 0 (.put "a" (.binary [1]) (some "c") none), .resume 0 .stored,
    .resume 0 .stored, .resume 0 .stored,
    .call 0 (.compareAndSwap "b" none (.binary [2]) (some "c") none),
    .resume 0 .stored, .resume 0 .stored, .resume 0 .stored]

theorem compare_and_swap_exceeds_capacity :
    ¬ ∀ (labels : List Label) (t : System),
      sampleRun capacityOne labels = some t → Bounded 1 t.state := by
  intro h
  have hsize : ((sampleEnd capacityOne createdBeyond).state.collection "c").map
      KeyedMap.size = some 2 := by decide +kernel
  obtain ⟨col, hcol, hsize⟩ := Option.map_eq_some_iff.mp hsize
  have hbounded := h createdBeyond (sampleEnd capacityOne createdBeyond)
    (sampleRun_eq (by decide +kernel)) "c" col hcol
  omega

end OpenKeyV.Memory
