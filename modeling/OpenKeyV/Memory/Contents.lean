import OpenKeyV.Memory.Cancellation
import OpenKeyV.Memory.Expired
import OpenKeyV.Memory.LiveCalls
import Mathlib.Data.Finset.Card
import Mathlib.Logic.Function.Basic

/-!
# What a memory store holds

A call on entries reads and writes cells, each a collection and a key.  For a
store without a seed, a call that is carried out alone and evicts nothing is
given by its effect on cells: this is the store under a wrapper that renames
keys or spreads them over several stores.
-/

namespace OpenKeyV.Memory

open Library

abbrev Cell := String × String

abbrev Cells (α : Type) := Cell → Option α

def MemoryState.cells (s : MemoryState) : Cells RevisionedEntry :=
  fun cell => s.entry cell.1 cell.2

def Cells.held (m : Cells RevisionedEntry) : Cells ManagedEntry :=
  fun cell => (m cell).map (·.entry)

/-! ## Calls on cells -/

namespace Cells

section Batches

variable {α : Type} (name : String)

def insertAll : List (String × α) → Cells α → Cells α
  | [], m => m
  | (key, a) :: items, m =>
      insertAll items (Function.update m (name, key) (some a))

def deleteAll : List String → Cells α → Nat × Cells α
  | [], m => (0, m)
  | key :: keys, m =>
      let rest := deleteAll keys (Function.update m (name, key) none)
      (rest.1 + (m (name, key)).isSome.toNat, rest.2)

end Batches

variable (now : DateTime) (name : String)

def live (m : Cells ManagedEntry) (cell : Cell) : Option ManagedEntry :=
  (m cell).filter fun entry => !entry.isExpired now

def put (key : String) (value : Value) (ttl : Option F64)
    (m : Cells ManagedEntry) : Except Error Response × Cells ManagedEntry :=
  match ManagedEntry.ofTtl now value ttl with
  | .error error => (.error error, m)
  | .ok entry => (.ok .unit, Function.update m (name, key) (some entry))

def putAll (keys : List String) (values : List Value) (ttl : Option F64)
    (m : Cells ManagedEntry) : Except Error Response × Cells ManagedEntry :=
  match values.mapM fun value => ManagedEntry.ofTtl now value ttl with
  | .error error => (.error error, m)
  | .ok entries => (.ok .unit, insertAll name (keys.zip entries) m)

def putMany (keys : List String) (values : List Value) (ttl : Option F64)
    (m : Cells ManagedEntry) : Except Error Response × Cells ManagedEntry :=
  if keys.length ≠ values.length then
    (.error (.batchSizeMismatch keys.length values.length), m)
  else
    match ttl.map (ManagedEntry.validateTtl now) with
    | some (.error error) => (.error error, m)
    | _ => putAll now name keys values ttl m

def apply : Call → Cells ManagedEntry →
    Except Error Response × Cells ManagedEntry
  | .get key _, m =>
      (.ok (.value ((live now m (name, key)).map (·.value))), m)
  | .ttl key _, m =>
      (.ok (.ttl ((live now m (name, key)).map fun entry =>
        (entry.value, entry.ttl now))), m)
  | .getMany keys _, m =>
      (.ok (.values (keys.map fun key =>
        (live now m (name, key)).map (·.value))), m)
  | .ttlMany keys _, m =>
      (.ok (.ttls (keys.map fun key => (live now m (name, key)).map
        fun entry => (entry.value, entry.ttl now))), m)
  | .put key value _ ttl, m => put now name key value ttl m
  | .putMany keys values _ ttl, m => putMany now name keys values ttl m
  | .delete key _, m =>
      (.ok (.flag (m (name, key)).isSome),
        Function.update m (name, key) none)
  | .deleteMany keys _, m =>
      let (count, m) := deleteAll name keys m
      (.ok (.count count), m)
  -- No plain call.
  | _, m => (.error (.invalidOperation "not a plain call"), m)

end Cells

def Call.plain : Call → Bool
  | .get .. | .ttl .. | .put .. | .delete .. | .getMany .. | .ttlMany ..
  | .putMany .. | .deleteMany .. => true
  | _ => false

def Call.collection? : Call → Option String
  | .get _ c | .ttl _ c | .put _ _ c _ | .delete _ c | .getMany _ c
  | .ttlMany _ c | .putMany _ _ c _ | .deleteMany _ c | .getWithRevision _ c
  | .compareAndSwap _ _ _ c _ | .compareAndDelete _ _ c | .keys c _ => c
  | _ => none

/-! ## Calls are local -/

def Call.named : Call → List String
  | .get key _ | .ttl key _ | .put key _ _ _ | .delete key _
  | .getWithRevision key _ | .compareAndSwap key _ _ _ _
  | .compareAndDelete key _ _ => [key]
  | .getMany named _ | .ttlMany named _ | .putMany named _ _ _
  | .deleteMany named _ => named
  | _ => []

namespace Cells

section Batches

variable {α : Type} {name : String}

theorem insertAll_agree {P : Cell → Prop} (items : List (String × α))
    {m m' : Cells α} (h : ∀ cell, P cell → m cell = m' cell) (cell : Cell)
    (hcell : P cell) :
    insertAll name items m cell = insertAll name items m' cell := by
  induction items generalizing m m' with
  | nil => exact h cell hcell
  | cons item items ih =>
      obtain ⟨key, a⟩ := item
      refine ih fun other hother => ?_
      rw [Function.update_apply, Function.update_apply, h other hother]

theorem insertAll_other (items : List (String × α)) (m : Cells α)
    {cell : Cell} (hcell : ∀ item ∈ items, cell ≠ (name, item.1)) :
    insertAll name items m cell = m cell := by
  induction items generalizing m with
  | nil => rfl
  | cons item items ih =>
      obtain ⟨hfirst, hrest⟩ := List.forall_mem_cons.mp hcell
      rw [insertAll, ih _ hrest, Function.update_of_ne hfirst]

theorem insertAll_mem {items : List (String × α)}
    (hnodup : (items.map Prod.fst).Nodup) (m : Cells α)
    {item : String × α} (hitem : item ∈ items) :
    insertAll name items m (name, item.1) = some item.2 := by
  induction items generalizing m with
  | nil => cases hitem
  | cons first items ih =>
      obtain ⟨key, a⟩ := first
      rw [List.map_cons, List.nodup_cons] at hnodup
      rw [insertAll]
      rcases List.mem_cons.mp hitem with rfl | hitem
      · rw [insertAll_other, Function.update_self]
        rintro other hother heq
        have hmem : other.1 ∈ items.map Prod.fst := List.mem_map_of_mem hother
        rw [← (Prod.mk.inj heq).2] at hmem
        exact hnodup.1 hmem
      · exact ih hnodup.2 _ hitem

theorem insertAll_keeps (items : List (String × α)) (m : Cells α)
    {cell : Cell} (hcell : (m cell).isSome = true) :
    (insertAll name items m cell).isSome = true := by
  induction items generalizing m with
  | nil => exact hcell
  | cons item items ih =>
      refine ih _ ?_
      rw [Function.update_apply]
      split
      · rfl
      · exact hcell

theorem deleteAll_apply (keys : List String) (m : Cells α) (cell : Cell) :
    (deleteAll name keys m).2 cell =
      if ∃ key ∈ keys, cell = (name, key) then none else m cell := by
  induction keys generalizing m with
  | nil => simp [deleteAll]
  | cons key keys ih =>
      rw [deleteAll, ih, Function.update_apply]
      by_cases hfirst : cell = (name, key)
      · simp [hfirst]
      · simp [hfirst]

theorem deleteAll_agree (keys : List String) {P : Cell → Prop}
    {m m' : Cells α} (h : ∀ cell, P cell → m cell = m' cell)
    (hkeys : ∀ key ∈ keys, P (name, key)) :
    (deleteAll name keys m).1 = (deleteAll name keys m').1 := by
  induction keys generalizing m m' with
  | nil => rfl
  | cons key keys ih =>
      obtain ⟨hfirst, hrest⟩ := List.forall_mem_cons.mp hkeys
      have hremoved : ∀ cell, P cell →
          Function.update m (name, key) none cell =
            Function.update m' (name, key) none cell := by
        intro cell hcell
        rw [Function.update_apply, Function.update_apply, h cell hcell]
      simp only [deleteAll, h _ hfirst, ih hremoved hrest]

end Batches

variable {now : DateTime} {name : String} {m m' : Cells ManagedEntry}
  {call : Call}

theorem apply_agree {P : Cell → Prop} (h : ∀ cell, P cell → m cell = m' cell)
    (hnamed : ∀ key ∈ call.named, P (name, key)) (hcall : call.plain = true) :
    (apply now name call m).1 = (apply now name call m').1 ∧
      ∀ cell, P cell →
        (apply now name call m).2 cell = (apply now name call m').2 cell := by
  have hlive : ∀ key ∈ call.named,
      live now m (name, key) = live now m' (name, key) := fun key hkey => by
    rw [live, live, h _ (hnamed key hkey)]
  have hupdate : ∀ key (stored : Option ManagedEntry) cell, P cell →
      Function.update m (name, key) stored cell =
        Function.update m' (name, key) stored cell := by
    intro key stored cell hcell
    rw [Function.update_apply, Function.update_apply, h cell hcell]
  cases call with
  | subscribe | cull | collections | destroyCollection | destroy | keys
  | getWithRevision | compareAndSwap | compareAndDelete => cases hcall
  | get key | ttl key =>
      refine ⟨?_, h⟩
      simp only [apply, hlive key (List.mem_singleton_self key)]
  | getMany keys | ttlMany keys =>
      refine ⟨?_, h⟩
      simp only [apply]
      congr 2
      exact List.map_congr_left fun key hkey => by rw [hlive key hkey]
  | put key value collection ttl =>
      simp only [apply, put]
      cases ManagedEntry.ofTtl now value ttl with
      | error error => exact ⟨rfl, h⟩
      | ok entry => exact ⟨rfl, hupdate key (some entry)⟩
  | putMany keys values collection ttl =>
      simp only [apply, putMany]
      split
      · exact ⟨rfl, h⟩
      · split
        · exact ⟨rfl, h⟩
        · simp only [putAll]
          cases values.mapM fun value => ManagedEntry.ofTtl now value ttl with
          | error error => exact ⟨rfl, h⟩
          | ok entries => exact ⟨rfl, insertAll_agree _ h⟩
  | delete key =>
      refine ⟨?_, hupdate key none⟩
      simp only [apply, h _ (hnamed key (List.mem_singleton_self key))]
  | deleteMany keys =>
      refine ⟨?_, fun cell hcell => ?_⟩
      · simp only [apply, deleteAll_agree keys h hnamed]
      · simp only [apply, deleteAll_apply, h cell hcell]

theorem apply_other {cell : Cell}
    (hcell : ∀ key ∈ call.named, cell ≠ (name, key)) :
    (apply now name call m).2 cell = m cell := by
  cases call with
  | subscribe | cull | collections | destroyCollection | destroy | keys
  | getWithRevision | compareAndSwap | compareAndDelete | get | ttl | getMany
  | ttlMany => rfl
  | put key value collection ttl =>
      simp only [apply, put]
      cases ManagedEntry.ofTtl now value ttl with
      | error error => rfl
      | ok entry =>
          exact Function.update_of_ne
            (hcell key (List.mem_singleton_self key)) ..
  | putMany keys values collection ttl =>
      simp only [apply, putMany]
      split
      · rfl
      · split
        · rfl
        · simp only [putAll]
          cases values.mapM fun value => ManagedEntry.ofTtl now value ttl with
          | error error => rfl
          | ok entries =>
              exact insertAll_other _ m fun item hitem =>
                hcell item.1 (List.of_mem_zip hitem).1
  | delete key =>
      exact Function.update_of_ne (hcell key (List.mem_singleton_self key)) ..
  | deleteMany keys =>
      simp only [apply, deleteAll_apply]
      exact if_neg fun ⟨key, hkey, heq⟩ => hcell key hkey heq

end Cells

/-! ## The memory store on cells -/

section Steps

variable {config : MemoryConfig} {now : DateTime} {s : MemoryState}
  {name : String}

theorem cells_ensureCollection (s : MemoryState) (name : String) :
    (s.ensureCollection name).cells = s.cells := by
  funext cell
  exact s.entry_ensureCollection name cell.1 cell.2

theorem draws_ensureCollection (s : MemoryState) (name : String) :
    (s.ensureCollection name).draws = s.draws := by
  unfold MemoryState.ensureCollection
  split <;> rfl

theorem cells_insertEntry {col : Collection}
    (hcol : s.collection name = some col) (key : String)
    (stored : RevisionedEntry) (cause : Cause) :
    (s.insertEntry name key stored cause).cells =
      Function.update s.cells (name, key) (some stored) := by
  funext ⟨name', key'⟩
  rw [Function.update_apply, MemoryState.cells, entry_insertEntry hcol]
  exact if_congr eq_comm rfl rfl

theorem cells_removeEntry {col : Collection}
    (hcol : s.collection name = some col) (key : String)
    (expected : Option Revision) :
    (s.removeEntry name key expected).cells =
      Function.update s.cells (name, key) none := by
  funext ⟨name', key'⟩
  rw [Function.update_apply, MemoryState.cells, entry_removeEntry hcol]
  exact if_congr eq_comm rfl rfl

theorem cells_recordChanges (mutations : List Mutation) (s : MemoryState) :
    (mutations.foldl (fun s mutation => s.recordChange now mutation) s).cells =
      s.cells := by
  funext cell
  exact entry_recordChanges mutations s cell.1 cell.2

theorem live_held (cell : Cell) :
    Cells.live now s.cells.held cell =
      (s.live now cell.1 cell.2).map (·.entry) := by
  rw [Cells.live, Cells.held, MemoryState.live, Option.filter_map]
  rfl

end Steps

/-! ## Room -/

namespace Cells

variable {config : MemoryConfig} {now : DateTime} {name key : String}
  {keys named : List String} {entry : ManagedEntry} {ttl : Option F64}

theorem held_update (m : Cells RevisionedEntry) (cell : Cell)
    (stored : Option RevisionedEntry) :
    held (Function.update m cell stored) =
      Function.update (held m) cell (stored.map (·.entry)) := by
  funext other
  rw [held, Function.update_apply, Function.update_apply]
  exact apply_ite ..

def Sub {α : Type} (m' m : Cells α) : Prop :=
  ∀ cell a, m' cell = some a → m cell = some a

theorem Sub.update {α : Type} {m' m : Cells α} (h : Sub m' m) (cell : Cell)
    (stored : Option α) :
    Sub (Function.update m' cell stored) (Function.update m cell stored) := by
  intro other a hother
  by_cases hcell : other = cell
  · rw [hcell, Function.update_self] at hother ⊢
    exact hother
  · rw [Function.update_of_ne hcell] at hother ⊢
    exact h other a hother

theorem Sub.insertAll {α : Type} {m' m : Cells α} (h : Sub m' m)
    (items : List (String × α)) :
    Sub (insertAll name items m') (insertAll name items m) := by
  induction items generalizing m' m with
  | nil => exact h
  | cons item items ih => exact ih (h.update _ _)

theorem Sub.held {m' m : Cells RevisionedEntry} (h : Sub m' m) :
    Sub m'.held m.held := by
  intro cell entry hentry
  obtain ⟨stored, hstored, rfl⟩ := Option.map_eq_some_iff.mp hentry
  rw [Cells.held, h cell stored hstored]
  rfl

/-- The collection has no other keys, and nothing in it has expired. -/
def Within (now : DateTime) (name : String) (keys : Finset String)
    (m : Cells ManagedEntry) : Prop :=
  ∀ key entry, m (name, key) = some entry →
    key ∈ keys ∧ entry.isExpired now = false

/-- `enforce_capacity` removes nothing. -/
def Uncrowded (config : MemoryConfig) (now : DateTime) (name : String)
    (m : Cells ManagedEntry) : Prop :=
  ∀ max, config.maxEntriesPerCollection = some max →
    ∃ keys : Finset String, keys.card ≤ max ∧ Within now name keys m

/-- The named keys can be put with the TTL, and nothing is evicted. -/
def HasRoom (config : MemoryConfig) (now : DateTime) (name : String)
    (named : List String) (ttl : Option F64) (m : Cells ManagedEntry) : Prop :=
  ∀ max, config.maxEntriesPerCollection = some max →
    (∀ value entry, ManagedEntry.ofTtl now value ttl = .ok entry →
      entry.isExpired now = false) ∧
    ∃ keys : Finset String, keys.card ≤ max ∧ (∀ key ∈ named, key ∈ keys) ∧
      Within now name keys m

theorem Within.update {keys : Finset String} {m : Cells ManagedEntry}
    (h : Within now name keys m) (hkey : key ∈ keys)
    (hfresh : entry.isExpired now = false) :
    Within now name keys (Function.update m (name, key) (some entry)) := by
  intro other found hfound
  by_cases hother : (name, other) = (name, key)
  · cases hother
    rw [Function.update_self] at hfound
    cases hfound
    exact ⟨hkey, hfresh⟩
  · rw [Function.update_of_ne hother] at hfound
    exact h other found hfound

theorem Uncrowded.mono {m m' : Cells ManagedEntry}
    (h : Uncrowded config now name m)
    (hsub : Sub m' m) :
    Uncrowded config now name m' := by
  intro max hmax
  obtain ⟨keys, hcard, hwithin⟩ := h max hmax
  exact ⟨keys, hcard, fun key entry hentry =>
    hwithin key entry (hsub _ _ hentry)⟩

theorem uncrowded_of_unbounded {m : Cells ManagedEntry}
    (hmax : config.maxEntriesPerCollection = none) :
    Uncrowded config now name m := by
  intro max hsome
  rw [hmax] at hsome
  cases hsome

theorem HasRoom.mono {m m' : Cells ManagedEntry} {named' : List String}
    (h : HasRoom config now name named ttl m)
    (hnamed : ∀ key ∈ named', key ∈ named) (hsub : Sub m' m) :
    HasRoom config now name named' ttl m' := by
  intro max hmax
  obtain ⟨hlasts, keys, hcard, hin, hwithin⟩ := h max hmax
  exact ⟨hlasts, keys, hcard, fun key hkey => hin key (hnamed key hkey),
    fun key entry hentry => hwithin key entry (hsub _ _ hentry)⟩

theorem HasRoom.update {m : Cells ManagedEntry} {value : Value}
    (h : HasRoom config now name named ttl m) (hkey : key ∈ named)
    (hentry : ManagedEntry.ofTtl now value ttl = .ok entry) :
    HasRoom config now name named ttl
      (Function.update m (name, key) (some entry)) := by
  intro max hmax
  obtain ⟨hlasts, keys, hcard, hin, hwithin⟩ := h max hmax
  exact ⟨hlasts, keys, hcard, hin,
    hwithin.update (hin key hkey) (hlasts value entry hentry)⟩

theorem HasRoom.uncrowded {m : Cells ManagedEntry}
    (h : HasRoom config now name named ttl m) :
    Uncrowded config now name m := by
  intro max hmax
  obtain ⟨-, keys, hcard, -, hwithin⟩ := h max hmax
  exact ⟨keys, hcard, hwithin⟩

theorem HasRoom.insertAll {m : Cells ManagedEntry} {values : List Value}
    {entries : List ManagedEntry}
    (h : HasRoom config now name named ttl m)
    (hkeys : ∀ key ∈ keys, key ∈ named)
    (hentries : (values.mapM fun value =>
      ManagedEntry.ofTtl now value ttl) = .ok entries) :
    HasRoom config now name named ttl
      (Cells.insertAll name (keys.zip entries) m) := by
  induction keys generalizing values entries m with
  | nil => exact h
  | cons key keys ih =>
      obtain ⟨hkey, hrest⟩ := List.forall_mem_cons.mp hkeys
      cases values with
      | nil =>
          cases hentries
          exact h
      | cons value values =>
          rw [List.mapM_cons, bind_eq_ok] at hentries
          obtain ⟨entry, hentry, hmore⟩ := hentries
          obtain ⟨entries, hvalues, hcons⟩ := bind_eq_ok.mp hmore
          cases hcons
          exact ih (h.update hkey hentry) hrest hvalues

end Cells

/-- A call that puts has room. -/
def Call.Spacious (config : MemoryConfig) (now : DateTime)
    (m : Cells ManagedEntry) : Call → Prop
  | .put key _ c seconds =>
      Cells.HasRoom config now (config.collectionName c) [key] seconds m
  | .putMany names _ c seconds =>
      Cells.HasRoom config now (config.collectionName c) names seconds m
  | _ => True

theorem Call.Spacious.mono {config : MemoryConfig} {now : DateTime}
    {call : Call} {m m' : Cells ManagedEntry}
    (h : call.Spacious config now m) (hsub : Cells.Sub m' m) :
    call.Spacious config now m' := by
  cases call with
  | put | putMany => exact Cells.HasRoom.mono h (fun _ hkey => hkey) hsub
  | _ => trivial

theorem spacious_of_unbounded {config : MemoryConfig} {now : DateTime}
    {m : Cells ManagedEntry} {call : Call}
    (hmax : config.maxEntriesPerCollection = none) :
    call.Spacious config now m := by
  have hroom : ∀ name keys seconds,
      Cells.HasRoom config now name keys seconds m := by
    intro name keys seconds max hsome
    rw [hmax] at hsome
    cases hsome
  cases call with
  | put | putMany => exact hroom _ _ _
  | _ => trivial

theorem overflowing_of_le {max fuel : Nat} {col : Collection}
    (h : col.size ≤ max) : overflowing max fuel col = [] := by
  cases fuel with
  | zero => rfl
  | succ fuel => rw [overflowing, if_neg (Nat.not_lt.mpr h)]

theorem enforceCapacity_uncrowded {config : MemoryConfig} {now : DateTime}
    {name : String} {s : MemoryState} (order : Order)
    (h : Cells.Uncrowded config now name s.cells.held) :
    enforceCapacity config now order name s = (s, []) := by
  unfold enforceCapacity
  split
  · rfl
  · rename_i col hcol
    suffices hnone : excessKeys config now order name col = [] by
      simp [hnone, MemoryState.removeKeys]
    unfold excessKeys
    split
    · rfl
    · rename_i max hmax
      obtain ⟨keys, hcard, hwithin⟩ := h max hmax
      have hheld : ∀ key ∈ col.keys, key ∈ keys ∧
          (col.lookup key).any (fun stored => stored.isExpired now) =
            false := by
        intro key hkey
        obtain ⟨stored, hlookup⟩ := KeyedMap.mem_keys_iff.mp hkey
        obtain ⟨hmem, hfresh⟩ := hwithin key stored.entry (by
          rw [Cells.held, MemoryState.cells, s.entry_eq name key hcol, hlookup]
          rfl)
        exact ⟨hmem, by rw [hlookup]; exact hfresh⟩
      have hexpired : expiredKeys now col = [] :=
        List.filter_eq_nil_iff.mpr fun key hkey => by simp [(hheld key hkey).2]
      have hkept : ∀ kept : Collection, kept.keys ⊆ col.keys →
          kept.size ≤ max := fun kept hsub => by
        rw [KeyedMap.size, ← List.toFinset_card_of_nodup kept.keys_nodup]
        exact (Finset.card_le_card fun key hkey =>
          (hheld key (hsub (List.mem_toFinset.mp hkey))).1).trans hcard
      have hfit := hkept
        (KeyedMap.retain (fun _ stored => !stored.isExpired now) col)
        fun key hkey => (KeyedMap.mem_keys_retain.mp hkey).1
      simp only [hexpired, overflowing_of_le hfit, List.append_nil]
      exact (order.keys_perm name []).eq_nil

section Actions

variable {config : MemoryConfig} {now : DateTime} {order : Order}
  {s : MemoryState} {name : String} {col : Collection}

theorem result_and_cells_delete (hcol : s.collection name = some col)
    (key : String) :
    (delete name s key).result = .ok (.flag (s.cells (name, key)).isSome) ∧
      (delete name s key).state.cells =
        Function.update s.cells (name, key) none := by
  refine ⟨result_delete hcol key, ?_⟩
  unfold delete
  rw [hcol]
  simp only
  cases hlookup : col.lookup key with
  | some stored => exact cells_removeEntry hcol key none
  | none =>
      have habsent : s.cells (name, key) = none := by
        rw [MemoryState.cells, s.entry_eq name key hcol, hlookup]
      exact (Function.update_eq_self_iff.mpr habsent.symm).symm

theorem removeMany_cells (hcol : s.collection name = some col)
    (keys : List String) :
    (removeMany name keys s).2.length =
        (Cells.deleteAll name keys s.cells).1 ∧
      (removeMany name keys s).1.cells =
        (Cells.deleteAll name keys s.cells).2 := by
  induction keys generalizing s col with
  | nil => exact ⟨rfl, rfl⟩
  | cons key keys ih =>
      simp only [removeMany, Cells.deleteAll]
      cases hentry : s.entry name key with
      | none =>
          have habsent : s.cells (name, key) = none := hentry
          obtain ⟨hcount, hcells⟩ := ih hcol
          rw [Function.update_eq_self_iff.mpr habsent.symm]
          exact ⟨by simp [habsent, hcount], hcells⟩
      | some stored =>
          have hpresent : s.cells (name, key) = some stored := hentry
          have hcol' : (s.removeEntry name key none).collection name =
              some (col.erase key) := by
            simp [MemoryState.collection_removeEntry, hcol]
          obtain ⟨hcount, hcells⟩ := ih hcol'
          rw [cells_removeEntry hcol] at hcount hcells
          exact ⟨by simp [hpresent, hcount], hcells⟩

theorem insertMany_cells (hcol : s.collection name = some col)
    (items : List (String × RevisionedEntry)) :
    (insertMany name s items).cells = Cells.insertAll name items s.cells := by
  induction items generalizing s col with
  | nil => rfl
  | cons item items ih =>
      obtain ⟨key, stored⟩ := item
      have hcol' : (s.insertEntry name key stored .plain).collection name =
          some (col.insert key stored) := by
        simp [MemoryState.collection_insertEntry, hcol]
      have hrest := ih hcol'
      rw [cells_insertEntry hcol] at hrest
      exact hrest

theorem put_roomy (hcol : s.collection name = some col) {key : String}
    {stored : RevisionedEntry}
    (hroom : Cells.Uncrowded config now name
      (Cells.held (Function.update s.cells (name, key) (some stored)))) :
    put config now order name s key stored =
      ⟨s.insertEntry name key stored .plain, [⟨name, key, .put⟩], [],
        .ok .unit⟩ := by
  rw [← cells_insertEntry hcol key stored .plain] at hroom
  simp only [put, hcol, enforceCapacity_uncrowded order hroom]
  rfl

theorem putMany_roomy (hcol : s.collection name = some col)
    {keys : List String} {entries : List RevisionedEntry}
    (hroom : Cells.Uncrowded config now name
      (Cells.held (Cells.insertAll name (keys.zip entries) s.cells))) :
    putMany config now order name s keys entries =
      ⟨insertMany name s (keys.zip entries),
        keys.map fun key => ⟨name, key, .put⟩, [], .ok .unit⟩ := by
  rw [← insertMany_cells hcol] at hroom
  simp only [putMany, hcol, enforceCapacity_uncrowded order hroom]
  exact congrArg (Locked.mk _ · [] _) (List.append_nil _)

theorem deleteMany_cells (hcol : s.collection name = some col)
    (keys : List String) :
    (deleteMany name s keys).result =
        .ok (.count (Cells.deleteAll name keys s.cells).1) ∧
      (deleteMany name s keys).state.cells =
        (Cells.deleteAll name keys s.cells).2 := by
  obtain ⟨hcount, hcells⟩ := removeMany_cells hcol keys
  simp only [deleteMany, hcol, hcount]
  exact ⟨trivial, hcells⟩

theorem sweep_of_live {key : String}
    (h : ∀ current, s.entry name key = some current →
      current.isExpired now = false) :
    Function.update s.cells (name, key) (s.live now name key) = s.cells := by
  have hlive : s.live now name key = s.cells (name, key) := by
    cases hentry : s.entry name key with
    | none =>
        rw [live_none_of_absent now hentry]
        exact hentry.symm
    | some current =>
        rw [live_of_entry hentry (h current hentry)]
        exact hentry.symm
  rw [hlive, Function.update_eq_self]

theorem compareAndSwap_cells (hcol : s.collection name = some col)
    (key : String) (expected : Option Revision) (stored : RevisionedEntry) :
    let current := s.live now name key
    let locked := compareAndSwap now name s key expected stored
    (expected = current.map (·.revision) →
      locked.result = .ok (.swap (.applied stored.revision)) ∧
        locked.state.cells =
          Function.update s.cells (name, key) (some stored)) ∧
    (expected ≠ current.map (·.revision) →
      locked.result =
          .ok (.swap (.conflict (current.map (·.snapshot now)))) ∧
        locked.state.cells =
          Function.update s.cells (name, key) (s.live now name key)) := by
  have hcases := compareAndSwap_cases now s name key expected stored
  simp only
  generalize compareAndSwap now name s key expected stored = locked
    at hcases ⊢
  cases hcases with
  | missing hnone => simp [hcol] at hnone
  | rejected hfresh hexpected =>
      exact ⟨fun h => absurd h hexpected,
        fun _ => ⟨rfl, (sweep_of_live hfresh).symm⟩⟩
  | swept hcurrent hexpired hexpected =>
      rw [live_none_of_expired hcurrent hexpired, hexpected]
      exact ⟨fun h => absurd h (by simp),
        fun _ => ⟨rfl, cells_removeEntry hcol key none⟩⟩
  | created _ hlive hexpected =>
      rw [hlive, hexpected]
      exact ⟨fun _ => ⟨rfl, cells_insertEntry hcol ..⟩,
        fun h => absurd rfl h⟩
  | swapped _ hcurrent hfresh hexpected =>
      rw [live_of_entry hcurrent hfresh, hexpected]
      exact ⟨fun _ => ⟨rfl, cells_insertEntry hcol ..⟩,
        fun h => absurd rfl h⟩

theorem compareAndDelete_cells (hcol : s.collection name = some col)
    (key : String) (expected : Revision) :
    let current := s.live now name key
    let locked := compareAndDelete now name s key expected
    (some expected = current.map (·.revision) →
      locked.result = .ok (.remove .deleted) ∧
        locked.state.cells = Function.update s.cells (name, key) none) ∧
    (some expected ≠ current.map (·.revision) →
      locked.result =
          .ok (.remove (.conflict (current.map (·.snapshot now)))) ∧
        locked.state.cells =
          Function.update s.cells (name, key) (s.live now name key)) := by
  have hcases := compareAndDelete_cases now s name key expected
  simp only
  generalize compareAndDelete now name s key expected = locked at hcases ⊢
  cases hcases with
  | missing hnone => simp [hcol] at hnone
  | rejected hfresh hexpected =>
      exact ⟨fun h => absurd h hexpected,
        fun _ => ⟨rfl, (sweep_of_live hfresh).symm⟩⟩
  | swept hcurrent hexpired =>
      rw [live_none_of_expired hcurrent hexpired]
      exact ⟨fun h => absurd h (by simp),
        fun _ => ⟨rfl, cells_removeEntry hcol key none⟩⟩
  | deleted _ hcurrent hfresh hexpected =>
      rw [live_of_entry hcurrent hfresh, hexpected]
      exact ⟨fun _ => ⟨rfl, cells_removeEntry hcol ..⟩,
        fun h => absurd rfl h⟩

end Actions

/-! ## Whole calls -/

namespace Cells

theorem held_insertAll (name : String) (keys : List String)
    (entries : List ManagedEntry) (revisions : List Revision)
    (hlength : entries.length ≤ revisions.length) (m : Cells RevisionedEntry) :
    held (insertAll name
        (keys.zip (entries.zipWith RevisionedEntry.mk revisions)) m) =
      insertAll name (keys.zip entries) (held m) := by
  induction keys generalizing entries revisions m with
  | nil => rfl
  | cons key keys ih =>
      cases entries with
      | nil => rfl
      | cons entry entries =>
          cases revisions with
          | nil => simp at hlength
          | cons revision revisions =>
              have hrest := ih entries revisions (by simpa using hlength)
                (Function.update m (name, key) (some ⟨entry, revision⟩))
              rw [held_update] at hrest
              exact hrest

theorem held_deleteAll (name : String) (keys : List String)
    (m : Cells RevisionedEntry) :
    deleteAll name keys (held m) =
      ((deleteAll name keys m).1, held (deleteAll name keys m).2) := by
  induction keys generalizing m with
  | nil => rfl
  | cons key keys ih =>
      have hrest := ih (Function.update m (name, key) none)
      rw [held_update, Option.map_none] at hrest
      simp only [deleteAll, hrest, held, Option.isSome_map]

end Cells

section Calls

variable {config : MemoryConfig} {rng : Nat → Option Revision}
  {now : DateTime} {order : Order} {s : MemoryState} {call : Call}

def Supplied (rng : Nat → Option Revision) : Prop :=
  ∀ n, (rng n).isSome = true

theorem fresh_supplied (hrng : Supplied rng) (s : MemoryState) :
    ∃ revision t, s.fresh rng = (.ok revision, t) ∧
      t.collections = s.collections := by
  obtain ⟨revision, hrevision⟩ := Option.isSome_iff_exists.mp (hrng s.draws)
  refine ⟨revision, { s with draws := s.draws + 1 }, ?_, rfl⟩
  simp only [MemoryState.fresh, hrevision]

theorem freshMany_supplied (hrng : Supplied rng) (n : Nat) (s : MemoryState) :
    ∃ revisions t, freshMany rng n s = (.ok revisions, t) ∧
      revisions.length = n ∧ t.collections = s.collections := by
  induction n generalizing s with
  | zero => exact ⟨[], s, rfl, rfl, rfl⟩
  | succ n ih =>
      obtain ⟨revision, t, hfirst, hdrawn⟩ := fresh_supplied hrng s
      obtain ⟨revisions, t', hrest, hlength, hmore⟩ := ih t
      refine ⟨revision :: revisions, t', ?_, by simp [hlength],
        hmore.trans hdrawn⟩
      simp only [freshMany, hfirst, hrest]

theorem collection_ensured (s : MemoryState) (name : String) :
    (s.ensureCollection name).collection name =
      some ((s.collection name).getD ∅) := by
  rw [MemoryState.collection_ensureCollection, if_pos rfl]

theorem drawn_ensured {s t : MemoryState} {name : String}
    (h : t.collections = (s.ensureCollection name).collections) :
    t.collection name = some ((s.collection name).getD ∅) ∧
      t.cells = s.cells := by
  constructor
  · rw [MemoryState.collection, h]
    exact collection_ensured s name
  · rw [← cells_ensureCollection s name]
    funext cell
    simp only [MemoryState.cells, MemoryState.entry, MemoryState.collection, h]

theorem runAlone_unseeded (hseed : config.seed = none)
    (rng : Nat → Option Revision) (hstart : start now call = .setup call) :
    runAlone config rng now order call s =
      finish config now order (prepare config rng now order
        { s with setupComplete := true } call) := by
  rw [runAlone_eq hstart, setup_unseeded rng now order hseed]
  rfl

def SameHeld (r : Except Error Response × MemoryState)
    (spec : Except Error Response × Cells ManagedEntry) : Prop :=
  r.1 = spec.1 ∧ r.2.cells.held = spec.2

theorem sameHeld_done {t : MemoryState} (result : Except Error Response)
    {spec : Except Error Response × Cells ManagedEntry}
    (hresult : result = spec.1) (hcells : t.cells.held = spec.2) :
    SameHeld (finish config now order (t, .done result)) spec :=
  ⟨hresult, hcells⟩

theorem sameHeld_lock {t : MemoryState} {action : Action}
    {spec : Except Error Response × Cells ManagedEntry}
    (hresult : (perform config now order t action).result = spec.1)
    (hcells : (perform config now order t action).state.cells.held = spec.2) :
    SameHeld (finish config now order (t, .lock action)) spec := by
  refine ⟨hresult, ?_⟩
  rw [← hcells]
  exact congrArg Cells.held (cells_recordChanges _ _)

section Prepared

variable (t : MemoryState) (order) (collection : Option String)

theorem sameHeld_put {key : String} {ttl : Option F64}
    (hroom : Cells.HasRoom config now (config.collectionName collection) [key]
      ttl t.cells.held)
    (hrng : Supplied rng) (value : Value) :
    SameHeld (finish config now order (prepare config rng now order t
        (.put key value collection ttl)))
      (Cells.put now (config.collectionName collection) key value ttl
        t.cells.held) := by
  simp only [prepare, Cells.put]
  cases hentry : ManagedEntry.ofTtl now value ttl with
  | error error => exact ⟨rfl, congrArg _ (cells_ensureCollection t _)⟩
  | ok entry =>
      obtain ⟨revision, t', hfresh, hdrawn⟩ := fresh_supplied hrng
        (t.ensureCollection (config.collectionName collection))
      obtain ⟨hcol, hsame⟩ := drawn_ensured hdrawn
      have hheld : Cells.held (Function.update t'.cells
          (config.collectionName collection, key)
          (some ⟨entry, revision⟩)) =
            Function.update t.cells.held
              (config.collectionName collection, key) (some entry) := by
        rw [Cells.held_update, hsame]
        rfl
      have hput := @put_roomy config now order _ _ _ hcol key
        ⟨entry, revision⟩ (hheld ▸
          (hroom.update (List.mem_singleton_self key) hentry).uncrowded)
      simp only [hfresh]
      refine sameHeld_lock (by rw [perform, hput]) ?_
      rw [perform, hput, cells_insertEntry hcol, hheld]

theorem sameHeld_putMany {keys : List String} {values : List Value}
    {ttl : Option F64}
    (hroom : Cells.HasRoom config now (config.collectionName collection) keys
      ttl t.cells.held) (hrng : Supplied rng) :
    SameHeld (finish config now order (prepare config rng now order t
        (.putMany keys values collection ttl)))
      (Cells.putAll now (config.collectionName collection) keys values ttl
        t.cells.held) := by
  simp only [prepare, Cells.putAll]
  cases hentries : values.mapM fun value =>
      ManagedEntry.ofTtl now value ttl with
  | error error => exact ⟨rfl, congrArg _ (cells_ensureCollection t _)⟩
  | ok entries =>
      obtain ⟨revisions, t', hfresh, hlength, hdrawn⟩ :=
        freshMany_supplied hrng entries.length
          (t.ensureCollection (config.collectionName collection))
      obtain ⟨hcol, hsame⟩ := drawn_ensured hdrawn
      have hheld : Cells.held (Cells.insertAll
          (config.collectionName collection)
          (keys.zip (entries.zipWith RevisionedEntry.mk revisions))
          t'.cells) =
            Cells.insertAll (config.collectionName collection)
              (keys.zip entries) t.cells.held := by
        rw [Cells.held_insertAll _ _ _ _ hlength.ge, hsame]
      have hput := @putMany_roomy config now order _ _ _ hcol keys _ (hheld ▸
        (hroom.insertAll (fun _ hkey => hkey) hentries).uncrowded)
      simp only [hfresh]
      refine sameHeld_lock (by rw [perform, hput]) ?_
      rw [perform, hput, insertMany_cells hcol, hheld]

theorem sameHeld_delete (key : String) :
    SameHeld (finish config now order (prepare config rng now order t
        (.delete key collection)))
      (Cells.apply now (config.collectionName collection)
        (.delete key collection) t.cells.held) := by
  obtain ⟨hresult, hcells⟩ := result_and_cells_delete
    (collection_ensured t (config.collectionName collection)) key
  rw [cells_ensureCollection] at hresult hcells
  refine sameHeld_lock (hresult.trans ?_) ?_
  · rw [Cells.apply, Cells.held, Option.isSome_map]
  · rw [perform, hcells, Cells.held_update]
    rfl

theorem sameHeld_deleteMany (keys : List String) :
    SameHeld (finish config now order (prepare config rng now order t
        (.deleteMany keys collection)))
      (Cells.apply now (config.collectionName collection)
        (.deleteMany keys collection) t.cells.held) := by
  obtain ⟨hresult, hcells⟩ := deleteMany_cells
    (collection_ensured t (config.collectionName collection)) keys
  rw [cells_ensureCollection] at hresult hcells
  simp only [Cells.apply, Cells.held_deleteAll]
  refine sameHeld_lock hresult ?_
  rw [perform, hcells]

end Prepared

theorem runAlone_cells (hroom : call.Spacious config now s.cells.held)
    (hseed : config.seed = none) (hrng : Supplied rng)
    (hcall : call.plain = true) :
    SameHeld (runAlone config rng now order call s)
      (Cells.apply now (config.collectionName call.collection?) call
        s.cells.held) := by
  have hready : ∀ call, start now call = .setup call →
      runAlone config rng now order call s =
        finish config now order (prepare config rng now order
          { s with setupComplete := true } call) :=
    fun _ hstart => runAlone_unseeded hseed _ hstart
  cases call with
  | subscribe | cull | collections | destroyCollection | destroy | keys
  | getWithRevision | compareAndSwap | compareAndDelete => cases hcall
  | get key collection | ttl key collection | getMany keys collection
  | ttlMany keys collection =>
      rw [hready _ rfl]
      refine sameHeld_done _ ?_ (congrArg _ (cells_ensureCollection ..))
      simp only [Memory.get, Memory.ttl, Memory.getMany, Memory.ttlMany,
        getCollection_ensure, liveIn_ensure, bind, Except.bind, Cells.apply,
        live_held, Option.map_map]
      rfl
  | put key value collection ttl =>
      rw [hready _ rfl]
      refine sameHeld_put order _ collection ?_ hrng value
      exact hroom
  | delete key collection =>
      rw [hready _ rfl]
      exact sameHeld_delete order _ collection key
  | deleteMany keys collection =>
      rw [hready _ rfl]
      exact sameHeld_deleteMany order _ collection keys
  | putMany keys values collection ttl =>
      simp only [Cells.apply, Cells.putMany]
      split
      · rename_i hsize
        simp only [runAlone, start, if_pos hsize]
        exact ⟨rfl, rfl⟩
      · rename_i hsize
        split
        · rename_i error herror
          simp only [runAlone, start, if_neg hsize, herror]
          exact ⟨rfl, rfl⟩
        · rename_i hvalid
          rw [hready]
          · refine sameHeld_putMany order _ collection ?_ hrng
            exact hroom
          · simp only [start, if_neg hsize]

theorem runAlone_keys (hseed : config.seed = none)
    (collection : Option String) (limit : Option Nat) :
    runAlone config rng now order (.keys collection limit) s =
      (.ok (.names ((order.keys (config.collectionName collection)
          (keysOf s (config.collectionName collection))).take (pageLen limit))),
        { s with setupComplete := true }.ensureCollection
          (config.collectionName collection)) := by
  rw [runAlone_unseeded hseed rng rfl]
  simp only [prepare, finish, Memory.keys, getCollection_ensure, bind,
    Except.bind, pure, Except.pure]
  rfl

theorem runAlone_collections (hseed : config.seed = none)
    (limit : Option Nat) :
    runAlone config rng now order (.collections limit) s =
      (.ok (.names ((order.keys "" s.collections.keys).take (pageLen limit))),
        { s with setupComplete := true }) :=
  runAlone_unseeded hseed rng rfl

theorem retains_recordChanges (mutations : List Mutation) (s : MemoryState) :
    Retains s
      (mutations.foldl (fun s mutation => s.recordChange now mutation) s) := by
  induction mutations generalizing s with
  | nil => exact fun _ hcol => hcol
  | cons mutation mutations ih => exact ih (s.recordChange now mutation)

theorem runAlone_retains (hseed : config.seed = none)
    (hcall : call.allowed false = true) :
    Retains s (runAlone config rng now order call s).2 := by
  have hfinish : ∀ p : MemoryState × Phase, Retains s p.1 →
      p.2.allowed false = true → Retains s (finish config now order p).2 := by
    rintro ⟨t, phase⟩ hkept hallowed
    cases phase with
    | lock action =>
        exact hkept.trans ((perform_retains hallowed).trans
          (retains_recordChanges _ _))
    | _ => exact hkept
  have hphases := allowed_phases config rng false
  have hstart := hphases.start now call hcall
  unfold runAlone
  split
  · rename_i call' heq
    rw [heq] at hstart
    exact hfinish _ (enter_grounded rng now order hseed s call').1
      (hphases.enter now order s call' hstart)
  · exact hfinish _ (fun _ hcol => hcol) hstart

end Calls

def Lists (all : List String) (n : Nat) (result : Except Error Response) :
    Prop :=
  ∃ names, result = .ok (.names names) ∧ names.Nodup ∧ names ⊆ all ∧
    names.length = min n all.length

theorem lists_take {all l : List String} (hnodup : all.Nodup)
    (hperm : l.Perm all) (n : Nat) :
    Lists all n (.ok (.names (l.take n))) := by
  refine ⟨l.take n, rfl, (hperm.nodup_iff.mpr hnodup).sublist
    (List.take_sublist ..), fun name hname =>
      hperm.subset (List.mem_of_mem_take hname), ?_⟩
  rw [List.length_take, hperm.length_eq]

theorem present_of_held {s : MemoryState} {cell : Cell} {entry : ManagedEntry}
    (h : s.cells.held cell = some entry) :
    (s.collection cell.1).isSome = true := by
  obtain ⟨stored, hstored, -⟩ := Option.map_eq_some_iff.mp h
  obtain ⟨col, hcol, -⟩ := Option.bind_eq_some_iff.mp hstored
  rw [hcol]
  rfl

end OpenKeyV.Memory
