import OpenKeyV.Python.TimeToLive
import OpenKeyV.Wrapper.StoreContract

/-!
# The contract of a Python store

What `AsyncKeyValue` promises: a map from collection and key to an entry, in
which an expired entry counts as absent.  A value is `Value.null` where it is
`None`, which stands for a missing key and can be stored as well.
-/

namespace OpenKeyV.Python

open Wrapper (Identity)

abbrev Entries := Identity → Option ManagedEntry

/-- A store, with what it tells of the TTL of an entry that is live. -/
structure AsyncKeyValue where
  defaultCollection : String
  remaining : ManagedEntry → DateTime → Option F64
  permanent : ∀ entry now, entry.expiresAt = none → remaining entry now = none
  expiring : ∀ entry now expires, entry.expiresAt = some expires →
    now < expires → ∃ seconds : Rat,
      remaining entry now = some (.finite seconds) ∧ 0 ≤ seconds ∧
        seconds * 1000000000 ≤ ((expires.nanos - now.nanos : Int) : Rat)

inductive StoreOp where
  | get (key : String) (collection : Option String)
  | getMany (keys : List String) (collection : Option String)
  | ttl (key : String) (collection : Option String)
  | ttlMany (keys : List String) (collection : Option String)
  | put (key : String) (value : Value) (collection : Option String)
      (ttl : Option SupportsFloat)
  | putMany (keys : List String) (values : List Value)
      (collection : Option String) (ttl : Option SupportsFloat)
  | delete (key : String) (collection : Option String)
  | deleteMany (keys : List String) (collection : Option String)

namespace StoreOp

@[reducible] def Result : StoreOp → Type
  | .get .. => Value
  | .getMany .. => List Value
  | .ttl .. => Value × Option F64
  | .ttlMany .. => List (Value × Option F64)
  | .put .. | .putMany .. => Unit
  | .delete .. => Bool
  | .deleteMany .. => Nat

def collection : StoreOp → Option String
  | .get _ c | .getMany _ c | .ttl _ c | .ttlMany _ c | .put _ _ c _
  | .putMany _ _ c _ | .delete _ c | .deleteMany _ c => c

def writes : StoreOp → List String
  | .get .. | .getMany .. | .ttl .. | .ttlMany .. => []
  | .put key .. | .delete key _ => [key]
  | .putMany keys .. | .deleteMany keys _ => keys

end StoreOp

section Apply

variable (now : DateTime)

def live (entries : Entries) (id : Identity) : Option ManagedEntry :=
  (entries id).filter fun entry => !entry.isExpired now

def found (entries : Entries) (id : Identity) : Value :=
  ((live now entries id).map ManagedEntry.value).getD .null

def makeEntry (value : Value) (ttl : Option SupportsFloat) :
    Except PyError ManagedEntry := do
  let seconds ← prepareTtl now ttl
  (ManagedEntry.ofTtl now value seconds).mapError valueErrorToPy

def putEntry (id : Identity) (value : Value) (ttl : Option SupportsFloat)
    (entries : Entries) : Except PyError Unit × Entries :=
  match makeEntry now value ttl with
  | .ok entry => (.ok (), Function.update entries id (some entry))
  | .error error => (.error error, entries)

def putEntries (collection : String) (ttl : Option SupportsFloat) :
    List (String × Value) → Entries → Except PyError Unit × Entries
  | [], entries => (.ok (), entries)
  | (key, value) :: rest, entries =>
      match putEntry now (collection, key) value ttl entries with
      | (.ok _, entries) => putEntries collection ttl rest entries
      | (.error error, entries) => (.error error, entries)

def deleteEntries (collection : String) :
    List String → Entries → Nat × Entries
  | [], entries => (0, entries)
  | key :: keys, entries =>
      let existed := (live now entries (collection, key)).isSome
      let (count, entries) := deleteEntries collection keys
        (Function.update entries (collection, key) none)
      (count + existed.toNat, entries)

variable (store : AsyncKeyValue)

def AsyncKeyValue.foundTtl (entries : Entries) (id : Identity) :
    Value × Option F64 :=
  ((live now entries id).map fun entry =>
    (entry.value, store.remaining entry now)).getD (.null, none)

def AsyncKeyValue.identity (collection : Option String) (key : String) :
    Identity :=
  (collection.getD store.defaultCollection, key)

def AsyncKeyValue.apply :
    (op : StoreOp) → Entries → Except PyError op.Result × Entries
  | .get key c, entries => (.ok (found now entries (store.identity c key)),
      entries)
  | .getMany keys c, entries =>
      (.ok (keys.map fun key => found now entries (store.identity c key)),
        entries)
  | .ttl key c, entries =>
      (.ok (store.foundTtl now entries (store.identity c key)), entries)
  | .ttlMany keys c, entries =>
      (.ok (keys.map fun key =>
        store.foundTtl now entries (store.identity c key)), entries)
  | .put key value c ttl, entries =>
      putEntry now (store.identity c key) value ttl entries
  | .putMany keys values c ttl, entries =>
      if keys.length ≠ values.length then
        (.error ⟨.valueError, "put_many called but a different number of " ++
          "keys and values were provided"⟩, entries)
      else
        putEntries now (c.getD store.defaultCollection) ttl (keys.zip values)
          entries
  | .delete key c, entries =>
      (.ok (live now entries (store.identity c key)).isSome,
        Function.update entries (store.identity c key) none)
  | .deleteMany keys c, entries =>
      let (count, entries) :=
        deleteEntries now (c.getD store.defaultCollection) keys entries
      (.ok count, entries)

end Apply

section Frame

variable {now : DateTime} {entries : Entries} {id : Identity} {name : String}

theorem putEntry_other {target : Identity} {value : Value}
    {ttl : Option SupportsFloat} (h : id ≠ target) :
    (putEntry now target value ttl entries).2 id = entries id := by
  unfold putEntry
  split
  · exact Function.update_of_ne h ..
  · rfl

theorem putEntries_other {ttl : Option SupportsFloat}
    {items : List (String × Value)}
    (h : ∀ item ∈ items, id ≠ (name, item.1)) :
    (putEntries now name ttl items entries).2 id = entries id := by
  induction items generalizing entries with
  | nil => rfl
  | cons item items ih =>
      obtain ⟨key, value⟩ := item
      have hfirst : (putEntry now (name, key) value ttl entries).2 id =
          entries id :=
        putEntry_other (h (key, value) List.mem_cons_self)
      rw [putEntries]
      split
      · rename_i entries' heq
        rw [heq] at hfirst
        rw [ih fun other hother => h other (List.mem_cons_of_mem _ hother)]
        exact hfirst
      · rename_i entries' heq
        rw [heq] at hfirst
        exact hfirst

theorem deleteEntries_snd (keys : List String) :
    (deleteEntries now name keys entries).2 id =
      if id.1 = name ∧ id.2 ∈ keys then none else entries id := by
  induction keys generalizing entries with
  | nil => simp [deleteEntries]
  | cons key keys ih =>
      rw [deleteEntries]
      simp only
      rw [ih]
      by_cases hid : id = (name, key)
      · subst hid
        simp
      · have hkey : id.1 = name → id.2 ≠ key := fun hname hsame =>
          hid (Prod.ext hname hsame)
        rw [Function.update_of_ne hid]
        refine if_congr ⟨fun h => ⟨h.1, List.mem_cons_of_mem _ h.2⟩,
          fun h => ⟨h.1, ?_⟩⟩ rfl rfl
        exact (List.mem_cons.mp h.2).resolve_left (hkey h.1)

theorem AsyncKeyValue.apply_other (store : AsyncKeyValue) (op : StoreOp)
    (h : ∀ key ∈ op.writes, id ≠ store.identity op.collection key) :
    (store.apply now op entries).2 id = entries id := by
  cases op with
  | get | getMany | ttl | ttlMany => rfl
  | put key value c ttl => exact putEntry_other (h key List.mem_cons_self)
  | putMany keys values c ttl =>
      simp only [apply]
      split
      · rfl
      · exact putEntries_other fun item hitem =>
          h item.1 (List.of_mem_zip hitem).1
  | delete key c => exact Function.update_of_ne (h key List.mem_cons_self) ..
  | deleteMany keys c =>
      refine (deleteEntries_snd keys).trans (if_neg ?_)
      rintro ⟨hname, hmem⟩
      exact h id.2 hmem (Prod.ext hname rfl)

theorem live_eq_some {entry : ManagedEntry} :
    live now entries id = some entry ↔
      entries id = some entry ∧ entry.isExpired now = false := by
  simp [live, Option.filter_eq_some_iff]

end Frame

end OpenKeyV.Python
