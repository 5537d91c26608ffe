import OpenKeyV.Python.CachedCopies

/-!
# Reads through the Python passthrough cache

Calls one after the other, each at one instant, with the clock going on
between them.
-/

namespace OpenKeyV.Python

open Library Library.Interaction
open Wrapper (Identity NoLater)

namespace PassthroughCacheWrapper

/-! ## One key -/

section Found

variable {now : DateTime} {entries : Entries} {id : Identity}
  {entry : ManagedEntry}

end Found

def Admits (w : TTLClampWrapper) (stores : Stores) (s : Tiers)
    (id : Identity) : Prop :=
  live s.clock s.cache id = none →
    ∀ entry, live s.clock s.primary id = some entry → entry.value ≠ .null →
      Fits w stores s.clock entry

section Keys

variable {high missing : Rat} {s : Tiers} {id : Identity} {stores : Stores}
  {cached : ManagedEntry} {key : String} {collection : Option String}

end Keys

/-! ## Batches -/

section Batches

variable {high missing : Rat} {s : Tiers} {stores : Stores}
  {keys : List String} {collection : Option String} {α : Type}

theorem zip_map_self {β : Type} (f : String → β) (keys : List String) :
    keys.zip (keys.map f) = keys.map fun key => (key, f key) := by
  induction keys with
  | nil => rfl
  | cons key keys ih =>
      rw [List.map_cons, List.zip_cons_cons, ih, List.map_cons]

section Dictionaries

variable {absent : α} {f g : String → α} {lacking : α → Bool}

end Dictionaries

end Batches

/-! ## Writes -/

section Writes

variable {high missing : Rat} {s : Tiers} {stores : Stores} {α : Type}
  {keys : List String} {collection : Option String}

end Writes

/-! ## Runs -/

inductive Moves (w : TTLClampWrapper) (stores : Stores) :
    Tiers → Tiers → Prop where
  | tick {s : Tiers} {now : DateTime} (hle : s.clock ≤ now) :
      Moves w stores s { s with clock := now }
  | call {s : Tiers} {op : StoreOp} (halike : stores.Alike op.collection) :
      Moves w stores s (playCall (serve stores) (perform w op) s).2

section Runs

variable {high missing : Rat} {start s : Tiers} {stores : Stores}

end Runs

namespace Second

theorem permanent_ttl (entry : ManagedEntry) (now : DateTime)
    (h : entry.expiresAt = none) : entry.ttl now = none :=
  (entry.ttl_eq_none now).mpr h

theorem expiring_ttl (entry : ManagedEntry) (now expires : DateTime)
    (hexpires : entry.expiresAt = some expires) (hlater : now < expires) :
    ∃ seconds : Rat, entry.ttl now = some (.finite seconds) ∧ 0 ≤ seconds ∧
      seconds * 1000000000 ≤ ((expires.nanos - now.nanos : Int) : Rat) := by
  refine ⟨((expires.nanos - now.nanos) / nanosPerMilli : Int) / 1000,
    ?_, ?_, ?_⟩
  · rw [ManagedEntry.ttl, hexpires]
    exact if_neg (Int.not_le.mpr hlater)
  · have hnonneg : 0 ≤ (expires.nanos - now.nanos) / nanosPerMilli := by
      rw [DateTime.lt_def] at hlater
      unfold nanosPerMilli
      omega
    exact div_nonneg (Int.cast_nonneg hnonneg) (by norm_num)
  · have hfloor : (expires.nanos - now.nanos) / nanosPerMilli * 1000000 ≤
        expires.nanos - now.nanos := by
      unfold nanosPerMilli
      omega
    have hcast := Int.cast_le (R := Rat).mpr hfloor
    rw [Int.cast_mul] at hcast
    have hconst : ((1000000 : Int) : Rat) = 1000000 := by norm_num
    rw [hconst] at hcast
    linarith

def store : AsyncKeyValue where
  defaultCollection := "default_collection"
  remaining entry now := entry.ttl now
  permanent := permanent_ttl
  expiring := expiring_ttl

def stores : Stores := ⟨store, store⟩

def start : Tiers where
  clock := .epoch
  cache _ := none
  primary id :=
    if id = ("default_collection", "permanent") then
      some ⟨.bool true, none, none⟩
    else if id = ("default_collection", "ending") then
      some ⟨.bool true, none,
        some ⟨500000, DateTime.halfMilli_lower, DateTime.halfMilli_upper⟩⟩
    else none

def wrapper : TTLClampWrapper := clamping 1800 1800

def apart : Stores := ⟨{ store with defaultCollection := "other" }, store⟩

end Second

end PassthroughCacheWrapper

end OpenKeyV.Python
