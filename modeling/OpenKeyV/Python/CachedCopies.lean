import OpenKeyV.Python.PassthroughCache
import OpenKeyV.Wrapper.Lifetimes

/-!
# Copies in the Python passthrough cache

The cache holds copies of what the primary store holds, and none that lasts
longer.
-/

namespace OpenKeyV.Python

open Library Library.Interaction
open Wrapper (Identity NoLater)

namespace PassthroughCacheWrapper

def clamping (high missing : Rat) : TTLClampWrapper :=
  ⟨.finite 0, .finite high, some (.finite missing)⟩

section Lifetimes

variable {now expires : DateTime} {seconds high missing : Rat}

end Lifetimes

section Copies

variable {now : DateTime} {high missing : Rat} {s : Tiers} {id : Identity}
  {cached entry : ManagedEntry}

def longest (high missing : Rat) (entry : ManagedEntry) : Rat :=
  if entry.expiresAt.isNone then min missing high else high

/-- The same value, for no longer. -/
structure Copy (high missing : Rat) (now : DateTime)
    (cached entry : ManagedEntry) : Prop where
  value : cached.value = entry.value
  present : entry.value ≠ .null
  noLater : NoLater cached entry
  bounded : ∃ expires, cached.expiresAt = some expires ∧
    ((expires.nanos - now.nanos : Int) : Rat) ≤
      longest high missing entry * 1000000000

def Faithful (high missing : Rat) (s : Tiers) : Prop :=
  ∀ id cached, s.cache id = some cached →
    cached.isExpired s.clock = true ∨
      ∃ entry, s.primary id = some entry ∧
        Copy high missing s.clock cached entry

theorem Copy.later (h : Copy high missing s.clock cached entry)
    (hle : s.clock ≤ now) : Copy high missing now cached entry := by
  obtain ⟨expires, hexpires, hbound⟩ := h.bounded
  refine ⟨h.value, h.present, h.noLater, expires, hexpires, ?_⟩
  rw [DateTime.le_def] at hle
  have hnanos : expires.nanos - now.nanos ≤ expires.nanos - s.clock.nanos := by
    omega
  exact (Int.cast_le.mpr hnanos).trans hbound

theorem Faithful.later (h : Faithful high missing s) (hle : s.clock ≤ now) :
    Faithful high missing { s with clock := now } := by
  intro id cached hcached
  refine (h id cached hcached).imp (ManagedEntry.isExpired_mono hle) ?_
  rintro ⟨entry, hentry, hcopy⟩
  exact ⟨entry, hentry, hcopy.later hle⟩

theorem Faithful.hit (h : Faithful high missing s)
    (hlive : live s.clock s.cache id = some cached) :
    ∃ entry, live s.clock s.primary id = some entry ∧
      Copy high missing s.clock cached entry := by
  obtain ⟨hcached, hlive⟩ := live_eq_some.mp hlive
  rcases h id cached hcached with hexpired | ⟨entry, hentry, hcopy⟩
  · rw [hlive] at hexpired
    cases hexpired
  · refine ⟨entry, live_eq_some.mpr ⟨hentry, ?_⟩, hcopy⟩
    rw [Bool.eq_false_iff]
    intro hexpired
    rw [hcopy.noLater.isExpired hexpired] at hlive
    cases hlive

def Tiers.withCopy (s : Tiers) (id : Identity) (cached : ManagedEntry) :
    Tiers :=
  { s with cache := Function.update s.cache id (some cached) }

theorem Faithful.copied (h : Faithful high missing s)
    (hentry : s.primary id = some entry)
    (hcopy : Copy high missing s.clock cached entry) :
    Faithful high missing (s.withCopy id cached) := by
  intro other held hheld
  rw [Tiers.withCopy] at hheld
  by_cases hother : other = id
  · subst hother
    simp only [Function.update_self, Option.some.injEq] at hheld
    subst hheld
    exact .inr ⟨entry, hentry, hcopy⟩
  · simp only [Function.update_of_ne hother] at hheld
    exact h other held hheld

theorem Faithful.written {cache primary : Entries}
    (h : Faithful high missing s)
    (hwritten : ∀ id, cache id = none ∨
      cache id = s.cache id ∧ primary id = s.primary id) :
    Faithful high missing ⟨s.clock, cache, primary⟩ := by
  intro id cached hcached
  rcases hwritten id with hnone | ⟨hcache, hprimary⟩
  · rw [show cache id = some cached from hcached] at hnone
    cases hnone
  · rw [show cache id = some cached from hcached] at hcache
    refine (h id cached hcache.symm).imp_right ?_
    rintro ⟨entry, hentry, hcopy⟩
    exact ⟨entry, hprimary.trans hentry, hcopy⟩

variable {stores : Stores} {key : String} {collection : Option String}
  {value : Value}

structure Reads (high missing : Rat) (s s' : Tiers) : Prop where
  clock : s'.clock = s.clock
  primary : s'.primary = s.primary
  faithful : Faithful high missing s'

theorem Faithful.reads (h : Faithful high missing s) :
    Reads high missing s s := ⟨rfl, rfl, h⟩

theorem Reads.trans {s' s'' : Tiers} (h : Reads high missing s s')
    (h' : Reads high missing s' s'') : Reads high missing s s'' :=
  ⟨h'.clock.trans h.clock, h'.primary.trans h.primary, h'.faithful⟩

def Fits (w : TTLClampWrapper) (stores : Stores) (now : DateTime)
    (entry : ManagedEntry) : Prop :=
  stores.primary.remaining entry now ≠ some (.finite 0) ∧
    (entry.expiresAt = none →
      ∀ seconds, w.missingTtl = some seconds → ValidTtl now seconds)

end Copies

end PassthroughCacheWrapper

end OpenKeyV.Python
