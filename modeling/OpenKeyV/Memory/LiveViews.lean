import OpenKeyV.Memory.LiveCalls
import OpenKeyV.Memory.SnapshotCopy

/-!
# Source and target side by side

What a live migration promises: once the source rests and the feed is drained,
both sides show the same.
-/

namespace OpenKeyV.Memory

open OpenKeyV.Library

/-- What the migration keeps of a live entry: its value, and whether it is
permanent at the target. -/
def keptOf (options : MigrationOptions) (cell : String × String)
    (live : Option RevisionedEntry) : Option (Value × Bool) :=
  if (route options cell.1).isSome then
    live.map fun stored => (stored.entry.value,
      stored.entry.expiresAt.isNone || !options.preserveTtl)
  else none

def sourceView (options : MigrationOptions) (s : MemoryState) (now : DateTime)
    (cell : String × String) : Option (Value × Bool) :=
  keptOf options cell (s.lives now cell)

def targetView (options : MigrationOptions) (t : MemoryState) (now : DateTime)
    (cell : String × String) : Option (Value × Bool) :=
  (route options cell.1).bind fun name =>
    (t.live now name cell.2).map fun stored =>
      (stored.entry.value, stored.entry.expiresAt.isNone)

def LiveState.Quiescent (s : LiveState) : Prop :=
  ∀ task, s.source.tasks task = .idle ∨
    ∃ result, s.source.tasks task = .done result

/-- The loop waits for a change, and none is left to receive. -/
def LiveState.Drained (s : LiveState) : Prop :=
  ∃ stream report, s.stage = .awaiting stream report ∧
    stream.poll s.source.state.changes.sent none = none

/-- Every collection of the source fits a page, neither store is destroyed, no
call is dropped, and nothing expires. -/
def Undisturbed (s : LiveState) (label : LiveLabel) : Prop :=
  (∀ entry ∈ s.source.state.collections.entries,
    entry.2.size ≤ pageLimit) ∧
    match label with
    | .source (.advance clock) =>
        Steady s.source (.advance clock) ∧
          Lasting s.target s.source.clock clock
    | .source label => Steady s.source label
    | .migrate .. => True

def Stage.putCall : Stage → Option Call
  | .copying _ (.putting _ name ((key, some (value, ttl)) :: _) _ _) _ =>
      some (.put key value (some name) ttl)
  | .copying _ (.puttingMany _ name items _ _) _ =>
      some (.putMany (items.map Prod.fst) (items.map Prod.snd) (some name)
        none)
  | .writing _ change name (some (value, ttl)) _ =>
      some (.put change.key value (some name) ttl)
  | _ => none

def Stage.isListing : Stage → Bool
  | .copying _ .listing _ => true
  | _ => false

/-- The collections fit a page when they are listed, and no put into the
target evicts an entry. -/
def Roomy (targetConfig : MemoryConfig) (targetRng : Nat → Option Revision)
    (s : LiveState) : LiveLabel → Prop
  | .source _ => True
  | .migrate _ targetOrder _ =>
      (s.stage.isListing = true → s.source.state.collections.size ≤ pageLimit) ∧
        ∀ call ∈ s.stage.putCall,
          evictions targetConfig targetRng s.source.clock targetOrder call
            s.target = []

instance (s : LiveState) (label : LiveLabel) :
    Decidable (Undisturbed s label) := by
  unfold Undisturbed
  split <;> infer_instance

instance (targetConfig : MemoryConfig) (targetRng : Nat → Option Revision)
    (s : LiveState) : ∀ label, Decidable (Roomy targetConfig targetRng s label)
  | .source _ => inferInstanceAs (Decidable True)
  | .migrate _ targetOrder _ => inferInstanceAs (Decidable (
      (s.stage.isListing = true → s.source.state.collections.size ≤ pageLimit) ∧
        ∀ call ∈ s.stage.putCall,
          evictions targetConfig targetRng s.source.clock targetOrder call
            s.target = []))

section Views

variable {options : MigrationOptions} {s s' t t' : MemoryState}
  {now later : DateTime} {cell : String × String}
  {collection name key : String}

theorem reports_sourceView {added : List Mutation}
    (h : Reports Mutation.cell erasure added (s.lives now) (s'.lives later)) :
    Reports Mutation.cell erasure added (sourceView options s now)
      (sourceView options s' later) :=
  h.map (keptOf options) fun cell => by simp [keptOf]

theorem isSome_sourceView
    (h : (sourceView options s now cell).isSome = true) :
    (route options cell.1).isSome = true ∧
      (s.lives now cell).isSome = true := by
  unfold sourceView keptOf at h
  split at h
  · exact ⟨‹_›, by simpa using h⟩
  · cases h

theorem sourceView_unrouted (h : route options collection = none) :
    sourceView options s now (collection, key) = none := by
  simp [sourceView, keptOf, h]

theorem targetView_unrouted (h : route options collection = none) :
    targetView options t now (collection, key) = none := by
  simp [targetView, h]

theorem targetView_congr (h : ∀ name, route options cell.1 = some name →
      t'.entry name cell.2 = t.entry name cell.2) :
    targetView options t' now cell = targetView options t now cell := by
  unfold targetView MemoryState.live
  cases hroute : route options cell.1 with
  | none => rfl
  | some name => simp only [Option.bind_some, h name hroute]

theorem targetView_lasting (h : Lasting t now later) :
    targetView options t later = targetView options t now := by
  funext cell
  unfold targetView
  refine Option.bind_congr fun name _ => ?_
  exact congrArg _ (congrFun h.lives (name, cell.2))

theorem target_ne (hroute : route options collection = some name)
    (hne : cell ≠ (collection, key)) (name' : String)
    (hroute' : route options cell.1 = some name') :
    (name, key) ≠ (name', cell.2) := by
  intro heq
  cases heq
  exact hne (Prod.ext (route_inj hroute' hroute) rfl)

def shows (options : MigrationOptions) (later : DateTime)
    (live : Option RevisionedEntry) : Option (Value × Option F64) :=
  live.map fun stored => (stored.entry.value,
    if options.preserveTtl then stored.entry.ttl later else none)

theorem targetView_written {value : Value} {ttl : Option F64}
    {entry : ManagedEntry} {revision : Revision} {read : DateTime}
    (hroute : route options collection = some name)
    (hread : some (value, ttl) =
      shows options read (s.lives now (collection, key)))
    (hentry : ManagedEntry.ofTtl now value ttl = .ok entry)
    (hstored : t.entry name key = some ⟨entry, revision⟩) :
    targetView options t now (collection, key) =
      sourceView options s now (collection, key) := by
  unfold shows at hread
  obtain ⟨stored, hlive, heq⟩ := Option.map_eq_some_iff.mp hread.symm
  obtain ⟨rfl, httl⟩ := Prod.mk.inj heq
  have hvalue := ManagedEntry.value_of_ofTtl hentry
  have hkept : entry.isExpired now = false ∧ entry.expiresAt.isNone =
      (stored.entry.expiresAt.isNone || !options.preserveTtl) := by
    cases hpreserve : options.preserveTtl with
    | true =>
        rw [hpreserve, if_pos rfl] at httl
        rw [← httl] at hentry
        simpa using alive_of_ttl hentry
    | false =>
        simp only [hpreserve, Bool.false_eq_true, if_false] at httl
        subst httl
        cases hentry
        exact ⟨rfl, by simp [ManagedEntry.new]⟩
  simp [targetView, sourceView, keptOf, hroute, hlive, MemoryState.live, hstored,
    Option.filter, RevisionedEntry.isExpired, hkept, hvalue]

theorem targetView_absent (hroute : route options collection = some name)
    (hstored : t.entry name key = none) :
    targetView options t now (collection, key) = none := by
  simp [targetView, hroute, MemoryState.live, hstored]

theorem sourceView_absent (h : s.lives now cell = none) :
    sourceView options s now cell = none := by
  simp [sourceView, keptOf, h]

end Views

end OpenKeyV.Memory
