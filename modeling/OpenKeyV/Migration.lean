import OpenKeyV.Library.Text

/-!
# Options and reports of a migration

The data types of `migration.rs` and its choice of collections.
-/

namespace OpenKeyV

open Library

structure MigrationOptions where
  collections : List String
  collectionPrefix : Option (String × String)
  batchSize : Nat
  preserveTtl : Bool
  deriving DecidableEq, Repr

namespace MigrationOptions

def default : MigrationOptions := ⟨[], none, 1000, true⟩

def selected (options : MigrationOptions) (collection : String) : Bool :=
  options.collections.isEmpty || options.collections.contains collection

def targetCollection (options : MigrationOptions) (collection : String) :
    Option String :=
  match options.collectionPrefix with
  | some (source, target) =>
      (stripPrefix source collection).map fun suffix => target ++ suffix
  | none => some collection

def chunkSize (options : MigrationOptions) : Nat := max options.batchSize 1

theorem chunkSize_pos (options : MigrationOptions) : 0 < options.chunkSize :=
  Nat.le_max_right ..

theorem targetCollection_inj {options : MigrationOptions}
    {first second target : String}
    (hfirst : options.targetCollection first = some target)
    (hsecond : options.targetCollection second = some target) :
    first = second := by
  unfold targetCollection at hfirst hsecond
  cases hmapping : options.collectionPrefix with
  | none =>
      simp only [hmapping, Option.some.injEq] at hfirst hsecond
      rw [hfirst, hsecond]
  | some mapping =>
      obtain ⟨source, lead⟩ := mapping
      simp only [hmapping, Option.map_eq_some_iff, stripPrefix_eq_some]
        at hfirst hsecond
      obtain ⟨suffix, rfl, rfl⟩ := hfirst
      obtain ⟨suffix', rfl, heq⟩ := hsecond
      rw [String.append_right_inj] at heq
      rw [heq]

end MigrationOptions

structure MigrationReport where
  scanned : Nat
  copied : Nat
  skippedExpired : Nat
  replayed : Nat
  deriving DecidableEq, Repr

namespace MigrationReport

def zero : MigrationReport := ⟨0, 0, 0, 0⟩

def merge (report other : MigrationReport) : MigrationReport :=
  ⟨report.scanned + other.scanned, report.copied + other.copied,
    report.skippedExpired + other.skippedExpired,
    report.replayed + other.replayed⟩

end MigrationReport

end OpenKeyV
