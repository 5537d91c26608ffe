import OpenKeyV.Entry.Codec
import OpenKeyV.Library.Guarded

/-!
# Entries as guards

A conditional cleanup compares the bytes of an entry.  The deadline stands in
the bytes, so that equal bytes have expired together.
-/

namespace OpenKeyV.Cleanup

instance : Preorder DateTime where
  le_refl t := DateTime.le_def.mpr (Int.le_refl t.nanos)
  le_trans _ _ _ h h' :=
    DateTime.le_def.mpr (Int.le_trans (DateTime.le_def.mp h)
      (DateTime.le_def.mp h'))
  lt_iff_le_not_ge a b := by
    rw [DateTime.lt_def, DateTime.le_def, DateTime.le_def]
    omega

def Dead (encoded : Bytes) (now : DateTime) : Prop :=
  ∃ entry, ManagedEntry.decode encoded = .ok entry ∧
    entry.isExpired now = true

theorem Dead.later {encoded : Bytes} {now later : DateTime} (hle : now ≤ later)
    (h : Dead encoded now) : Dead encoded later := by
  obtain ⟨entry, hentry, hexpired⟩ := h
  exact ⟨entry, hentry, ManagedEntry.isExpired_mono hle hexpired⟩

end OpenKeyV.Cleanup
