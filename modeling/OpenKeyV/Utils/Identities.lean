import OpenKeyV.Utils.Compound

/-!
# Which identities belong together

A prefix scan for a collection finds its identities and no others.  An
identity of one subspace is an identity of another one in a few cases, all of
them with the empty subspace, which has no frame.
-/

namespace OpenKeyV

open Library

theorem startsWith_collectionFrame {collection text : String} :
    startsWith (collectionFrame collection) text = true ↔
      ∃ key, text = compoundKey collection key :=
  startsWith_iff

theorem startsWith_frame_ne {first second : String} (h : first ≠ second) :
    startsWith (collectionFrame first) (collectionFrame second) = false := by
  apply Bool.eq_false_iff.mpr
  intro hprefix
  obtain ⟨rest, heq⟩ := startsWith_iff.mp hprefix
  have hcut : collectionFrame second ++ "" = collectionFrame first ++ rest := by
    rw [String.append_empty, heq]
  exact h (collectionFrame_append_inj hcut).1.symm

/-- Compound identities round-trip both ways, and those of one collection are
the texts that begin with its frame. -/
theorem identity_codec_exact (collection : String)
    (hsize : collection.utf8ByteSize < 2 ^ 64) :
    (∀ key, decompoundKey (compoundKey collection key) =
      .ok (collection, key)) ∧
    (∀ text key, decompoundKey text = .ok (collection, key) →
      compoundKey collection key = text) ∧
    (∀ text, startsWith (collectionFrame collection) text = true ↔
      ∃ key, decompoundKey text = .ok (collection, key)) ∧
    ∀ other, other ≠ collection →
      startsWith (collectionFrame collection) (collectionFrame other) =
        false := by
  refine ⟨fun key => ?_, fun text key h => ?_, fun text => ?_, fun other h => ?_⟩
  · exact decompoundKey_eq_ok.mpr ⟨rfl, hsize⟩
  · exact (compoundKey_of_decompoundKey h).1.symm
  · rw [startsWith_collectionFrame]
    refine exists_congr fun key => ?_
    rw [decompoundKey_eq_ok, and_iff_left hsize]
  · exact startsWith_frame_ne (Ne.symm h)

theorem identity_codec_exact_digits :
    (∀ key, decompoundKey (compoundKey "1:é" key) = .ok ("1:é", key)) ∧
    (∀ text key, decompoundKey text = .ok ("1:é", key) →
      compoundKey "1:é" key = text) ∧
    (∀ text, startsWith (collectionFrame "1:é") text = true ↔
      ∃ key, decompoundKey text = .ok ("1:é", key)) ∧
    ∀ other, other ≠ "1:é" →
      startsWith (collectionFrame "1:é") (collectionFrame other) = false :=
  identity_codec_exact "1:é" (by decide)

/-- Where the identity of a pair in one subspace is none of another: the other
subspace has a frame, and the collection of an unframed identity does not
imitate that frame in front of a further identity. -/
def Subspace.Apart (subspace other : Subspace) (collection key : String) :
    Prop :=
  other.isEmpty = false ∧
    (subspace.isEmpty = true → collection = other.name →
      ∀ collection' key', collection'.utf8ByteSize < 2 ^ 64 →
        key ≠ compoundKey collection' key')

theorem Subspace.scope_empty {subspace : Subspace}
    (h : subspace.isEmpty = true) (key : String) :
    subspace.scope key = key := by
  simp [Subspace.scope, Subspace.frame, h]

theorem Subspace.eq_of_isEmpty {subspace other : Subspace}
    (h : subspace.isEmpty = true) (hother : other.isEmpty = true) :
    subspace = other := by
  cases subspace
  cases other
  simp only [Subspace.isEmpty, String.isEmpty_iff] at h hother
  rw [h, hother]

theorem subspaceDecompoundKey_eq_none {subspace : Subspace} {text : String} :
    subspaceDecompoundKey subspace text = none ↔
      ∀ collection key, collection.utf8ByteSize < 2 ^ 64 →
        text ≠ subspaceCompoundKey subspace collection key := by
  rw [Option.eq_none_iff_forall_not_mem]
  constructor
  · intro h collection key hsize heq
    exact h (collection, key) (subspaceDecompoundKey_eq_some.mpr ⟨heq, hsize⟩)
  · rintro h ⟨collection, key⟩ hmem
    obtain ⟨heq, hsize⟩ := subspaceDecompoundKey_eq_some.mp hmem
    exact h collection key hsize heq

/-- An identity decodes in its own subspace, and in no other one exactly when
the two are apart. -/
theorem subspace_identity_iff (subspace other : Subspace)
    (collection key : String) (hne : subspace ≠ other)
    (hname : subspace.name.utf8ByteSize < 2 ^ 64)
    (hsize : collection.utf8ByteSize < 2 ^ 64) :
    (subspaceDecompoundKey subspace
          (subspaceCompoundKey subspace collection key) =
        some (collection, key) ∧
      subspaceDecompoundKey other
        (subspaceCompoundKey subspace collection key) = none) ↔
      subspace.Apart other collection key := by
  have hown : subspaceDecompoundKey subspace
      (subspaceCompoundKey subspace collection key) =
        some (collection, key) :=
    subspaceDecompoundKey_eq_some.mpr ⟨rfl, hsize⟩
  rw [and_iff_right hown, subspaceDecompoundKey_eq_none]
  cases hother : other.isEmpty with
  | true =>
      -- every framed identity reads as a flat one
      have hframed : subspace.isEmpty = false := by
        by_contra h
        exact hne (Subspace.eq_of_isEmpty (by simpa using h) hother)
      constructor
      · intro h
        refine absurd ?_ (h subspace.name (compoundKey collection key) hname)
        rw [subspaceCompoundKey, Subspace.scope_eq_compoundKey hframed,
          subspaceCompoundKey, Subspace.scope_empty hother]
      · intro h
        rw [Subspace.Apart, hother] at h
        cases h.1
  | false =>
      cases hframed : subspace.isEmpty with
      | false =>
          constructor
          · exact fun _ => ⟨hother, fun h => by rw [hframed] at h; cases h⟩
          · exact fun _ _ _ _ => Subspace.scope_ne_scope hframed hother hne _ _
      | true =>
          rw [Subspace.Apart, subspaceCompoundKey,
            Subspace.scope_empty hframed]
          constructor
          · intro h
            refine ⟨hother, fun _ hname' collection' key' hsize' heq => ?_⟩
            apply h collection' key' hsize'
            rw [subspaceCompoundKey, Subspace.scope_eq_compoundKey hother,
              ← heq, hname']
          · rintro ⟨_, h⟩ collection' key' hsize' heq
            rw [subspaceCompoundKey, Subspace.scope_eq_compoundKey hother,
              compoundKey_inj] at heq
            exact h hframed heq.1 collection' key' hsize' heq.2

theorem subspace_identity_two :
    (subspaceDecompoundKey ⟨"app"⟩ (subspaceCompoundKey ⟨"app"⟩ "c" "k") =
        some ("c", "k") ∧
      subspaceDecompoundKey ⟨"web"⟩ (subspaceCompoundKey ⟨"app"⟩ "c" "k") =
        none) ↔ Subspace.Apart ⟨"app"⟩ ⟨"web"⟩ "c" "k" :=
  subspace_identity_iff ⟨"app"⟩ ⟨"web"⟩ "c" "k" (by decide) (by decide)
    (by decide)

/-- The identity of a subspace is a flat identity, too. -/
theorem flat_reads_subspace :
    (⟨"app"⟩ : Subspace) ≠ ⟨""⟩ ∧
      subspaceDecompoundKey ⟨""⟩ (subspaceCompoundKey ⟨"app"⟩ "c" "k") =
        some ("app", "1:ck") :=
  ⟨by decide, subspaceDecompoundKey_eq_some.mpr ⟨by decide, by decide⟩⟩

end OpenKeyV
