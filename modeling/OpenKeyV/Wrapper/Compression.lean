import OpenKeyV.Wrapper.Transparency

/-!
# The compression wrapper, and stacks with encryption

`CompressionWrapper` compresses the bytes of a long value, and escapes a value
that looks compressed already.  A stack of such wrappers and of encrypting
ones shows one plain store, whatever sizes and versions each call uses.
-/

namespace OpenKeyV.Wrapper

open Library

/-- The two directions of `flate2`'s gzip. -/
structure Gzip where
  encode : Bytes → Except String Bytes
  decode : Bytes → Option Bytes

structure CompressionWrapper where
  gzip : Gzip
  minSizeToCompress : Nat

def compressionMagic : Bytes := [0x4F, 0x4B, 0x56, 0x5A, 0x31]

def escapedKind : UInt8 := 255

namespace CompressionWrapper

def new (gzip : Gzip) : CompressionWrapper := ⟨gzip, 1024⟩

def withMinSize (gzip : Gzip) (minSize : Nat) : CompressionWrapper :=
  ⟨gzip, minSize⟩

variable (w : CompressionWrapper)

def shouldCompress (value : Value) : Bool :=
  if compressionMagic <+: value.bytes then false
  else decide (w.minSizeToCompress ≤ value.bytes.length)

def compress (value : Value) : Except Error Value :=
  if compressionMagic <+: value.bytes then
    .ok (.binary (compressionMagic ++
      escapedKind :: value.kind.tag :: value.bytes))
  else if !w.shouldCompress value then .ok value
  else
    match w.gzip.encode value.bytes with
    | .error text => .error (.serialization text)
    | .ok compressed =>
        .ok (.binary (compressionMagic ++ value.kind.tag :: compressed))

def decompressValue (value : Value) : Except Error Value :=
  if ¬ compressionMagic <+: value.bytes then .ok value
  else
    -- The marker and one more byte are the least that follows the magic.
    match value.bytes.drop compressionMagic.length with
    | marker :: next :: payload =>
        if marker = escapedKind then
          match ValueKind.fromTag next with
          | none => .error .corruptedData
          | some kind => Value.new kind payload
        else
          match ValueKind.fromTag marker with
          | none => .error .corruptedData
          | some kind =>
              match w.gzip.decode (next :: payload) with
              | none => .error .corruptedData
              | some bytes => Value.new kind bytes
    | _ => .error .corruptedData

def layer : ValueLayer where
  sealValue := w.compress
  openValue := EncryptionWrapper.transposed w.decompressValue
  checksLengths := false

def call : Handler → Handler := w.layer.call

def Inverts : Prop :=
  ∀ bytes, ∃ compressed, w.gzip.encode bytes = .ok compressed ∧
    compressed ≠ [] ∧ w.gzip.decode compressed = some bytes

variable {w} {value : Value}

theorem drop_magic (rest : Bytes) :
    (compressionMagic ++ rest).drop compressionMagic.length = rest :=
  List.drop_left

theorem decompressValue_plain (h : ¬ compressionMagic <+: value.bytes) :
    w.decompressValue value = .ok value := by
  rw [decompressValue, if_pos h]

theorem decompressValue_escaped (kind : ValueKind) (payload : Bytes) :
    w.decompressValue (.binary (compressionMagic ++
      escapedKind :: kind.tag :: payload)) = Value.new kind payload := by
  have hmagic : compressionMagic <+: (Value.binary (compressionMagic ++
      escapedKind :: kind.tag :: payload)).bytes := List.prefix_append _ _
  rw [decompressValue, if_neg (not_not_intro hmagic)]
  simp only [Value.binary, Value.newUnchecked, drop_magic, if_true,
    ValueKind.fromTag_tag]

theorem tag_ne_escapedKind (kind : ValueKind) : kind.tag ≠ escapedKind := by
  cases kind <;> decide

theorem decompressValue_compressed {kind : ValueKind}
    {compressed payload : Bytes} (hne : compressed ≠ [])
    (hdecode : w.gzip.decode compressed = some payload) :
    w.decompressValue (.binary (compressionMagic ++
      kind.tag :: compressed)) = Value.new kind payload := by
  obtain ⟨next, rest, rfl⟩ := List.exists_cons_of_ne_nil hne
  have hmagic : compressionMagic <+: (Value.binary (compressionMagic ++
      kind.tag :: next :: rest)).bytes := List.prefix_append _ _
  rw [decompressValue, if_neg (not_not_intro hmagic)]
  simp only [Value.binary, Value.newUnchecked, drop_magic,
    if_neg (tag_ne_escapedKind kind), ValueKind.fromTag_tag, hdecode]

theorem decompressValue_compress (hinv : w.Inverts)
    (hvalid : ValidPayload value) : ∃ box, w.compress value = .ok box ∧
      ValidPayload box ∧ w.decompressValue box = .ok value := by
  have hnew : Value.new value.kind value.bytes = .ok value :=
    EncryptionWrapper.new_of_valid hvalid
  by_cases hmagic : compressionMagic <+: value.bytes
  · refine ⟨.binary (compressionMagic ++
      escapedKind :: value.kind.tag :: value.bytes), ?_, rfl, ?_⟩
    · rw [compress, if_pos hmagic]
    · rw [decompressValue_escaped, hnew]
  · cases hlong : w.shouldCompress value with
    | false =>
        refine ⟨value, ?_, hvalid, decompressValue_plain hmagic⟩
        rw [compress, if_neg hmagic, hlong]
        rfl
    | true =>
        obtain ⟨compressed, hencode, hne, hdecode⟩ := hinv value.bytes
        refine ⟨.binary (compressionMagic ++ value.kind.tag :: compressed),
          ?_, rfl, ?_⟩
        · rw [compress, if_neg hmagic, hlong]
          simp only [Bool.not_true, Bool.false_eq_true, if_false, hencode]
        · rw [decompressValue_compressed hne hdecode, hnew]

theorem faithful (hinv : w.Inverts) : w.layer.Faithful := by
  refine ⟨rfl, fun value hvalid => ?_⟩
  obtain ⟨box, hbox, hboxed, hopen⟩ := decompressValue_compress hinv hvalid
  refine ⟨box, hbox, hboxed, ?_⟩
  change (w.decompressValue box).map some = .ok (some value)
  rw [hopen]
  rfl

end CompressionWrapper

theorem EncryptionWrapper.faithful {w : EncryptionWrapper} (hinv : w.Inverts) :
    w.layer.Faithful where
  opens_none := rfl
  seals value hvalid := by
    have hseals := sealsAs hinv
    obtain ⟨box, hbox, hboxed, hrel⟩ := hseals.seals value hvalid
    exact ⟨box, hbox, hboxed, hseals.opens value box hrel⟩

inductive SealingWrapper where
  | compression (w : CompressionWrapper)
  | encryption (w : EncryptionWrapper)

namespace SealingWrapper

def layer : SealingWrapper → ValueLayer
  | .compression w => w.layer
  | .encryption w => w.layer

def call : SealingWrapper → Handler → Handler
  | .compression w => w.call
  | .encryption w => w.call

def Inverts : SealingWrapper → Prop
  | .compression w => w.Inverts
  | .encryption w => w.Inverts

theorem call_eq (w : SealingWrapper) (inner : Handler) :
    w.call inner = w.layer.call inner := by
  cases w with
  | compression w => rfl
  | encryption w => exact funext fun call =>
      (EncryptionWrapper.layer_call inner call).symm

theorem Inverts.faithful {w : SealingWrapper} (h : w.Inverts) :
    w.layer.Faithful := by
  cases w with
  | compression w => exact CompressionWrapper.faithful h
  | encryption w => exact EncryptionWrapper.faithful h

end SealingWrapper

def throughStack : List SealingWrapper → Handler → Handler
  | [], inner => inner
  | w :: stack, inner => w.call (throughStack stack inner)

theorem throughStack_eq (stack : List SealingWrapper) (inner : Handler) :
    throughStack stack inner =
      stackCall (stack.map SealingWrapper.layer) inner := by
  induction stack with
  | nil => rfl
  | cons w stack ih =>
      rw [throughStack, ih, SealingWrapper.call_eq]
      rfl

theorem throughStack_compareAndDelete (stack : List SealingWrapper)
    (inner : Handler) (key : String) (expected : Revision)
    (c : Option String) :
    throughStack stack inner (.one (.compareAndDelete key expected c)) =
      inner (.one (.compareAndDelete key expected c)) := by
  induction stack with
  | nil => rfl
  | cons w stack ih => cases w <;> exact ih

structure StackMoment where
  stack : List SealingWrapper
  now : DateTime
  revisions : Nat → Revision
  call : StoreCall

namespace StackMoment

open EncryptionWrapper (Twin)

variable (defaultCollection : String) (m : StackMoment)

def plainOutcome (plain : Entries) : Except Error m.call.Result × Entries :=
  m.call.apply m.now m.revisions defaultCollection plain

def outcome (inner : Entries) : Except Error m.call.Result × Entries :=
  Program.eval (throughStack m.stack
    (stored m.now m.revisions defaultCollection) m.call) inner

def step (t : Twin) (m : StackMoment) : Option Twin :=
  some ⟨(m.plainOutcome defaultCollection t.plain).2,
    (m.outcome defaultCollection t.inner).2⟩

def SameResult (t : Twin) (m : StackMoment) : Prop :=
  (m.outcome defaultCollection t.inner).1 =
    (m.plainOutcome defaultCollection t.plain).1

/-- No `compare_and_delete` meets a live entry of another revision, except
one that is stored as it was put. -/
def Clear (t : Twin) (m : StackMoment) : Prop :=
  match m.call with
  | .one (.compareAndDelete key expected c) => ∀ slot box,
      live m.now t.plain (c.getD defaultCollection, key) = some slot →
        live m.now t.inner (c.getD defaultCollection, key) = some box →
          slot.revision = expected ∨ box.entry.value = slot.entry.value
  | _ => True

variable {defaultCollection m} {V : Value → Value → Prop} {t : Twin}

/-- What a stack returns of a conflict is the plain result exactly when the
value is stored as it was put. -/
theorem sameResult_compareAndDelete (hrelated : Related V t.plain t.inner)
    {key : String} {expected : Revision} {c : Option String}
    (hcall : m.call = .one (.compareAndDelete key expected c)) :
    SameResult defaultCollection t m ↔ Clear defaultCollection t m := by
  obtain ⟨stack, now, revisions, call⟩ := m
  subst hcall
  simp only [SameResult, Clear, outcome, plainOutcome,
    throughStack_compareAndDelete, stored, Program.eval_ofFn]
  exact compareAndDelete_same_iff hrelated key expected c

theorem sameResult_iff (hrelated : Related V t.plain t.inner)
    (hshows : Shows V m.call (m.plainOutcome defaultCollection t.plain).1
      (m.outcome defaultCollection t.inner).1) :
    SameResult defaultCollection t m ↔ Clear defaultCollection t m := by
  by_cases hcall : ∃ key expected c,
      m.call = .one (.compareAndDelete key expected c)
  · obtain ⟨key, expected, c, hcall⟩ := hcall
    exact sameResult_compareAndDelete hrelated hcall
  · have hclear : Clear defaultCollection t m := by
      unfold Clear
      split
      · rename_i h
        exact (hcall ⟨_, _, _, h⟩).elim
      · trivial
    exact ⟨fun _ => hclear, fun _ =>
      hshows.eq fun key expected c h => hcall ⟨key, expected, c, h⟩⟩

end StackMoment

/-- The stack of every call opens what the others seal. -/
def Compatible (openings : List Opening) (m : StackMoment) : Prop :=
  (∀ w ∈ m.stack, w.Inverts) ∧
    m.stack.map (fun w => w.layer.openValue) = openings

theorem serves_throughStack {openings : List Opening} {m : StackMoment}
    (h : Compatible openings m) (defaultCollection : String) :
    Serves m.now m.revisions defaultCollection (OpensBy openings)
      (throughStack m.stack (stored m.now m.revisions defaultCollection)) := by
  rw [throughStack_eq]
  refine serves_stackCall ?_ fun layer hlayer => ?_
  · rw [List.map_map]
    exact h.2
  · obtain ⟨w, hw, rfl⟩ := List.mem_map.mp hlayer
    exact (h.1 w hw).faithful

/-- Wrappers with any sizes and any versions, in one order of opening, show
one plain store along every run. -/
theorem stacks_show_plain_store (defaultCollection : String)
    {openings : List Opening} {t : EncryptionWrapper.Twin}
    {moments : List StackMoment}
    (hrelated : Related (OpensBy openings) t.plain t.inner)
    (hvalid : ∀ m ∈ moments, m.call.Valid)
    (hcompatible : ∀ m ∈ moments, Compatible openings m) :
    Along (StackMoment.step defaultCollection) (fun t m =>
      (StackMoment.SameResult defaultCollection t m ↔
        StackMoment.Clear defaultCollection t m) ∧
      Shows (OpensBy openings) m.call
        (m.plainOutcome defaultCollection t.plain).1
        (m.outcome defaultCollection t.inner).1) t moments := by
  refine @along_of_invariant _ _ _
    (fun t => Related (OpensBy openings) t.plain t.inner)
    (fun _ m => m.call.Valid ∧ Compatible openings m) _ ?_ ?_ _ _ hrelated
    (along_of_labels _ fun m hm => ⟨hvalid m hm, hcompatible m hm⟩)
  · rintro t m t' hrelated ⟨hvalid, hcompatible⟩ hstep
    cases hstep
    exact (serves_throughStack hcompatible defaultCollection m.call t.plain
      t.inner hrelated hvalid).2
  · rintro t m hrelated ⟨hvalid, hcompatible⟩
    have hshows := (serves_throughStack hcompatible defaultCollection m.call
      t.plain t.inner hrelated hvalid).1
    exact ⟨StackMoment.sameResult_iff hrelated hshows, hshows⟩

def plainGzip : Gzip where
  encode := fun bytes => .ok (0x1F :: 0x8B :: bytes)
  decode
    | 0x1F :: 0x8B :: bytes => some bytes
    | _ => none

theorem plainGzip_inverts (minSize : Nat) :
    (CompressionWrapper.withMinSize plainGzip minSize).Inverts :=
  fun bytes => ⟨_, rfl, by simp, rfl⟩

abbrev sampleStack (minSize : Nat) (version : UInt32) : List SealingWrapper :=
  [.compression (.withMinSize plainGzip minSize),
    .encryption ⟨fun bytes => .ok bytes, fun bytes _ => .ok bytes, version⟩]

abbrev putThrough : StackMoment :=
  ⟨sampleStack 1024 1, .epoch, fun _ => .fill 0,
    .one (.put "k" .null none none)⟩

abbrev getThrough : StackMoment :=
  ⟨sampleStack 2048 2, .epoch, fun _ => .fill 0, .one (.get "k" none)⟩

theorem compatible_sampleStack (minSize : Nat) (version : UInt32)
    (call : StoreCall) : Compatible
      ((sampleStack 1024 1).map fun w => w.layer.openValue)
      ⟨sampleStack minSize version, .epoch, fun _ => .fill 0, call⟩ := by
  refine ⟨fun w hw => ?_, rfl⟩
  simp only [sampleStack, List.mem_cons, List.not_mem_nil, or_false] at hw
  rcases hw with rfl | rfl
  · exact plainGzip_inverts minSize
  · exact fun bytes => ⟨bytes, rfl, rfl⟩

/-- A value put at one threshold and version is read at another. -/
theorem stack_put_get :
    Along (StackMoment.step "c") (fun t m =>
      (StackMoment.SameResult "c" t m ↔ StackMoment.Clear "c" t m) ∧
      Shows (OpensBy ((sampleStack 1024 1).map fun w => w.layer.openValue))
        m.call (m.plainOutcome "c" t.plain).1 (m.outcome "c" t.inner).1)
      emptyTwin [putThrough, getThrough] := by
  refine stacks_show_plain_store "c" (fun _ => .none) ?_ ?_
  · intro m hm
    simp only [List.mem_cons, List.not_mem_nil, or_false] at hm
    rcases hm with rfl | rfl
    · rfl
    · trivial
  · intro m hm
    simp only [List.mem_cons, List.not_mem_nil, or_false] at hm
    rcases hm with rfl | rfl
    · exact compatible_sampleStack ..
    · exact compatible_sampleStack ..

end OpenKeyV.Wrapper
