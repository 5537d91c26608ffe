import OpenKeyV.Library.Machine
import OpenKeyV.Wrapper.Layers

/-!
# What shows through the encryption wrapper

A store behind the wrapper holds the same entries as a plain one, each value
in its envelope.  Every call that opens what it returns then gives the result
of the plain store; `compare_and_delete` returns the snapshot of a conflict
in its envelope.
-/

namespace OpenKeyV.Wrapper

open Library

namespace EncryptionWrapper

variable (w : EncryptionWrapper)

def Inverts : Prop :=
  ∀ bytes, ∃ encrypted, w.encryptFn bytes = .ok encrypted ∧
    w.decryptFn encrypted w.version = .ok bytes

/-- Magic, version, known kind, and a payload that is valid for it. -/
def Envelope (value : Value) : Prop :=
  ∃ (version : UInt32) (kind : ValueKind) (encrypted payload : Bytes),
    value.bytes = encryptionMagic ++ toLeBytes 4 version.toNat ++
        kind.tag :: encrypted ∧
      w.decryptFn encrypted version = .ok payload ∧
      ValidPayload ⟨kind, payload⟩

structure SealedSlot (slot box : Slot) : Prop where
  value : w.encryptValue slot.entry.value = .ok box.entry.value
  valid : ValidPayload slot.entry.value
  createdAt : box.entry.createdAt = slot.entry.createdAt
  expiresAt : box.entry.expiresAt = slot.entry.expiresAt
  revision : box.revision = slot.revision

/-- The entries of the inner store are those of the plain one, sealed. -/
def Sealed (plain inner : Entries) : Prop :=
  ∀ id, Option.Rel w.SealedSlot (plain id) (inner id)

/-! ## One value -/

section Values

variable {w} {value box : Value}

theorem decryptValue_header {version : UInt32} {kind : ValueKind}
    {encrypted : Bytes} (hbytes : value.bytes = encryptionMagic ++
      toLeBytes 4 version.toNat ++ kind.tag :: encrypted) :
    w.decryptValue (some value) = (do
      let decrypted ← w.decryptFn encrypted version
      let value ← Value.new kind decrypted
      return some value) := by
  have hmagic : encryptionMagic <+: value.bytes := by
    rw [hbytes, List.append_assoc]
    exact List.prefix_append _ _
  have hlen : ¬ value.bytes.length < headerLen := by
    simp [hbytes, headerLen]
    omega
  have hrest : value.bytes.drop encryptionMagic.length =
      toLeBytes 4 version.toNat ++ kind.tag :: encrypted := by
    rw [hbytes, List.append_assoc, List.drop_left]
  have hversion : (toLeBytes 4 version.toNat ++ kind.tag :: encrypted).take 4 =
      toLeBytes 4 version.toNat := List.take_left' (length_toLeBytes ..)
  have hkind : (toLeBytes 4 version.toNat ++ kind.tag :: encrypted).drop 4 =
      kind.tag :: encrypted := List.drop_left' (length_toLeBytes ..)
  have hbody : value.bytes.drop headerLen = encrypted := by
    have hcut : headerLen = encryptionMagic.length + (4 + 1) := rfl
    rw [hcut, ← List.drop_drop, hrest, ← List.drop_drop, hkind]
    rfl
  have hnumber : fromLeBytes (toLeBytes 4 version.toNat) = version.toNat :=
    fromLeBytes_toLeBytes_of_lt version.toNat_lt
  simp only [decryptValue, hmagic, not_true_eq_false, if_false, hlen, hrest,
    hversion, hkind, List.head?_cons, Option.bind_some, ValueKind.fromTag_tag,
    hbody, hnumber, UInt32.ofNat_toNat]

theorem new_of_valid {kind : ValueKind} {bytes : Bytes}
    (h : ValidPayload ⟨kind, bytes⟩) :
    Value.new kind bytes = .ok ⟨kind, bytes⟩ := by
  unfold ValidPayload at h
  simp only [Value.new, h]
  rfl

theorem decryptValue_encryptValue (hinv : w.Inverts)
    (hencrypt : w.encryptValue value = .ok box) (hvalid : ValidPayload value) :
    w.decryptValue (some box) = .ok (some value) := by
  obtain ⟨encrypted, hfn, hdecrypt⟩ := hinv value.bytes
  simp only [encryptValue, hfn, bind, Except.bind, pure, Except.pure,
    Except.ok.injEq] at hencrypt
  subst hencrypt
  rw [decryptValue_header rfl, hdecrypt]
  simp only [bind, Except.bind, new_of_valid hvalid]
  rfl

theorem fromTag_eq_some {tag : UInt8} {kind : ValueKind}
    (h : ValueKind.fromTag tag = some kind) : tag = kind.tag := by
  unfold ValueKind.fromTag at h
  split_ifs at h <;> cases h <;> assumption

theorem version_of_bytes {rest : Bytes} (h : 4 ≤ rest.length) :
    toLeBytes 4 (UInt32.ofNat (fromLeBytes (rest.take 4))).toNat =
      rest.take 4 := by
  have hlen : (rest.take 4).length = 4 := List.length_take_of_le h
  have hlt : fromLeBytes (rest.take 4) < 2 ^ 32 := by
    have := fromLeBytes_lt (rest.take 4)
    rwa [hlen] at this
  have hnumber := toLeBytes_fromLeBytes (rest.take 4)
  rw [hlen] at hnumber
  rw [UInt32.toNat_ofNat_of_lt' hlt, hnumber]

theorem decryptValue_cases (value : Value) :
    w.decryptValue (some value) = .error .corruptedData ∨
      ∃ (version : UInt32) (kind : ValueKind) (encrypted : Bytes),
        value.bytes = encryptionMagic ++ toLeBytes 4 version.toNat ++
          kind.tag :: encrypted := by
  by_cases hmagic : encryptionMagic <+: value.bytes
  · by_cases hlen : value.bytes.length < headerLen
    · exact .inl (by simp [decryptValue, hmagic, hlen])
    · obtain ⟨rest, hrest⟩ := hmagic
      have hdrop : value.bytes.drop encryptionMagic.length = rest := by
        rw [← hrest, List.drop_left]
      have hfive : 5 ≤ rest.length := by
        have := congrArg List.length hrest
        simp only [List.length_append, headerLen] at this hlen
        omega
      obtain ⟨tag, encrypted, htag⟩ := List.exists_cons_of_length_pos
        (l := rest.drop 4) (by simp; omega)
      cases hkind : ValueKind.fromTag tag with
      | none =>
          have hmagic : encryptionMagic <+: value.bytes := ⟨rest, hrest⟩
          exact .inl (by simp [decryptValue, hmagic, hlen, hdrop, htag, hkind])
      | some kind =>
          refine .inr ⟨.ofNat (fromLeBytes (rest.take 4)), kind, encrypted, ?_⟩
          rw [version_of_bytes (by omega), ← fromTag_eq_some hkind, ← htag,
            List.append_assoc, List.take_append_drop, hrest]
  · exact .inl (by simp [decryptValue, hmagic])

theorem decryptValue_error (h : ¬ w.Envelope value) :
    ∃ error, w.decryptValue (some value) = .error error := by
  rcases @decryptValue_cases w value with herror |
    ⟨version, kind, encrypted, hbytes⟩
  · exact ⟨_, herror⟩
  · rw [decryptValue_header hbytes]
    cases hdecrypt : w.decryptFn encrypted version with
    | error error => exact ⟨error, rfl⟩
    | ok payload =>
        cases hvalid : Value.validatePayload kind payload with
        | error error =>
            exact ⟨error, by simp only [bind, Except.bind, Value.new, hvalid]⟩
        | ok _ =>
            exact (h ⟨version, kind, encrypted, payload, hbytes, hdecrypt,
              hvalid⟩).elim

end Values

/-! ## The layer that encrypts -/

def layer : ValueLayer where
  sealValue := w.encryptValue
  openValue := w.decryptValue
  checksLengths := true

def Seals (value box : Value) : Prop :=
  w.encryptValue value = .ok box ∧ ValidPayload value

section Layer

variable {w} {plain inner : Entries}

theorem layer_call (inner : Handler) (call : StoreCall) :
    w.layer.call inner call = w.call inner call := by
  cases call with
  | getMany | ttlMany => rfl
  | one op =>
      cases op with
      | putMany keys values c seconds =>
          simp only [ValueLayer.call, ValueLayer.putMany,
            EncryptionWrapper.call, EncryptionWrapper.putMany, layer, true_and]
      | _ => rfl

theorem sealsAs (hinv : w.Inverts) : w.layer.SealsAs w.Seals where
  opens_none := rfl
  opens _ _ h := decryptValue_encryptValue hinv h.1 h.2
  seals value hvalid := by
    obtain ⟨encrypted, hencrypt, -⟩ := hinv value.bytes
    refine ⟨.binary (encryptionMagic ++ toLeBytes 4 w.version.toNat ++
      value.kind.tag :: encrypted), ?_, rfl, ?_, hvalid⟩
    · simp only [layer, encryptValue, hencrypt]
      rfl
    · simp only [encryptValue, hencrypt]
      rfl

theorem sealed_iff : w.Sealed plain inner ↔ Related w.Seals plain inner := by
  have hslot : w.SealedSlot = SlotRel w.Seals := by
    funext slot box
    exact propext ⟨fun h => ⟨⟨h.value, h.valid⟩, h.createdAt, h.expiresAt,
        h.revision⟩,
      fun h => ⟨h.value.1, h.value.2, h.createdAt, h.expiresAt, h.revision⟩⟩
  rw [Sealed, Related, hslot]

theorem serves_call (hinv : w.Inverts) (now : DateTime)
    (revisions : Nat → Revision) (defaultCollection : String) :
    Serves now revisions defaultCollection w.Seals
      (w.call (stored now revisions defaultCollection)) := by
  have hserves := (sealsAs hinv).serves
    (@serves_stored now revisions defaultCollection)
  rwa [Relation.comp_eq, funext (layer_call _)] at hserves

end Layer

/-! ## Runs of both stores -/

structure Moment where
  now : DateTime
  revisions : Nat → Revision
  call : StoreCall

/-- A plain store, and the store behind the wrapper. -/
structure Twin where
  plain : Entries
  inner : Entries

variable (defaultCollection : String)

def plainOutcome (m : Moment) (plain : Entries) :
    Except Error m.call.Result × Entries :=
  m.call.apply m.now m.revisions defaultCollection plain

def outcome (m : Moment) (inner : Entries) :
    Except Error m.call.Result × Entries :=
  Program.eval (w.call (stored m.now m.revisions defaultCollection) m.call)
    inner

def step (t : Twin) (m : Moment) : Option Twin :=
  some ⟨(plainOutcome defaultCollection m t.plain).2,
    (w.outcome defaultCollection m t.inner).2⟩

/-- The wrapper gives the result of the plain store. -/
def SameResult (t : Twin) (m : Moment) : Prop :=
  (w.outcome defaultCollection m t.inner).1 =
    (plainOutcome defaultCollection m t.plain).1

/-- No `compare_and_delete` meets a live entry of another revision, except
one that is its own envelope. -/
def Clear (t : Twin) (m : Moment) : Prop :=
  match m.call with
  | .one (.compareAndDelete key expected c) =>
      ∀ slot, live m.now t.plain (c.getD defaultCollection, key) = some slot →
        slot.revision = expected ∨
          w.encryptValue slot.entry.value = .ok slot.entry.value
  | _ => True

section Step

variable {w} {defaultCollection} {m : Moment} {plain inner : Entries}

theorem sameResult_compareAndDelete (hsealed : w.Sealed plain inner)
    {key : String} {expected : Revision} {c : Option String}
    (hcall : m.call = .one (.compareAndDelete key expected c)) :
    w.SameResult defaultCollection ⟨plain, inner⟩ m ↔
      w.Clear defaultCollection ⟨plain, inner⟩ m := by
  obtain ⟨now, revisions, storeCall⟩ := m
  subst hcall
  have hid := (sealed_iff.mp hsealed).live now (c.getD defaultCollection, key)
  refine (compareAndDelete_same_iff (sealed_iff.mp hsealed) key expected
    c).trans ?_
  simp only [Clear]
  generalize live now plain (c.getD defaultCollection, key) = a at *
  generalize live now inner (c.getD defaultCollection, key) = b at *
  cases hid with
  | none => simp
  | some hslot => simp [hslot.value.1, eq_comm]

theorem outcome_sealed (hinv : w.Inverts) (hsealed : w.Sealed plain inner)
    (hvalid : m.call.Valid) :
    (w.SameResult defaultCollection ⟨plain, inner⟩ m ↔
        w.Clear defaultCollection ⟨plain, inner⟩ m) ∧
      w.Sealed (plainOutcome defaultCollection m plain).2
        (w.outcome defaultCollection m inner).2 := by
  obtain ⟨hshows, hafter⟩ := serves_call hinv m.now m.revisions
    defaultCollection m.call plain inner (sealed_iff.mp hsealed) hvalid
  refine ⟨?_, sealed_iff.mpr hafter⟩
  by_cases hcall : ∃ key expected c,
      m.call = .one (.compareAndDelete key expected c)
  · obtain ⟨key, expected, c, hcall⟩ := hcall
    exact sameResult_compareAndDelete hsealed hcall
  · have hsame := hshows.eq fun key expected c h => hcall ⟨key, expected, c, h⟩
    refine ⟨fun _ => ?_, fun _ => hsame⟩
    unfold Clear
    split
    · rename_i h
      exact (hcall ⟨_, _, _, h⟩).elim
    · trivial

end Step

/-! ## Values that are no envelopes -/

def Shows (m : Moment) (inner : Entries) (slot : Slot) : Prop :=
  match m.call with
  | .one (.get key c) | .one (.ttl key c) | .one (.getWithRevision key c) =>
      live m.now inner (c.getD defaultCollection, key) = some slot
  | .getMany keys c | .ttlMany keys c => ∃ key ∈ keys,
      live m.now inner (c.getD defaultCollection, key) = some slot
  | .one (.compareAndSwap key expected _ c _) =>
      live m.now inner (c.getD defaultCollection, key) = some slot ∧
        expected ≠ some slot.revision
  | .one (.compareAndDelete key expected c) =>
      live m.now inner (c.getD defaultCollection, key) = some slot ∧
        slot.revision ≠ expected
  | _ => False

/-- A stored value that is no envelope is an error of the call that is to
return it. -/
def Rejects (m : Moment) (inner : Entries) : Prop :=
  ∀ slot, Shows defaultCollection m inner slot →
    ¬ w.Envelope slot.entry.value →
      ∃ error, (w.outcome defaultCollection m inner).1 = .error error

/-- What a `compare_and_delete` conflicts with is an envelope. -/
def Guarded (m : Moment) (inner : Entries) : Prop :=
  match m.call with
  | .one (.compareAndDelete ..) => ∀ slot,
      Shows defaultCollection m inner slot → w.Envelope slot.entry.value
  | _ => True

section Rejected

variable {w} {defaultCollection} {m : Moment} {inner : Entries}

theorem mapM_error {α β : Type} {f : α → Except Error β} {as : List α} {a : α}
    (hmem : a ∈ as) (h : ∃ error, f a = .error error) :
    ∃ error, as.mapM f = .error error := by
  induction as with
  | nil => cases hmem
  | cons b as ih =>
      rw [List.mapM_cons]
      cases hb : f b with
      | error error => exact ⟨error, rfl⟩
      | ok result =>
          rcases List.mem_cons.mp hmem with rfl | hrest
          · obtain ⟨error, ha⟩ := h
            rw [ha] at hb
            cases hb
          · obtain ⟨error, hrest⟩ := ih hrest
            exact ⟨error, by rw [hrest]; rfl⟩

theorem decryptTtl_error {value : Value} (seconds : Option F64)
    (h : ¬ w.Envelope value) :
    ∃ error, w.decryptTtl (some (value, seconds)) = .error error := by
  obtain ⟨error, herror⟩ := decryptValue_error h
  exact ⟨error, by simp only [decryptTtl, herror]; rfl⟩

theorem decryptRevisioned_error (current : RevisionedValue)
    (h : ¬ w.Envelope current.value) :
    ∃ error, transposed w.decryptRevisioned (some current) = .error error := by
  obtain ⟨error, herror⟩ := decryptValue_error h
  exact ⟨error, by simp only [transposed, decryptRevisioned, herror]; rfl⟩

theorem rejects_opened
    (hopens : ∀ key expected c,
      m.call ≠ .one (.compareAndDelete key expected c)) :
    w.Rejects defaultCollection m inner := by
  intro slot hshows hbad
  obtain ⟨now, revisions, storeCall⟩ := m
  cases storeCall with
  | getMany keys c =>
      obtain ⟨key, hkey, hslot⟩ := hshows
      obtain ⟨error, herror⟩ := mapM_error
        (List.mem_map_of_mem (f := fun key =>
          (live now inner (c.getD defaultCollection, key)).map
            fun slot => slot.entry.value) hkey)
        (by rw [hslot]; exact decryptValue_error hbad)
      refine ⟨error, ?_⟩
      simp only [outcome, call, getMany, StoreCall.apply, stored,
        Program.eval_bind, Program.eval_ofFn, Program.resume_ok,
        eval_returning]
      exact herror
  | ttlMany keys c =>
      obtain ⟨key, hkey, hslot⟩ := hshows
      obtain ⟨error, herror⟩ := mapM_error
        (List.mem_map_of_mem (f := fun key =>
          (live now inner (c.getD defaultCollection, key)).map
            fun slot => (slot.entry.value, slot.entry.ttl now)) hkey)
        (by rw [hslot]; exact decryptTtl_error _ hbad)
      refine ⟨error, ?_⟩
      simp only [outcome, call, ttlMany, StoreCall.apply, stored,
        Program.eval_bind, Program.eval_ofFn, Program.resume_ok,
        eval_returning]
      exact herror
  | one op =>
      cases op with
      | get key c =>
          obtain ⟨error, herror⟩ := decryptValue_error hbad
          have hslot : live now inner (c.getD defaultCollection, key) =
            some slot := hshows
          refine ⟨error, ?_⟩
          simp only [outcome, call, get, StoreCall.apply, StoreOp.apply, stored,
            Program.eval_bind, Program.eval_ofFn, Program.resume_ok,
            eval_returning, hslot]
          exact herror
      | ttl key c =>
          obtain ⟨error, herror⟩ := decryptTtl_error
            (slot.entry.ttl now) hbad
          have hslot : live now inner (c.getD defaultCollection, key) =
            some slot := hshows
          refine ⟨error, ?_⟩
          simp only [outcome, call, ttl, StoreCall.apply, StoreOp.apply, stored,
            Program.eval_bind, Program.eval_ofFn, Program.resume_ok,
            eval_returning, hslot]
          exact herror
      | getWithRevision key c =>
          obtain ⟨error, herror⟩ := decryptRevisioned_error
            (slot.revisioned now) hbad
          have hslot : live now inner (c.getD defaultCollection, key) =
            some slot := hshows
          refine ⟨error, ?_⟩
          simp only [outcome, call, getWithRevision, StoreCall.apply,
            StoreOp.apply, stored, Program.eval_bind, Program.eval_ofFn,
            Program.resume_ok, eval_returning, hslot]
          exact herror
      | compareAndSwap key expected value c seconds =>
          obtain ⟨error, herror⟩ := decryptRevisioned_error
            (slot.revisioned now) hbad
          obtain ⟨hslot, hexpected⟩ := hshows
          have hmatch : matchesRevision expected (some slot) = false := by
            simpa [matchesRevision] using hexpected
          simp only [outcome, call, compareAndSwap, stored, Program.eval_bind,
            eval_returning]
          cases w.encryptValue value with
          | error error => exact ⟨error, rfl⟩
          | ok box =>
              simp only [Program.resume_ok, Program.eval_bind,
                Program.eval_ofFn, StoreCall.apply, StoreOp.apply, hslot,
                hmatch, Bool.false_eq_true, if_false]
              cases ManagedEntry.ofTtl now box seconds with
              | error error =>
                  refine ⟨error, ?_⟩
                  simp only [Program.resume_error]
              | ok entry =>
                  refine ⟨error, ?_⟩
                  simp only [Program.resume_ok, Program.eval_bind,
                    eval_returning, Option.map_some, herror,
                    Program.resume_error]
      | compareAndDelete key expected c => exact (hopens key expected c rfl).elim
      | put | putMany | delete | deleteMany => exact hshows.elim

theorem rejects_iff :
    w.Rejects defaultCollection m inner ↔
      w.Guarded defaultCollection m inner := by
  by_cases hcall : ∃ key expected c,
      m.call = .one (.compareAndDelete key expected c)
  · obtain ⟨now, revisions, storeCall⟩ := m
    obtain ⟨key, expected, c, rfl⟩ := hcall
    have hreturns : ∀ error, (w.outcome defaultCollection
        ⟨now, revisions, .one (.compareAndDelete key expected c)⟩ inner).1 ≠
          .error error := by
      intro error herror
      simp only [outcome, call, compareAndDelete, StoreCall.apply,
        StoreOp.apply, stored, Program.eval_ofFn] at herror
      split at herror <;> cases herror
    constructor
    · intro hrejects slot hshows
      by_contra hbad
      obtain ⟨error, herror⟩ := hrejects slot hshows hbad
      exact hreturns error herror
    · intro hguarded slot hshows hbad
      exact (hbad (hguarded slot hshows)).elim
  · refine ⟨fun _ => ?_, fun _ => rejects_opened fun key expected c h =>
      hcall ⟨key, expected, c, h⟩⟩
    unfold Guarded
    split
    · rename_i h
      exact (hcall ⟨_, _, _, h⟩).elim
    · trivial

end Rejected

/-! ## The wrapper as a whole -/

/-- Behind the wrapper every run gives the results of the plain store, and
what is no envelope is an error. -/
def Transparent : Prop :=
  (∀ t moments, w.Sealed t.plain t.inner →
    (∀ m ∈ moments, m.call.Valid) →
      Along (w.step defaultCollection) (w.SameResult defaultCollection) t
        moments) ∧
    ∀ m inner, w.Rejects defaultCollection m inner

theorem transparent_iff (hinv : w.Inverts) {t : Twin} {moments : List Moment}
    (hsealed : w.Sealed t.plain t.inner)
    (hvalid : ∀ m ∈ moments, m.call.Valid) (m : Moment) (inner : Entries) :
    (Along (w.step defaultCollection) (w.SameResult defaultCollection) t
        moments ↔
      Along (w.step defaultCollection) (w.Clear defaultCollection) t
        moments) ∧
      (w.Rejects defaultCollection m inner ↔
        w.Guarded defaultCollection m inner) := by
  refine ⟨?_, rejects_iff⟩
  refine along_congr (P := fun t => w.Sealed t.plain t.inner) ?_ ?_ hsealed
    hvalid
  · intro t m t' hsealed hvalid hstep
    cases hstep
    exact (outcome_sealed hinv hsealed hvalid).2
  · intro t m hsealed hvalid
    exact (outcome_sealed hinv hsealed hvalid).1

end EncryptionWrapper

section Plain

def identityWrapper : EncryptionWrapper :=
  ⟨fun bytes => .ok bytes, fun bytes _ => .ok bytes, 1⟩

abbrev emptyTwin : EncryptionWrapper.Twin := ⟨fun _ => none, fun _ => none⟩

abbrev putNull : EncryptionWrapper.Moment :=
  ⟨.epoch, fun _ => .fill 0, .one (.put "k" .null none none)⟩

abbrev deleteOther : EncryptionWrapper.Moment :=
  ⟨.epoch, fun _ => .fill 0, .one (.compareAndDelete "k" (.fill 1) none)⟩

abbrev getNull : EncryptionWrapper.Moment :=
  ⟨.epoch, fun _ => .fill 0, .one (.get "k" none)⟩

theorem identityWrapper_inverts : identityWrapper.Inverts :=
  fun bytes => ⟨bytes, rfl, rfl⟩

theorem transparent_put_get :
    Along (identityWrapper.step "c") (identityWrapper.SameResult "c")
      emptyTwin [putNull, getNull] := by
  refine (EncryptionWrapper.transparent_iff identityWrapper "c"
    identityWrapper_inverts (fun _ => .none) ?_ putNull fun _ => none).1.mpr ?_
  · intro m hm
    simp only [List.mem_cons, List.not_mem_nil, or_false] at hm
    rcases hm with rfl | rfl
    · rfl
    · trivial
  · refine ⟨trivial, fun _ _ => ⟨trivial, fun _ _ => trivial⟩⟩

/-- A conflict returns `null` in its envelope. -/
theorem compareAndDelete_discloses :
    identityWrapper.Inverts ∧ ¬ identityWrapper.Transparent "c" := by
  refine ⟨identityWrapper_inverts, fun h => ?_⟩
  have hsame := h.1 emptyTwin [putNull, deleteOther] (fun _ => .none) ?_
  · have hconflict : (Except.ok (.conflict (some
        ⟨⟨.binary, [0x4F, 0x4B, 0x56, 0x45, 0x31, 1, 0, 0, 0, 5]⟩, .fill 0,
          none⟩)) : Except Error CompareAndDeleteResult) =
        .ok (.conflict (some ⟨⟨.null, []⟩, .fill 0, none⟩)) :=
      (hsame.2 _ rfl).1
    simp at hconflict
  · intro m hm
    simp only [List.mem_cons, List.not_mem_nil, or_false] at hm
    rcases hm with rfl | rfl
    · rfl
    · trivial

end Plain

end OpenKeyV.Wrapper
