import OpenKeyV.Wrapper.Encryption
import Mathlib.Data.Option.Basic
import Mathlib.Logic.Relation

/-!
# Layers that seal values

A layer seals each value before it hands it to the store below and opens what
the store below returns.  The store below may itself be a stack of layers.
-/

namespace OpenKeyV.Wrapper

open Library

def ValidPayload (value : Value) : Prop :=
  Value.validatePayload value.kind value.bytes = .ok ()

def StoreCall.Valid : StoreCall → Prop
  | .one (.put _ value _ _) | .one (.compareAndSwap _ _ value _ _) =>
      ValidPayload value
  | .one (.putMany _ values _ _) => ∀ value ∈ values, ValidPayload value
  | _ => True

abbrev Handler := (call : StoreCall) → StoreProgram call.Result

abbrev Opening := Option Value → Except Error (Option Value)

structure ValueLayer where
  sealValue : Value → Except Error Value
  openValue : Opening
  /-- `put_many` compares the lengths before it seals. -/
  checksLengths : Bool

namespace ValueLayer

variable (layer : ValueLayer)

def openTtl : Option (Value × Option F64) →
    Except Error (Option (Value × Option F64))
  | none => .ok none
  | some (value, seconds) => do
      let value ← layer.openValue (some value)
      return value.map fun value => (value, seconds)

def openRevisioned (current : RevisionedValue) :
    Except Error RevisionedValue :=
  match layer.openValue (some current.value) with
  | .error error => .error error
  | .ok none => .error .corruptedData
  | .ok (some value) => .ok { current with value }

section Calls

variable (inner : Handler)

def get (key : String) (collection : Option String) :
    StoreProgram (Option Value) := do
  let value ← inner (.one (.get key collection))
  returning (layer.openValue value)

def ttl (key : String) (collection : Option String) :
    StoreProgram (Option (Value × Option F64)) := do
  let found ← inner (.one (.ttl key collection))
  returning (layer.openTtl found)

def put (key : String) (value : Value) (collection : Option String)
    (seconds : Option F64) : StoreProgram Unit := do
  let box ← returning (layer.sealValue value)
  inner (.one (.put key box collection seconds))

def delete (key : String) (collection : Option String) : StoreProgram Bool :=
  inner (.one (.delete key collection))

def getMany (keys : List String) (collection : Option String) :
    StoreProgram (List (Option Value)) := do
  let values ← inner (.getMany keys collection)
  returning (values.mapM layer.openValue)

def ttlMany (keys : List String) (collection : Option String) :
    StoreProgram (List (Option (Value × Option F64))) := do
  let results ← inner (.ttlMany keys collection)
  returning (results.mapM layer.openTtl)

def putMany (keys : List String) (values : List Value)
    (collection : Option String) (seconds : Option F64) :
    StoreProgram Unit :=
  if layer.checksLengths ∧ keys.length ≠ values.length then
    returning (.error (.batchSizeMismatch keys.length values.length))
  else do
    let boxes ← returning (values.mapM layer.sealValue)
    inner (.one (.putMany keys boxes collection seconds))

def deleteMany (keys : List String) (collection : Option String) :
    StoreProgram Nat :=
  inner (.one (.deleteMany keys collection))

def getWithRevision (key : String) (collection : Option String) :
    StoreProgram (Option RevisionedValue) := do
  let current ← inner (.one (.getWithRevision key collection))
  returning (EncryptionWrapper.transposed layer.openRevisioned current)

def compareAndSwap (key : String) (expected : Option Revision)
    (value : Value) (collection : Option String) (seconds : Option F64) :
    StoreProgram CompareAndSwapResult := do
  let box ← returning (layer.sealValue value)
  match ← inner
      (.one (.compareAndSwap key expected box collection seconds)) with
  | .applied revision => return .applied revision
  | .conflict current => do
      let current ←
        returning (EncryptionWrapper.transposed layer.openRevisioned current)
      return .conflict current

def compareAndDelete (key : String) (expected : Revision)
    (collection : Option String) : StoreProgram CompareAndDeleteResult :=
  inner (.one (.compareAndDelete key expected collection))

def call : Handler
  | .one (.get key c) => layer.get inner key c
  | .one (.ttl key c) => layer.ttl inner key c
  | .one (.put key value c seconds) => layer.put inner key value c seconds
  | .one (.putMany keys values c seconds) =>
      layer.putMany inner keys values c seconds
  | .one (.delete key c) => delete inner key c
  | .one (.deleteMany keys c) => deleteMany inner keys c
  | .one (.getWithRevision key c) => layer.getWithRevision inner key c
  | .one (.compareAndSwap key expected value c seconds) =>
      layer.compareAndSwap inner key expected value c seconds
  | .one (.compareAndDelete key expected c) =>
      compareAndDelete inner key expected c
  | .getMany keys c => layer.getMany inner keys c
  | .ttlMany keys c => layer.ttlMany inner keys c

end Calls

/-- A valid value is sealed as a valid one, and opens again. -/
structure Faithful : Prop where
  opens_none : layer.openValue none = .ok none
  seals : ∀ value, ValidPayload value → ∃ box,
    layer.sealValue value = .ok box ∧ ValidPayload box ∧
      layer.openValue (some box) = .ok (some value)

end ValueLayer

def stackCall : List ValueLayer → Handler → Handler
  | [], inner => inner
  | layer :: layers, inner => layer.call (stackCall layers inner)

/-! ## Entries with related values -/

section Related

/-- Related values under the same times and the same revision. -/
structure SlotRel (V : Value → Value → Prop) (slot box : Slot) : Prop where
  value : V slot.entry.value box.entry.value
  createdAt : box.entry.createdAt = slot.entry.createdAt
  expiresAt : box.entry.expiresAt = slot.entry.expiresAt
  revision : box.revision = slot.revision

def Related (V : Value → Value → Prop) (plain inner : Entries) : Prop :=
  ∀ id, Option.Rel (SlotRel V) (plain id) (inner id)

variable {V W : Value → Value → Prop} {now : DateTime}
  {plain inner : Entries} {id : Identity} {slot box : Slot}

theorem SlotRel.isExpired (h : SlotRel V slot box) :
    box.entry.isExpired now = slot.entry.isExpired now := by
  simp only [ManagedEntry.isExpired, h.expiresAt]

theorem SlotRel.ttl (h : SlotRel V slot box) :
    box.entry.ttl now = slot.entry.ttl now := by
  simp only [ManagedEntry.ttl, h.expiresAt]

theorem SlotRel.between (h : SlotRel (Relation.Comp V W) slot box) :
    ∃ mid, SlotRel V slot mid ∧ SlotRel W mid box := by
  obtain ⟨value, hfirst, hsecond⟩ := h.value
  exact ⟨⟨{ slot.entry with value }, slot.revision⟩,
    ⟨hfirst, rfl, rfl, rfl⟩,
    ⟨hsecond, h.createdAt, h.expiresAt, h.revision⟩⟩

theorem SlotRel.comp {mid : Slot} (h : SlotRel V slot mid)
    (h' : SlotRel W mid box) : SlotRel (Relation.Comp V W) slot box :=
  ⟨⟨_, h.value, h'.value⟩, h'.createdAt.trans h.createdAt,
    h'.expiresAt.trans h.expiresAt, h'.revision.trans h.revision⟩

theorem related_comp : Related (Relation.Comp V W) plain inner ↔
    ∃ mid, Related V plain mid ∧ Related W mid inner := by
  constructor
  · intro h
    have hslot : ∀ id, ∃ mid, Option.Rel (SlotRel V) (plain id) mid ∧
        Option.Rel (SlotRel W) mid (inner id) := by
      intro id
      have hid := h id
      generalize plain id = a at hid ⊢
      generalize inner id = b at hid ⊢
      cases hid with
      | none => exact ⟨none, .none, .none⟩
      | some hrel =>
          obtain ⟨mid, hfirst, hsecond⟩ := hrel.between
          exact ⟨some mid, .some hfirst, .some hsecond⟩
    choose mid hmid using hslot
    exact ⟨mid, fun id => (hmid id).1, fun id => (hmid id).2⟩
  · rintro ⟨mid, hfirst, hsecond⟩ id
    have hfirst := hfirst id
    have hsecond := hsecond id
    generalize plain id = a at hfirst ⊢
    generalize mid id = b at hfirst hsecond
    generalize inner id = c at hsecond ⊢
    cases hfirst with
    | none =>
        cases hsecond
        exact .none
    | some hrel =>
        cases hsecond with
        | some hrel' => exact .some (hrel.comp hrel')

theorem related_eq : Related Eq plain inner ↔ plain = inner := by
  constructor
  · intro h
    funext id
    have hid := h id
    generalize plain id = a at hid ⊢
    generalize inner id = b at hid ⊢
    cases hid with
    | none => rfl
    | some hrel =>
        rename_i slot box
        obtain ⟨⟨value, createdAt, expiresAt⟩, revision⟩ := slot
        obtain ⟨⟨value', createdAt', expiresAt'⟩, revision'⟩ := box
        obtain ⟨rfl, hcreated, hexpires, hrevision⟩ := hrel
        simp only at hcreated hexpires hrevision
        rw [hcreated, hexpires, hrevision]
  · rintro rfl id
    cases plain id with
    | none => exact .none
    | some slot => exact .some ⟨rfl, rfl, rfl, rfl⟩

theorem Related.live (h : Related V plain inner) (now : DateTime)
    (id : Identity) :
    Option.Rel (SlotRel V) (live now plain id) (live now inner id) := by
  have hid := h id
  unfold Wrapper.live
  generalize plain id = a at hid ⊢
  generalize inner id = b at hid ⊢
  cases hid with
  | none => exact .none
  | some hslot =>
      simp only [Option.filter, hslot.isExpired]
      split
      · exact .some hslot
      · exact .none

theorem Related.update {a b : Option Slot} (h : Related V plain inner)
    (id : Identity) (hrel : Option.Rel (SlotRel V) a b) :
    Related V (Function.update plain id a) (Function.update inner id b) := by
  intro other
  by_cases hother : other = id
  · subst hother
    simpa using hrel
  · simpa [Function.update_of_ne hother] using h other

theorem ofTtl_related {value boxed : Value} {ttl : Option F64}
    (hvalue : V value boxed) :
    (∃ error, ManagedEntry.ofTtl now value ttl = .error error ∧
        ManagedEntry.ofTtl now boxed ttl = .error error) ∨
      ∃ entry entry', ManagedEntry.ofTtl now value ttl = .ok entry ∧
        ManagedEntry.ofTtl now boxed ttl = .ok entry' ∧
        ∀ revision, SlotRel V ⟨entry, revision⟩ ⟨entry', revision⟩ := by
  cases ttl with
  | none => exact .inr ⟨_, _, rfl, rfl, fun _ => ⟨hvalue, rfl, rfl, rfl⟩⟩
  | some seconds =>
      cases hexpires : ManagedEntry.expirationAt now seconds with
      | error error =>
          refine .inl ⟨error, ?_, ?_⟩ <;>
            simp only [ManagedEntry.ofTtl, ManagedEntry.withTtl, hexpires] <;>
            rfl
      | ok expires =>
          refine .inr ⟨⟨value, some now, some expires⟩,
            ⟨boxed, some now, some expires⟩, ?_, ?_,
            fun _ => ⟨hvalue, rfl, rfl, rfl⟩⟩ <;>
            simp only [ManagedEntry.ofTtl, ManagedEntry.withTtl, hexpires] <;>
            rfl

theorem putSlot_related {value boxed : Value} {ttl : Option F64}
    {revision : Revision} (h : Related V plain inner)
    (hvalue : V value boxed) :
    (putSlot now id boxed ttl revision inner).1 =
        (putSlot now id value ttl revision plain).1 ∧
      Related V (putSlot now id value ttl revision plain).2
        (putSlot now id boxed ttl revision inner).2 := by
  rcases @ofTtl_related V now value boxed ttl hvalue with
    ⟨error, hplain, hinner⟩ | ⟨entry, entry', hplain, hinner, hslot⟩
  · simp only [putSlot, hplain, hinner]
    exact ⟨trivial, h⟩
  · simp only [putSlot, hplain, hinner]
    exact ⟨trivial, h.update id (.some (hslot revision))⟩

theorem putSlots_related {revisions : Nat → Revision} {name : String}
    {ttl : Option F64} {keys : List String} {values boxes : List Value}
    {i : Nat} (h : Related V plain inner)
    (hvalues : List.Forall₂ V values boxes) :
    (putSlots now revisions name ttl (keys.zip boxes) i inner).1 =
        (putSlots now revisions name ttl (keys.zip values) i plain).1 ∧
      Related V (putSlots now revisions name ttl (keys.zip values) i plain).2
        (putSlots now revisions name ttl (keys.zip boxes) i inner).2 := by
  induction keys generalizing plain inner values boxes i with
  | nil => exact ⟨rfl, h⟩
  | cons key keys ih =>
      cases hvalues with
      | nil => exact ⟨rfl, h⟩
      | cons hfirst hrest =>
          rename_i value boxed values boxes
          have hput := @putSlot_related V now plain inner (name, key) value
            boxed ttl (revisions i) h hfirst
          simp only [List.zip_cons_cons, putSlots]
          generalize putSlot now (name, key) boxed ttl (revisions i) inner =
            first at hput ⊢
          generalize putSlot now (name, key) value ttl (revisions i) plain =
            second at hput ⊢
          obtain ⟨result, inner'⟩ := first
          obtain ⟨result', plain'⟩ := second
          obtain ⟨rfl, hrelated⟩ := hput
          cases result with
          | error error => exact ⟨rfl, hrelated⟩
          | ok _ => exact ih hrelated hrest

theorem deleteSlots_related (now : DateTime) (name : String)
    (keys : List String) (h : Related V plain inner) :
    (deleteSlots now name keys inner).1 =
        (deleteSlots now name keys plain).1 ∧
      Related V (deleteSlots now name keys plain).2
        (deleteSlots now name keys inner).2 := by
  induction keys generalizing plain inner with
  | nil => exact ⟨rfl, h⟩
  | cons key keys ih =>
      have hfound : (Wrapper.live now inner (name, key)).isSome =
          (Wrapper.live now plain (name, key)).isSome := by
        have hlive := h.live now (name, key)
        revert hlive
        generalize Wrapper.live now plain (name, key) = a
        generalize Wrapper.live now inner (name, key) = b
        rintro (_ | _) <;> rfl
      obtain ⟨hcount, hrelated⟩ := ih (h.update (name, key) .none)
      simp only [deleteSlots]
      exact ⟨by rw [hcount, hfound], hrelated⟩

end Related

/-! ## What shows through a stack -/

section Serving

variable (now : DateTime) (revisions : Nat → Revision)
  (defaultCollection : String)

/-- The result of the plain store, but for the value in the snapshot of a
`compare_and_delete`, which is as it is stored. -/
def Shows (V : Value → Value → Prop) : (call : StoreCall) →
    Except Error call.Result → Except Error call.Result → Prop
  | .one (.compareAndDelete ..), .ok (.conflict (some current)), shown =>
      ∃ box, shown = .ok (.conflict (some { current with value := box })) ∧
        V current.value box
  | .one (.compareAndDelete ..), plain, shown => shown = plain
  | _, plain, shown => shown = plain

/-- The handler shows the result of the plain store, and leaves related
entries. -/
def ServesCall (V : Value → Value → Prop) (handler : Handler)
    (call : StoreCall) (plain inner : Entries) : Prop :=
  Shows V call (call.apply now revisions defaultCollection plain).1
      (Program.eval (handler call) inner).1 ∧
    Related V (call.apply now revisions defaultCollection plain).2
      (Program.eval (handler call) inner).2

def Serves (V : Value → Value → Prop) (handler : Handler) : Prop :=
  ∀ (call : StoreCall) (plain inner : Entries), Related V plain inner →
    call.Valid → ServesCall now revisions defaultCollection V handler call
      plain inner

variable {now revisions defaultCollection}

theorem shows_eq_refl (call : StoreCall) (result : Except Error call.Result) :
    Shows Eq call result result := by
  unfold Shows
  split
  · exact ⟨_, rfl, rfl⟩
  · rfl
  · rfl

theorem serves_stored :
    Serves now revisions defaultCollection Eq
      (stored now revisions defaultCollection) := by
  intro call plain inner hrelated _
  obtain rfl := related_eq.mp hrelated
  exact ⟨shows_eq_refl call _, related_eq.mpr rfl⟩

theorem Shows.eq {V : Value → Value → Prop} {call : StoreCall}
    {plain shown : Except Error call.Result} (h : Shows V call plain shown)
    (hopens : ∀ key expected c,
      call ≠ .one (.compareAndDelete key expected c)) : shown = plain := by
  unfold Shows at h
  split at h
  · exact (hopens _ _ _ rfl).elim
  · exact h
  · exact h

section Opening

variable {layer : ValueLayer} {R V : Value → Value → Prop}
  {a b : Option Slot}

def ValueLayer.Opens (layer : ValueLayer) (value box : Value) : Prop :=
  layer.openValue (some box) = .ok (some value)

/-- A valid value is sealed as a related one, and what is related opens. -/
structure ValueLayer.SealsAs (layer : ValueLayer)
    (R : Value → Value → Prop) : Prop where
  opens_none : layer.openValue none = .ok none
  opens : ∀ value box, R value box → layer.Opens value box
  seals : ∀ value, ValidPayload value → ∃ box,
    layer.sealValue value = .ok box ∧ ValidPayload box ∧ R value box

theorem ValueLayer.Faithful.sealsAs (h : layer.Faithful) :
    layer.SealsAs layer.Opens :=
  ⟨h.opens_none, fun _ _ hopens => hopens, h.seals⟩

theorem openValue_live (hlayer : layer.SealsAs R)
    (h : Option.Rel (SlotRel R) a b) :
    layer.openValue (b.map fun slot => slot.entry.value) =
      .ok (a.map fun slot => slot.entry.value) := by
  cases h with
  | none => exact hlayer.opens_none
  | some hslot => exact hlayer.opens _ _ hslot.value

theorem openTtl_live (hlayer : layer.SealsAs R) (now : DateTime)
    (h : Option.Rel (SlotRel R) a b) :
    layer.openTtl (b.map fun slot => (slot.entry.value, slot.entry.ttl now)) =
      .ok (a.map fun slot => (slot.entry.value, slot.entry.ttl now)) := by
  cases h with
  | none => rfl
  | some hslot =>
      have hvalue := hlayer.opens _ _ hslot.value
      unfold ValueLayer.Opens at hvalue
      simp only [Option.map_some, ValueLayer.openTtl, hvalue, hslot.ttl]
      rfl

theorem openRevisioned_live (hlayer : layer.SealsAs R) (now : DateTime)
    (h : Option.Rel (SlotRel R) a b) :
    EncryptionWrapper.transposed layer.openRevisioned
        (b.map (Slot.revisioned now)) =
      .ok (a.map (Slot.revisioned now)) := by
  cases h with
  | none => rfl
  | some hslot =>
      have hvalue := hlayer.opens _ _ hslot.value
      unfold ValueLayer.Opens at hvalue
      simp only [Option.map_some, EncryptionWrapper.transposed,
        ValueLayer.openRevisioned, Slot.revisioned, hslot.ttl, hslot.revision,
        hvalue]
      rfl

theorem matchesRevision_related (expected : Option Revision)
    (h : Option.Rel (SlotRel V) a b) :
    matchesRevision expected b = matchesRevision expected a := by
  cases h with
  | none => rfl
  | some hslot => simp only [matchesRevision, Option.map_some, hslot.revision]

theorem isSome_related (h : Option.Rel (SlotRel V) a b) :
    b.isSome = a.isSome := by
  cases h <;> rfl

theorem mapM_map_ok {α β γ : Type} {f : β → Except Error γ} {g : α → β}
    {k : α → γ} (h : ∀ a, f (g a) = .ok (k a)) (as : List α) :
    (as.map g).mapM f = .ok (as.map k) := by
  induction as with
  | nil => rfl
  | cons a as ih =>
      rw [List.map_cons, List.mapM_cons, h, ih]
      rfl

theorem mapM_sealValue (hlayer : layer.SealsAs R) {values : List Value}
    (hvalid : ∀ value ∈ values, ValidPayload value) :
    ∃ boxes, values.mapM layer.sealValue = .ok boxes ∧
      List.Forall₂ R values boxes ∧ ∀ box ∈ boxes, ValidPayload box := by
  induction values with
  | nil => exact ⟨[], rfl, .nil, by simp⟩
  | cons value values ih =>
      obtain ⟨box, hbox, hboxed, hopens⟩ :=
        hlayer.seals value (hvalid value (List.mem_cons_self ..))
      obtain ⟨boxes, hboxes, hall, hvalids⟩ := ih fun other hother =>
        hvalid other (List.mem_cons_of_mem _ hother)
      refine ⟨box :: boxes, ?_, .cons hopens hall, ?_⟩
      · rw [List.mapM_cons, hbox, hboxes]
        rfl
      · exact List.forall_mem_cons.mpr ⟨hboxed, hvalids⟩

/-- A store shows of a conflict what the plain store does exactly when there
is none, or the value is stored as it is. -/
theorem compareAndDelete_same_iff {plain inner : Entries}
    (hrelated : Related V plain inner) (key : String) (expected : Revision)
    (c : Option String) :
    ((StoreCall.one (.compareAndDelete key expected c)).apply now revisions
        defaultCollection inner).1 =
      ((StoreCall.one (.compareAndDelete key expected c)).apply now revisions
        defaultCollection plain).1 ↔
      ∀ slot box,
        live now plain (c.getD defaultCollection, key) = some slot →
        live now inner (c.getD defaultCollection, key) = some box →
          slot.revision = expected ∨ box.entry.value = slot.entry.value := by
  have hid := hrelated.live now (c.getD defaultCollection, key)
  have hmatch := matchesRevision_related (some expected) hid
  simp only [StoreCall.apply, StoreOp.apply, hmatch]
  by_cases hsame : matchesRevision (some expected) (live now plain
      (c.getD defaultCollection, key)) = true
  · simp only [if_pos hsame]
    refine ⟨fun _ slot box hslot _ => .inl ?_, fun _ => trivial⟩
    simp only [matchesRevision, hslot, Option.map_some, beq_iff_eq,
      Option.some.injEq] at hsame
    exact hsame.symm
  · simp only [if_neg hsame]
    generalize live now plain (c.getD defaultCollection, key) = a at *
    generalize live now inner (c.getD defaultCollection, key) = b at *
    cases hid with
    | none => simp
    | some hslot =>
        rename_i slot box
        have hne : ¬ slot.revision = expected := by
          rintro rfl
          simp [matchesRevision] at hsame
        simp [Slot.revisioned, hslot.ttl, hslot.revision, hne]

end Opening

section Layer

variable {layer : ValueLayer} {inner : Handler} {R V : Value → Value → Prop}
  {plain mid real : Entries}

theorem Serves.eval (h : Serves now revisions defaultCollection V inner)
    (call : StoreCall) (hrelated : Related V mid real)
    (hvalid : call.Valid)
    (hopens : ∀ key expected c,
      call ≠ .one (.compareAndDelete key expected c)) :
    ∃ real', Program.eval (inner call) real =
        ((call.apply now revisions defaultCollection mid).1, real') ∧
      Related V (call.apply now revisions defaultCollection mid).2 real' := by
  obtain ⟨hshows, hafter⟩ := h call mid real hrelated hvalid
  refine ⟨_, Prod.ext ?_ rfl, hafter⟩
  exact hshows.eq hopens

theorem Related.comp (h : Related R plain mid) (h' : Related V mid real) :
    Related (Relation.Comp R V) plain real :=
  related_comp.mpr ⟨mid, h, h'⟩

/-! ## The calls of one layer -/

theorem serves_get (hlayer : layer.SealsAs R)
    (h : Serves now revisions defaultCollection V inner)
    (hfirst : Related R plain mid) (hsecond : Related V mid real)
    (key : String) (c : Option String) :
    ServesCall now revisions defaultCollection (Relation.Comp R V)
      (layer.call inner) (.one (.get key c)) plain real := by
  obtain ⟨real', heval, hafter⟩ := h.eval (.one (.get key c)) hsecond trivial
    (by simp)
  have hopen := openValue_live hlayer
    (hfirst.live now (c.getD defaultCollection, key))
  simp only [ServesCall, ValueLayer.call, ValueLayer.get, StoreCall.apply,
    StoreOp.apply, Program.eval_bind, heval, Program.resume_ok,
    eval_returning, hopen]
  exact ⟨rfl, hfirst.comp hafter⟩

theorem serves_ttl (hlayer : layer.SealsAs R)
    (h : Serves now revisions defaultCollection V inner)
    (hfirst : Related R plain mid) (hsecond : Related V mid real)
    (key : String) (c : Option String) :
    ServesCall now revisions defaultCollection (Relation.Comp R V)
      (layer.call inner) (.one (.ttl key c)) plain real := by
  obtain ⟨real', heval, hafter⟩ := h.eval (.one (.ttl key c)) hsecond trivial
    (by simp)
  have hopen := openTtl_live hlayer now
    (hfirst.live now (c.getD defaultCollection, key))
  simp only [ServesCall, ValueLayer.call, ValueLayer.ttl, StoreCall.apply,
    StoreOp.apply, Program.eval_bind, heval, Program.resume_ok,
    eval_returning, hopen]
  exact ⟨rfl, hfirst.comp hafter⟩

theorem serves_getWithRevision (hlayer : layer.SealsAs R)
    (h : Serves now revisions defaultCollection V inner)
    (hfirst : Related R plain mid) (hsecond : Related V mid real)
    (key : String) (c : Option String) :
    ServesCall now revisions defaultCollection (Relation.Comp R V)
      (layer.call inner) (.one (.getWithRevision key c)) plain real := by
  obtain ⟨real', heval, hafter⟩ := h.eval (.one (.getWithRevision key c))
    hsecond trivial (by simp)
  have hopen := openRevisioned_live hlayer now
    (hfirst.live now (c.getD defaultCollection, key))
  simp only [ServesCall, ValueLayer.call, ValueLayer.getWithRevision,
    StoreCall.apply, StoreOp.apply, Program.eval_bind, heval,
    Program.resume_ok, eval_returning, hopen]
  exact ⟨rfl, hfirst.comp hafter⟩

theorem serves_getMany (hlayer : layer.SealsAs R)
    (h : Serves now revisions defaultCollection V inner)
    (hfirst : Related R plain mid) (hsecond : Related V mid real)
    (keys : List String) (c : Option String) :
    ServesCall now revisions defaultCollection (Relation.Comp R V)
      (layer.call inner) (.getMany keys c) plain real := by
  obtain ⟨real', heval, hafter⟩ := h.eval (.getMany keys c) hsecond trivial
    (by simp)
  have hopen := mapM_map_ok (f := layer.openValue) (fun key =>
    openValue_live hlayer (hfirst.live now (c.getD defaultCollection, key)))
    keys
  simp only [ServesCall, ValueLayer.call, ValueLayer.getMany, StoreCall.apply,
    Program.eval_bind, heval, Program.resume_ok, eval_returning, hopen]
  exact ⟨rfl, hfirst.comp hafter⟩

theorem serves_ttlMany (hlayer : layer.SealsAs R)
    (h : Serves now revisions defaultCollection V inner)
    (hfirst : Related R plain mid) (hsecond : Related V mid real)
    (keys : List String) (c : Option String) :
    ServesCall now revisions defaultCollection (Relation.Comp R V)
      (layer.call inner) (.ttlMany keys c) plain real := by
  obtain ⟨real', heval, hafter⟩ := h.eval (.ttlMany keys c) hsecond trivial
    (by simp)
  have hopen := mapM_map_ok (f := layer.openTtl) (fun key =>
    openTtl_live hlayer now (hfirst.live now (c.getD defaultCollection, key)))
    keys
  simp only [ServesCall, ValueLayer.call, ValueLayer.ttlMany, StoreCall.apply,
    Program.eval_bind, heval, Program.resume_ok, eval_returning, hopen]
  exact ⟨rfl, hfirst.comp hafter⟩

theorem serves_put (hlayer : layer.SealsAs R)
    (h : Serves now revisions defaultCollection V inner)
    (hfirst : Related R plain mid) (hsecond : Related V mid real)
    (key : String) {value : Value} (hvalid : ValidPayload value)
    (c : Option String) (seconds : Option F64) :
    ServesCall now revisions defaultCollection (Relation.Comp R V)
      (layer.call inner) (.one (.put key value c seconds)) plain real := by
  obtain ⟨box, hbox, hboxed, hopens⟩ := hlayer.seals value hvalid
  obtain ⟨real', heval, hafter⟩ := h.eval (.one (.put key box c seconds))
    hsecond hboxed (by simp)
  obtain ⟨hresult, hput⟩ := @putSlot_related R now plain mid
    (c.getD defaultCollection, key) value box seconds (revisions 0) hfirst
    hopens
  simp only [ServesCall, ValueLayer.call, ValueLayer.put, Program.eval_bind,
    eval_returning, hbox, Program.resume_ok, heval]
  exact ⟨hresult, hput.comp hafter⟩

theorem serves_putMany (hlayer : layer.SealsAs R)
    (h : Serves now revisions defaultCollection V inner)
    (hfirst : Related R plain mid) (hsecond : Related V mid real)
    (keys : List String) {values : List Value}
    (hvalid : ∀ value ∈ values, ValidPayload value) (c : Option String)
    (seconds : Option F64) :
    ServesCall now revisions defaultCollection (Relation.Comp R V)
      (layer.call inner) (.one (.putMany keys values c seconds)) plain
      real := by
  obtain ⟨boxes, hboxes, hall, hboxed⟩ := mapM_sealValue hlayer hvalid
  obtain ⟨real', heval, hafter⟩ := h.eval (.one (.putMany keys boxes c seconds))
    hsecond hboxed (by simp)
  have hlength : boxes.length = values.length := hall.length_eq.symm
  by_cases hsize : keys.length ≠ values.length
  · simp only [StoreCall.apply, StoreOp.apply, hlength,
      if_pos hsize] at heval hafter
    simp only [ServesCall, ValueLayer.call, ValueLayer.putMany,
      StoreCall.apply, StoreOp.apply, if_pos hsize]
    split
    · simp only [eval_returning]
      exact ⟨rfl, hfirst.comp hsecond⟩
    · simp only [Program.eval_bind, eval_returning, hboxes,
        Program.resume_ok, heval]
      exact ⟨rfl, hfirst.comp hafter⟩
  · obtain ⟨hresult, hput⟩ := @putSlots_related R now plain mid revisions
      (c.getD defaultCollection) seconds keys values boxes 0 hfirst hall
    simp only [StoreCall.apply, StoreOp.apply, hlength,
      if_neg hsize] at heval hafter
    have hcheck : ¬ (layer.checksLengths = true ∧
        keys.length ≠ values.length) := fun hboth => hsize hboth.2
    simp only [ServesCall, ValueLayer.call, ValueLayer.putMany,
      StoreCall.apply, StoreOp.apply, if_neg hsize, if_neg hcheck,
      Program.eval_bind, eval_returning, hboxes, Program.resume_ok, heval]
    exact ⟨hresult, hput.comp hafter⟩

theorem serves_delete (h : Serves now revisions defaultCollection V inner)
    (hfirst : Related R plain mid) (hsecond : Related V mid real)
    (key : String) (c : Option String) :
    ServesCall now revisions defaultCollection (Relation.Comp R V)
      (layer.call inner) (.one (.delete key c)) plain real := by
  obtain ⟨real', heval, hafter⟩ := h.eval (.one (.delete key c)) hsecond
    trivial (by simp)
  have hfound := isSome_related
    (hfirst.live now (c.getD defaultCollection, key))
  simp only [ServesCall, ValueLayer.call, ValueLayer.delete, StoreCall.apply,
    StoreOp.apply, heval, hfound]
  exact ⟨rfl, (hfirst.update _ .none).comp hafter⟩

theorem serves_deleteMany (h : Serves now revisions defaultCollection V inner)
    (hfirst : Related R plain mid) (hsecond : Related V mid real)
    (keys : List String) (c : Option String) :
    ServesCall now revisions defaultCollection (Relation.Comp R V)
      (layer.call inner) (.one (.deleteMany keys c)) plain real := by
  obtain ⟨real', heval, hafter⟩ := h.eval (.one (.deleteMany keys c)) hsecond
    trivial (by simp)
  obtain ⟨hcount, hdeleted⟩ := deleteSlots_related now
    (c.getD defaultCollection) keys hfirst
  simp only [ServesCall, ValueLayer.call, ValueLayer.deleteMany,
    StoreCall.apply, StoreOp.apply, heval, hcount]
  exact ⟨rfl, hdeleted.comp hafter⟩

theorem serves_compareAndSwap (hlayer : layer.SealsAs R)
    (h : Serves now revisions defaultCollection V inner)
    (hfirst : Related R plain mid) (hsecond : Related V mid real)
    (key : String) (expected : Option Revision) {value : Value}
    (hvalid : ValidPayload value) (c : Option String) (seconds : Option F64) :
    ServesCall now revisions defaultCollection (Relation.Comp R V)
      (layer.call inner) (.one (.compareAndSwap key expected value c seconds))
      plain real := by
  obtain ⟨box, hbox, hboxed, hopens⟩ := hlayer.seals value hvalid
  obtain ⟨real', heval, hafter⟩ := h.eval
    (.one (.compareAndSwap key expected box c seconds)) hsecond hboxed
    (by simp)
  have hid := hfirst.live now (c.getD defaultCollection, key)
  have hmatch := matchesRevision_related expected hid
  have hopen := openRevisioned_live hlayer now hid
  simp only [StoreCall.apply, StoreOp.apply, hmatch] at heval hafter
  simp only [ServesCall, ValueLayer.call, ValueLayer.compareAndSwap,
    StoreCall.apply, StoreOp.apply, Program.eval_bind, eval_returning, hbox,
    Program.resume_ok, heval]
  rcases @ofTtl_related R now value box seconds hopens with
    ⟨error, hplain, hinner⟩ | ⟨entry, entry', hplain, hinner, hslot⟩
  · simp only [hplain, hinner, Program.resume_error] at hafter ⊢
    exact ⟨rfl, hfirst.comp hafter⟩
  · simp only [hplain, hinner] at hafter ⊢
    by_cases hsame : matchesRevision expected (live now plain
        (c.getD defaultCollection, key)) = true
    · simp only [if_pos hsame] at hafter ⊢
      exact ⟨rfl, (hfirst.update _ (.some (hslot _))).comp hafter⟩
    · simp only [if_neg hsame, Program.resume_ok, Program.eval_bind,
        eval_returning, hopen, Program.eval_pure] at hafter ⊢
      exact ⟨rfl, hfirst.comp hafter⟩

theorem serves_compareAndDelete
    (h : Serves now revisions defaultCollection V inner)
    (hfirst : Related R plain mid) (hsecond : Related V mid real)
    (key : String) (expected : Revision) (c : Option String) :
    ServesCall now revisions defaultCollection (Relation.Comp R V)
      (layer.call inner) (.one (.compareAndDelete key expected c)) plain
      real := by
  obtain ⟨hshows, hafter⟩ := h (.one (.compareAndDelete key expected c)) mid
    real hsecond trivial
  have hid := hfirst.live now (c.getD defaultCollection, key)
  have hmatch := matchesRevision_related (some expected) hid
  simp only [ServesCall, ValueLayer.call, ValueLayer.compareAndDelete]
  generalize Program.eval (inner (.one (.compareAndDelete key expected c)))
    real = outcome at hshows hafter
  simp only [StoreCall.apply, StoreOp.apply, hmatch] at hshows hafter ⊢
  by_cases hsame : matchesRevision (some expected) (live now plain
      (c.getD defaultCollection, key)) = true
  · simp only [if_pos hsame] at hshows hafter ⊢
    exact ⟨hshows, (hfirst.update _ .none).comp hafter⟩
  · simp only [if_neg hsame] at hshows hafter ⊢
    refine ⟨?_, hfirst.comp hafter⟩
    generalize live now plain (c.getD defaultCollection, key) = a at *
    generalize live now mid (c.getD defaultCollection, key) = b at *
    cases hid with
    | none => exact hshows
    | some hslot =>
        obtain ⟨box, hshown, hbox⟩ := hshows
        refine ⟨box, ?_, _, hslot.value, hbox⟩
        rw [hshown]
        simp only [Slot.revisioned, hslot.ttl, hslot.revision]

theorem ValueLayer.SealsAs.serves (hlayer : layer.SealsAs R)
    (h : Serves now revisions defaultCollection V inner) :
    Serves now revisions defaultCollection (Relation.Comp R V)
      (layer.call inner) := by
  intro call plain real hrelated hvalid
  obtain ⟨mid, hfirst, hsecond⟩ := related_comp.mp hrelated
  cases call with
  | getMany keys c => exact serves_getMany hlayer h hfirst hsecond keys c
  | ttlMany keys c => exact serves_ttlMany hlayer h hfirst hsecond keys c
  | one op =>
      cases op with
      | get key c => exact serves_get hlayer h hfirst hsecond key c
      | ttl key c => exact serves_ttl hlayer h hfirst hsecond key c
      | getWithRevision key c =>
          exact serves_getWithRevision hlayer h hfirst hsecond key c
      | put key value c seconds =>
          exact serves_put hlayer h hfirst hsecond key hvalid c seconds
      | putMany keys values c seconds =>
          exact serves_putMany hlayer h hfirst hsecond keys hvalid c seconds
      | delete key c => exact serves_delete h hfirst hsecond key c
      | deleteMany keys c => exact serves_deleteMany h hfirst hsecond keys c
      | compareAndSwap key expected value c seconds =>
          exact serves_compareAndSwap hlayer h hfirst hsecond key expected
            hvalid c seconds
      | compareAndDelete key expected c =>
          exact serves_compareAndDelete h hfirst hsecond key expected c

end Layer

/-! ## Stacks -/

def OpensBy : List Opening → Value → Value → Prop
  | [] => Eq
  | openValue :: openings => Relation.Comp
      (fun value box => openValue (some box) = .ok (some value))
      (OpensBy openings)

theorem serves_stackCall {layers : List ValueLayer} {openings : List Opening}
    (hopenings : layers.map ValueLayer.openValue = openings)
    (hlayers : ∀ layer ∈ layers, layer.Faithful) :
    Serves now revisions defaultCollection (OpensBy openings)
      (stackCall layers (stored now revisions defaultCollection)) := by
  subst hopenings
  induction layers with
  | nil => exact serves_stored
  | cons layer layers ih =>
      exact (hlayers layer (List.mem_cons_self ..)).sealsAs.serves
        (ih fun other hother => hlayers other (List.mem_cons_of_mem _ hother))

end Serving

end OpenKeyV.Wrapper
