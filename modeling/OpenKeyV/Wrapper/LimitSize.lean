import OpenKeyV.Entry.Codec
import OpenKeyV.Wrapper.Compression

/-!
# Limits on the size of stored entries

`LimitSizeWrapper` measures the encoded entry before it writes.  What is stored
through a stack stays within the limits of the wrapper in it.
-/

namespace OpenKeyV.Wrapper

open Library

def Entries.All (P : ManagedEntry → Prop) (entries : Entries) : Prop :=
  ∀ id slot, entries id = some slot → P slot.entry

def StoreCall.Writes (now : DateTime) (P : ManagedEntry → Prop) :
    StoreCall → Prop
  | .one (.put _ value _ seconds)
  | .one (.compareAndSwap _ _ value _ seconds) =>
      ∀ entry, ManagedEntry.ofTtl now value seconds = .ok entry → P entry
  | .one (.putMany _ values _ seconds) => ∀ value ∈ values, ∀ entry,
      ManagedEntry.ofTtl now value seconds = .ok entry → P entry
  | _ => True

section Writes

variable {P : ManagedEntry → Prop} {now : DateTime} {entries : Entries}

theorem Entries.All.update (h : entries.All P) (id : Identity)
    {slot : Option Slot} (hslot : ∀ s, slot = some s → P s.entry) :
    Entries.All P (Function.update entries id slot) := by
  intro other s hs
  by_cases hother : other = id
  · subst hother
    rw [Function.update_self] at hs
    exact hslot s hs
  · rw [Function.update_of_ne hother] at hs
    exact h other s hs

theorem putSlot_all {id : Identity} {value : Value} {seconds : Option F64}
    {revision : Revision} (h : entries.All P)
    (hwrites : ∀ entry, ManagedEntry.ofTtl now value seconds = .ok entry →
      P entry) :
    Entries.All P (putSlot now id value seconds revision entries).2 := by
  unfold putSlot
  split
  · rename_i entry hentry
    refine h.update id fun s hs => ?_
    cases hs
    exact hwrites entry hentry
  · exact h

theorem putSlots_all {revisions : Nat → Revision} {name : String}
    {seconds : Option F64} {items : List (String × Value)} {i : Nat}
    (h : entries.All P)
    (hwrites : ∀ item ∈ items, ∀ entry,
      ManagedEntry.ofTtl now item.2 seconds = .ok entry → P entry) :
    Entries.All P (putSlots now revisions name seconds items i entries).2 := by
  induction items generalizing entries i with
  | nil => exact h
  | cons item items ih =>
      have hput := @putSlot_all P now entries (name, item.1) item.2 seconds
        (revisions i) h (hwrites item (List.mem_cons_self ..))
      simp only [putSlots]
      split
      · rename_i entries' heq
        rw [heq] at hput
        exact ih hput fun other hother =>
          hwrites other (List.mem_cons_of_mem _ hother)
      · rename_i entries' heq
        rw [heq] at hput
        exact hput

theorem deleteSlots_all {name : String} {keys : List String}
    (h : entries.All P) :
    Entries.All P (deleteSlots now name keys entries).2 := by
  induction keys generalizing entries with
  | nil => exact h
  | cons key keys ih =>
      exact ih (h.update (name, key) fun s hs => by cases hs)

theorem apply_all {call : StoreCall} (revisions : Nat → Revision)
    (defaultCollection : String) (h : entries.All P)
    (hwrites : call.Writes now P) :
    Entries.All P (call.apply now revisions defaultCollection entries).2 := by
  cases call with
  | getMany | ttlMany => exact h
  | one op =>
      cases op with
      | get | ttl | getWithRevision => exact h
      | put => exact putSlot_all h hwrites
      | putMany keys values c seconds =>
          simp only [StoreCall.apply, StoreOp.apply]
          split
          · exact h
          · exact putSlots_all h fun item hitem =>
              hwrites item.2 (List.of_mem_zip hitem).2
      | delete => exact h.update _ fun s hs => by cases hs
      | deleteMany => exact deleteSlots_all h
      | compareAndSwap key expected value c seconds =>
          simp only [StoreCall.apply, StoreOp.apply]
          split
          · exact h
          · rename_i entry hentry
            split
            · refine h.update _ fun s hs => ?_
              cases hs
              exact hwrites entry hentry
            · exact h
      | compareAndDelete =>
          simp only [StoreCall.apply, StoreOp.apply]
          split
          · exact h.update _ fun s hs => by cases hs
          · exact h

end Writes

structure LimitSizeWrapper where
  minSize : Option Nat
  maxSize : Option Nat

namespace LimitSizeWrapper

def new : LimitSizeWrapper := ⟨none, none⟩

def withMin (minSize : Nat) : LimitSizeWrapper := ⟨some minSize, none⟩

def withMax (maxSize : Nat) : LimitSizeWrapper := ⟨none, some maxSize⟩

def withRange (minSize maxSize : Nat) : LimitSizeWrapper :=
  ⟨some minSize, some maxSize⟩

variable (w : LimitSizeWrapper)

def checkSize (now : DateTime) (value : Value) (seconds : Option F64) :
    Except Error Unit := do
  let entry ← ManagedEntry.ofTtl now value seconds
  let size := entry.encode.length
  if w.minSize.any fun min => size < min then .error .entryTooSmall
  else if w.maxSize.any fun max => max < size then .error .entryTooLarge
  else .ok ()

def checkAll (clock : Nat → DateTime) (seconds : Option F64) :
    List Value → Except Error Unit
  | [] => .ok ()
  | value :: values => do
      w.checkSize (clock values.length) value seconds
      checkAll clock seconds values

def call (clock : Nat → DateTime) (inner : Handler) : Handler
  | .one (.put key value c seconds) => do
      returning (w.checkSize (clock 0) value seconds)
      inner (.one (.put key value c seconds))
  | .one (.putMany keys values c seconds) =>
      if keys.length ≠ values.length then
        returning (.error (.batchSizeMismatch keys.length values.length))
      else do
        returning (w.checkAll clock seconds values)
        inner (.one (.putMany keys values c seconds))
  | .one (.compareAndSwap key expected value c seconds) => do
      returning (w.checkSize (clock 0) value seconds)
      inner (.one (.compareAndSwap key expected value c seconds))
  | call => inner call

def Admits (entry : ManagedEntry) : Prop :=
  (∀ min, w.minSize = some min → min ≤ entry.encode.length) ∧
    ∀ max, w.maxSize = some max → entry.encode.length ≤ max

variable {w} {value : Value} {seconds : Option F64}

theorem length_encode_ofTtl {now now' : DateTime} {entry entry' : ManagedEntry}
    (h : ManagedEntry.ofTtl now value seconds = .ok entry)
    (h' : ManagedEntry.ofTtl now' value seconds = .ok entry') :
    entry.encode.length = entry'.encode.length := by
  have hshape : ∀ (now : DateTime) (entry : ManagedEntry),
      ManagedEntry.ofTtl now value seconds = .ok entry →
        entry.encode.length = 15 + 8 +
          (if seconds.isSome then 8 else 0) + value.bytes.length := by
    intro now entry h
    cases seconds with
    | none =>
        cases h
        simp [ManagedEntry.encode, ManagedEntry.encodeOptional,
          ManagedEntry.encodeDateTime, ManagedEntry.length_fixedHeader,
          ManagedEntry.new]
        omega
    | some seconds =>
        simp only [ManagedEntry.ofTtl, ManagedEntry.withTtl] at h
        obtain ⟨expires, -, hentry⟩ := bind_eq_ok.mp h
        cases hentry
        simp [ManagedEntry.encode, ManagedEntry.encodeOptional,
          ManagedEntry.encodeDateTime, ManagedEntry.length_fixedHeader]
        omega
  rw [hshape now entry h, hshape now' entry' h']

theorem admits_of_checkSize {now now' : DateTime} {entry : ManagedEntry}
    (hcheck : w.checkSize now value seconds = .ok ())
    (h : ManagedEntry.ofTtl now' value seconds = .ok entry) :
    w.Admits entry := by
  unfold checkSize at hcheck
  obtain ⟨checked, hchecked, hcheck⟩ := bind_eq_ok.mp hcheck
  have hsize := length_encode_ofTtl h hchecked
  simp only at hcheck
  split at hcheck
  · cases hcheck
  · rename_i hmin
    split at hcheck
    · cases hcheck
    · rename_i hmax
      constructor
      · intro min heq
        simp only [heq, Option.any_some, decide_eq_true_eq] at hmin
        omega
      · intro max heq
        simp only [heq, Option.any_some, decide_eq_true_eq] at hmax
        omega

theorem checkSize_of_checkAll {clock : Nat → DateTime} {values : List Value}
    (hcheck : w.checkAll clock seconds values = .ok ()) :
    ∀ value ∈ values, ∃ now, w.checkSize now value seconds = .ok () := by
  induction values with
  | nil => simp
  | cons value values ih =>
      obtain ⟨_, hfirst, hrest⟩ := bind_eq_ok.mp hcheck
      intro other hother
      rcases List.mem_cons.mp hother with rfl | hother
      · exact ⟨_, hfirst⟩
      · exact ih hrest other hother

theorem call_cases (clock : Nat → DateTime) (inner : Handler)
    (call : StoreCall) (entries : Entries) :
    (∃ error, Program.eval (w.call clock inner call) entries =
        (.error error, entries)) ∨
      (Program.eval (w.call clock inner call) entries =
          Program.eval (inner call) entries ∧
        ∀ now, call.Writes now w.Admits) := by
  cases call with
  | getMany | ttlMany => exact .inr ⟨rfl, fun _ => trivial⟩
  | one op =>
      cases op with
      | put key value c seconds =>
          simp only [LimitSizeWrapper.call, Program.eval_bind, eval_returning]
          cases hcheck : w.checkSize (clock 0) value seconds with
          | error error => exact .inl ⟨error, rfl⟩
          | ok _ => exact .inr ⟨rfl, fun now entry hentry =>
              admits_of_checkSize hcheck hentry⟩
      | putMany keys values c seconds =>
          simp only [LimitSizeWrapper.call]
          split
          · exact .inl ⟨_, rfl⟩
          · simp only [Program.eval_bind, eval_returning]
            cases hcheck : w.checkAll clock seconds values with
            | error error => exact .inl ⟨error, rfl⟩
            | ok _ =>
                refine .inr ⟨rfl, fun now value hvalue entry hentry => ?_⟩
                obtain ⟨checked, hchecked⟩ :=
                  checkSize_of_checkAll hcheck value hvalue
                exact admits_of_checkSize hchecked hentry
      | compareAndSwap key expected value c seconds =>
          simp only [LimitSizeWrapper.call, Program.eval_bind, eval_returning]
          cases hcheck : w.checkSize (clock 0) value seconds with
          | error error => exact .inl ⟨error, rfl⟩
          | ok _ => exact .inr ⟨rfl, fun now entry hentry =>
              admits_of_checkSize hcheck hentry⟩
      | get | ttl | delete | deleteMany | getWithRevision
      | compareAndDelete => exact .inr ⟨rfl, fun _ => trivial⟩

end LimitSizeWrapper

def KeepsOn (P : Entries → Prop) (handler : Handler) : Prop :=
  ∀ (call : StoreCall) (entries : Entries), call.Valid → P entries →
    P (Program.eval (handler call) entries).2

theorem eval_bind_snd {α β : Type} (program : StoreProgram α)
    {f : α → StoreProgram β}
    (hf : ∀ a entries, (Program.eval (f a) entries).2 = entries)
    (entries : Entries) :
    (Program.eval (program >>= f) entries).2 =
      (Program.eval program entries).2 := by
  rw [Program.eval_bind]
  rcases Program.eval program entries with ⟨_ | a, entries'⟩
  · rfl
  · exact hf a entries'

section Keeps

variable {layer : ValueLayer} {inner : Handler} {P : Entries → Prop}

theorem snd_returning {α β : Type} (f : α → Except Error β) (a : α)
    (entries : Entries) :
    (Program.eval (returning (f a)) entries).2 = entries := rfl

theorem ValueLayer.Faithful.keepsOn (hlayer : layer.Faithful)
    (h : KeepsOn P inner) : KeepsOn P (layer.call inner) := by
  intro call entries hvalid hentries
  cases call with
  | getMany keys c =>
      have hkept := h (.getMany keys c) entries trivial hentries
      rwa [← eval_bind_snd _ (snd_returning _)] at hkept
  | ttlMany keys c =>
      have hkept := h (.ttlMany keys c) entries trivial hentries
      rwa [← eval_bind_snd _ (snd_returning _)] at hkept
  | one op =>
      cases op with
      | get key c =>
          have hkept := h (.one (.get key c)) entries trivial hentries
          rwa [← eval_bind_snd _ (snd_returning _)] at hkept
      | ttl key c =>
          have hkept := h (.one (.ttl key c)) entries trivial hentries
          rwa [← eval_bind_snd _ (snd_returning _)] at hkept
      | getWithRevision key c =>
          have hkept := h (.one (.getWithRevision key c)) entries trivial
            hentries
          rwa [← eval_bind_snd _ (snd_returning _)] at hkept
      | put key value c seconds =>
          obtain ⟨box, hbox, hboxed, -⟩ := hlayer.seals value hvalid
          simp only [ValueLayer.call, ValueLayer.put, Program.eval_bind,
            eval_returning, hbox, Program.resume_ok]
          exact h (.one (.put key box c seconds)) entries hboxed hentries
      | putMany keys values c seconds =>
          obtain ⟨boxes, hboxes, -, hboxed⟩ :=
            mapM_sealValue hlayer.sealsAs hvalid
          simp only [ValueLayer.call, ValueLayer.putMany]
          split
          · exact hentries
          · simp only [Program.eval_bind, eval_returning, hboxes,
              Program.resume_ok]
            exact h (.one (.putMany keys boxes c seconds)) entries hboxed
              hentries
      | delete key c => exact h (.one (.delete key c)) entries trivial hentries
      | deleteMany keys c =>
          exact h (.one (.deleteMany keys c)) entries trivial hentries
      | compareAndSwap key expected value c seconds =>
          obtain ⟨box, hbox, hboxed, -⟩ := hlayer.seals value hvalid
          simp only [ValueLayer.call, ValueLayer.compareAndSwap,
            Program.eval_bind, eval_returning, hbox, Program.resume_ok]
          have hkept := h (.one (.compareAndSwap key expected box c seconds))
            entries hboxed hentries
          generalize Program.eval (inner (.one
            (.compareAndSwap key expected box c seconds))) entries = outcome
            at hkept ⊢
          obtain ⟨_ | result, entries'⟩ := outcome
          · exact hkept
          · cases result with
            | applied => exact hkept
            | conflict current =>
                simp only [Program.resume_ok]
                rw [eval_bind_snd _ fun _ _ => rfl]
                exact hkept
      | compareAndDelete key expected c =>
          exact h (.one (.compareAndDelete key expected c)) entries trivial
            hentries

theorem keepsOn_throughStack {stack : List SealingWrapper}
    (hstack : ∀ w ∈ stack, w.Inverts) (h : KeepsOn P inner) :
    KeepsOn P (throughStack stack inner) := by
  induction stack with
  | nil => exact h
  | cons w stack ih =>
      rw [throughStack, SealingWrapper.call_eq]
      exact (hstack w (List.mem_cons_self ..)).faithful.keepsOn
        (ih fun other hother => hstack other (List.mem_cons_of_mem _ hother))

end Keeps

/-- A call through sealing wrappers, a limit, and sealing wrappers below. -/
structure LimitedMoment extends StackMoment where
  above : List SealingWrapper
  clock : Nat → DateTime

namespace LimitedMoment

variable (limit : LimitSizeWrapper) (defaultCollection : String)

def outcome (m : LimitedMoment) (entries : Entries) :
    Except Error m.call.Result × Entries :=
  Program.eval (throughStack m.above (limit.call m.clock
    (throughStack m.stack (stored m.now m.revisions defaultCollection)))
      m.call) entries

def step (entries : Entries) (m : LimitedMoment) : Option Entries :=
  some (m.outcome limit defaultCollection entries).2

end LimitedMoment

def Within (limit : LimitSizeWrapper) (openings : List Opening)
    (entries : Entries) : Prop :=
  ∃ mid : Entries, Related (OpensBy openings) mid entries ∧
    mid.All limit.Admits

theorem keepsOn_limit {limit : LimitSizeWrapper} {openings : List Opening}
    {m : StackMoment} (h : Compatible openings m) (clock : Nat → DateTime)
    (defaultCollection : String) :
    KeepsOn (Within limit openings) (limit.call clock
      (throughStack m.stack (stored m.now m.revisions defaultCollection))) := by
  rintro call entries hvalid ⟨mid, hrelated, hall⟩
  rcases LimitSizeWrapper.call_cases (w := limit) clock
    (throughStack m.stack (stored m.now m.revisions defaultCollection)) call
    entries with ⟨error, heval⟩ | ⟨heval, hwrites⟩
  · rw [heval]
    exact ⟨mid, hrelated, hall⟩
  · rw [heval]
    exact ⟨_, (serves_throughStack h defaultCollection call mid entries hrelated
      hvalid).2, apply_all m.revisions defaultCollection hall (hwrites m.now)⟩

/-- Whatever is put through the stack, what is stored stays within the limits
as the limiting wrapper measures it. -/
theorem stored_entries_within_limits (limit : LimitSizeWrapper)
    (defaultCollection : String) {openings : List Opening}
    {entries entries' : Entries} {moments : List LimitedMoment}
    (hwithin : Within limit openings entries)
    (hvalid : ∀ m ∈ moments, m.call.Valid)
    (habove : ∀ m ∈ moments, ∀ w ∈ m.above, w.Inverts)
    (hbelow : ∀ m ∈ moments, Compatible openings m.toStackMoment)
    (hrun : run (LimitedMoment.step limit defaultCollection) entries moments =
      some entries') : Within limit openings entries' := by
  refine @run_invariant _ _ _ _ (fun _ m => m.call.Valid ∧
    (∀ w ∈ m.above, w.Inverts) ∧ Compatible openings m.toStackMoment)
    ?_ _ _ _ hwithin (along_of_labels _ fun m hm =>
      ⟨hvalid m hm, habove m hm, hbelow m hm⟩) hrun
  rintro entries m entries' hwithin ⟨hvalid, habove, hbelow⟩ hstep
  cases hstep
  exact keepsOn_throughStack habove
    (keepsOn_limit hbelow m.clock defaultCollection) m.call entries hvalid
    hwithin

abbrev limitedPut : LimitedMoment where
  stack := [.compression (.new plainGzip)]
  now := .epoch
  revisions := fun _ => .fill 0
  call := .one (.put "k" .null none none)
  above := []
  clock := fun _ => .epoch

theorem limited_put_within :
    Within (.withMax 100)
      (limitedPut.stack.map fun w => w.layer.openValue)
      (limitedPut.outcome (.withMax 100) "c" fun _ => none).2 := by
  refine @stored_entries_within_limits (.withMax 100) "c" _
    (fun _ => none) _ [limitedPut]
    ⟨fun _ => none, fun _ => .none, fun _ _ h => by cases h⟩ ?_ ?_ ?_ rfl
  all_goals
    intro m hm
    cases List.mem_singleton.mp hm
  · rfl
  · intro w hw
    cases hw
  · refine ⟨fun w hw => ?_, rfl⟩
    cases List.mem_singleton.mp hw
    exact plainGzip_inverts _

end OpenKeyV.Wrapper
