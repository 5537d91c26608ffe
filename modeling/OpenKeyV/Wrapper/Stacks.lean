import OpenKeyV.Wrapper.LimitSize

/-!
# Stacks of all wrappers around one store

A call that fails, reads, or conflicts leaves the store as it was, through any
stack.  Below a `ReadOnlyWrapper` nothing is ever written.
-/

namespace OpenKeyV.Wrapper

open Library

namespace StoreCall

/-- The calls of `AsyncKeyValue`. -/
def IsKeyValue : StoreCall → Prop
  | .one (.getWithRevision ..) | .one (.compareAndSwap ..)
  | .one (.compareAndDelete ..) => False
  | _ => True

def IsRead : StoreCall → Prop
  | .one (.get ..) | .one (.ttl ..) | .one (.getWithRevision ..)
  | .getMany .. | .ttlMany .. => True
  | _ => False

def IsWrite : StoreCall → Prop
  | .one (.put ..) | .one (.putMany ..) | .one (.delete ..)
  | .one (.deleteMany ..) => True
  | _ => False

theorem isRead_or_isWrite {call : StoreCall} (h : call.IsKeyValue) :
    call.IsRead ∨ call.IsWrite := by
  cases call with
  | getMany | ttlMany => exact .inl trivial
  | one op =>
      cases op with
      | get | ttl => exact .inl trivial
      | put | putMany | delete | deleteMany => exact .inr trivial
      | getWithRevision | compareAndSwap | compareAndDelete => exact h.elim

end StoreCall

def ReadOnlyWrapper.call (inner : Handler) : Handler
  | .one (.put ..) => returning (.error .readOnly)
  | .one (.putMany ..) => returning (.error .readOnly)
  | .one (.delete ..) => returning (.error .readOnly)
  | .one (.deleteMany ..) => returning (.error .readOnly)
  | call => inner call

structure DefaultValueWrapper where
  defaultValue : Value

def DefaultValueWrapper.call (w : DefaultValueWrapper) (inner : Handler) :
    Handler
  | .one (.get key c) => do
      match ← inner (.one (.get key c)) with
      | some value => return some value
      | none => return some w.defaultValue
  | .one (.ttl key c) => do
      match ← inner (.one (.ttl key c)) with
      | some (value, seconds) => return some (value, seconds)
      | none => return some (w.defaultValue, none)
  | .getMany keys c => do
      let results ← inner (.getMany keys c)
      return results.map fun result => result.or (some w.defaultValue)
  | .ttlMany keys c => do
      let results ← inner (.ttlMany keys c)
      return results.map fun result => result.or (some (w.defaultValue, none))
  | call => inner call

inductive AnyWrapper where
  | sealing (w : SealingWrapper)
  | limitSize (w : LimitSizeWrapper)
  | readOnly
  | defaultValue (w : DefaultValueWrapper)

namespace AnyWrapper

def call (clock : Nat → DateTime) : AnyWrapper → Handler → Handler
  | .sealing w => w.call
  | .limitSize w => w.call clock
  | .readOnly => ReadOnlyWrapper.call
  | .defaultValue w => w.call

def Offers : AnyWrapper → StoreCall → Prop
  | .sealing _, _ | .limitSize _, _ => True
  | .readOnly, call | .defaultValue _, call => call.IsKeyValue

end AnyWrapper

def throughAll : List (AnyWrapper × (Nat → DateTime)) → Handler → Handler
  | [], inner => inner
  | (w, clock) :: stack, inner => w.call clock (throughAll stack inner)

def Leaves : (call : StoreCall) → Except Error call.Result → Prop
  | _, .error _ => True
  | .one (.get ..), _ | .one (.ttl ..), _ | .one (.getWithRevision ..), _
  | .getMany .., _ | .ttlMany .., _ => True
  | .one (.compareAndSwap ..), .ok (.conflict _) => True
  | .one (.compareAndDelete ..), .ok (.conflict _) => True
  | _, _ => False

def Careful (handler : Handler) : Prop :=
  ∀ call entries, Leaves call (Program.eval (handler call) entries).1 →
    (Program.eval (handler call) entries).2 = entries

theorem leaves_of_isRead {call : StoreCall} (h : call.IsRead)
    (result : Except Error call.Result) : Leaves call result := by
  cases call with
  | getMany | ttlMany => cases result <;> trivial
  | one op =>
      cases op with
      | get | ttl | getWithRevision => cases result <;> trivial
      | put | putMany | delete | deleteMany | compareAndSwap
      | compareAndDelete => exact h.elim

theorem Careful.read {handler : Handler} (h : Careful handler)
    (call : StoreCall) (hread : call.IsRead) (entries : Entries) :
    (Program.eval (handler call) entries).2 = entries :=
  h call entries (leaves_of_isRead hread _)

section Stored

variable {now : DateTime} {revisions : Nat → Revision}

theorem putSlot_cases (now : DateTime) (seconds : Option F64) :
    (∃ error, ∀ id value revision entries,
      putSlot now id value seconds revision entries =
        (.error error, entries)) ∨
      ∀ id value revision entries,
        (putSlot now id value seconds revision entries).1 = .ok () := by
  rcases ManagedEntry.ofTtl_cases now seconds with
    ⟨hok, -⟩ | ⟨error, herror, -⟩
  · refine .inr fun id value revision entries => ?_
    obtain ⟨entry, hentry⟩ := hok value
    simp only [putSlot, hentry]
  · refine .inl ⟨error, fun id value revision entries => ?_⟩
    simp only [putSlot, herror value]

theorem putSlots_error {name : String} {seconds : Option F64}
    {items : List (String × Value)} {i : Nat} {entries : Entries}
    {error : Error}
    (h : (putSlots now revisions name seconds items i entries).1 =
      .error error) :
    (putSlots now revisions name seconds items i entries).2 = entries := by
  rcases putSlot_cases now seconds with ⟨refused, hrefused⟩ | hput
  · cases items with
    | nil => rfl
    | cons item items => simp only [putSlots, hrefused]
  · have hall : ∀ (items : List (String × Value)) (i : Nat)
        (entries : Entries),
        (putSlots now revisions name seconds items i entries).1 = .ok () := by
      intro items
      induction items with
      | nil => exact fun i entries => rfl
      | cons item items ih =>
          intro i entries
          have hfirst := hput (name, item.1) item.2 (revisions i) entries
          simp only [putSlots]
          split
          · exact ih _ _
          · rename_i entries' heq
            rw [heq] at hfirst
            cases hfirst
    rw [hall] at h
    cases h

theorem careful_stored (defaultCollection : String) :
    Careful (stored now revisions defaultCollection) := by
  intro call entries hleaves
  simp only [stored, Program.eval_ofFn] at hleaves ⊢
  cases call with
  | getMany | ttlMany => rfl
  | one op =>
      cases op with
      | get | ttl | getWithRevision => rfl
      | delete | deleteMany => exact hleaves.elim
      | put key value c seconds =>
          simp only [StoreCall.apply, StoreOp.apply, putSlot] at hleaves ⊢
          split at hleaves
          · exact hleaves.elim
          · rfl
      | putMany keys values c seconds =>
          simp only [StoreCall.apply, StoreOp.apply] at hleaves ⊢
          split at hleaves
          · rw [if_pos ‹_›]
          · rename_i hlength
            rw [if_neg hlength]
            cases hresult : (putSlots now revisions (c.getD defaultCollection)
                seconds (keys.zip values) 0 entries).1 with
            | error error => exact putSlots_error hresult
            | ok _ =>
                rw [hresult] at hleaves
                exact hleaves.elim
      | compareAndSwap key expected value c seconds =>
          simp only [StoreCall.apply, StoreOp.apply] at hleaves ⊢
          split at hleaves
          · rfl
          · split at hleaves
            · exact hleaves.elim
            · rw [if_neg ‹_›]
      | compareAndDelete key expected c =>
          simp only [StoreCall.apply, StoreOp.apply] at hleaves ⊢
          split at hleaves
          · exact hleaves.elim
          · rw [if_neg ‹_›]

end Stored

section Layers

variable {inner : Handler}

theorem ValueLayer.careful (layer : ValueLayer) (h : Careful inner) :
    Careful (layer.call inner) := by
  intro call entries hleaves
  cases call with
  | getMany keys c =>
      exact (eval_bind_snd _ (snd_returning _) _).trans
        (h.read (.getMany keys c) trivial entries)
  | ttlMany keys c =>
      exact (eval_bind_snd _ (snd_returning _) _).trans
        (h.read (.ttlMany keys c) trivial entries)
  | one op =>
      cases op with
      | get key c =>
          exact (eval_bind_snd _ (snd_returning _) _).trans
            (h.read (.one (.get key c)) trivial entries)
      | ttl key c =>
          exact (eval_bind_snd _ (snd_returning _) _).trans
            (h.read (.one (.ttl key c)) trivial entries)
      | getWithRevision key c =>
          exact (eval_bind_snd _ (snd_returning _) _).trans
            (h.read (.one (.getWithRevision key c)) trivial entries)
      | put key value c seconds =>
          simp only [ValueLayer.call, ValueLayer.put, Program.eval_bind,
            eval_returning] at hleaves ⊢
          cases hseal : layer.sealValue value with
          | error error => rfl
          | ok box =>
              simp only [hseal, Program.resume_ok] at hleaves ⊢
              have hinner := h (.one (.put key box c seconds)) entries
              generalize Program.eval (inner (.one (.put key box c seconds)))
                entries = outcome at hleaves hinner ⊢
              exact hinner (by
                obtain ⟨_ | _, entries'⟩ := outcome
                · trivial
                · exact hleaves.elim)
      | putMany keys values c seconds =>
          simp only [ValueLayer.call, ValueLayer.putMany] at hleaves ⊢
          split
          · rfl
          · rename_i hcheck
            simp only [if_neg hcheck, Program.eval_bind,
              eval_returning] at hleaves ⊢
            cases hseal : values.mapM layer.sealValue with
            | error error => rfl
            | ok boxes =>
                simp only [hseal, Program.resume_ok] at hleaves ⊢
                have hinner := h (.one (.putMany keys boxes c seconds)) entries
                generalize Program.eval (inner (.one
                  (.putMany keys boxes c seconds))) entries = outcome at *
                exact hinner (by
                  obtain ⟨_ | _, entries'⟩ := outcome
                  · trivial
                  · exact hleaves.elim)
      | delete key c => exact h (.one (.delete key c)) entries hleaves
      | deleteMany keys c => exact h (.one (.deleteMany keys c)) entries hleaves
      | compareAndSwap key expected value c seconds =>
          simp only [ValueLayer.call, ValueLayer.compareAndSwap,
            Program.eval_bind, eval_returning] at hleaves ⊢
          cases hseal : layer.sealValue value with
          | error error => rfl
          | ok box =>
              simp only [hseal, Program.resume_ok,
                Program.eval_bind] at hleaves ⊢
              have hinner := h (.one
                (.compareAndSwap key expected box c seconds)) entries
              generalize Program.eval (inner (.one
                (.compareAndSwap key expected box c seconds))) entries =
                outcome at hleaves hinner ⊢
              obtain ⟨_ | result, entries'⟩ := outcome
              · exact hinner trivial
              · cases result with
                | applied => exact hleaves.elim
                | conflict current =>
                    simp only [Program.resume_ok]
                    rw [eval_bind_snd _ fun _ _ => rfl]
                    exact hinner trivial
      | compareAndDelete key expected c =>
          exact h (.one (.compareAndDelete key expected c)) entries hleaves

theorem LimitSizeWrapper.careful (w : LimitSizeWrapper)
    (clock : Nat → DateTime) (h : Careful inner) :
    Careful (w.call clock inner) := by
  intro call entries hleaves
  rcases LimitSizeWrapper.call_cases (w := w) clock inner call entries with
    ⟨error, heval⟩ | ⟨heval, -⟩
  · rw [heval]
  · rw [heval] at hleaves ⊢
    exact h call entries hleaves

theorem ReadOnlyWrapper.careful (h : Careful inner) :
    Careful (ReadOnlyWrapper.call inner) := by
  intro call entries hleaves
  cases call with
  | getMany | ttlMany => exact h _ entries hleaves
  | one op =>
      cases op with
      | put | putMany | delete | deleteMany => rfl
      | get | ttl | getWithRevision | compareAndSwap
      | compareAndDelete => exact h _ entries hleaves

theorem DefaultValueWrapper.careful (w : DefaultValueWrapper)
    (h : Careful inner) : Careful (w.call inner) := by
  intro call entries hleaves
  cases call with
  | getMany keys c =>
      exact (eval_bind_snd _ (fun _ _ => rfl) _).trans
        (h.read (.getMany keys c) trivial entries)
  | ttlMany keys c =>
      exact (eval_bind_snd _ (fun _ _ => rfl) _).trans
        (h.read (.ttlMany keys c) trivial entries)
  | one op =>
      cases op with
      | get key c =>
          refine (eval_bind_snd _ (fun value _ => ?_) _).trans
            (h.read (.one (.get key c)) trivial entries)
          cases value <;> rfl
      | ttl key c =>
          refine (eval_bind_snd _ (fun found _ => ?_) _).trans
            (h.read (.one (.ttl key c)) trivial entries)
          cases found <;> rfl
      | put | putMany | delete | deleteMany | getWithRevision
      | compareAndSwap | compareAndDelete => exact h _ entries hleaves

theorem AnyWrapper.careful (w : AnyWrapper) (clock : Nat → DateTime)
    (h : Careful inner) : Careful (w.call clock inner) := by
  cases w with
  | sealing w =>
      rw [AnyWrapper.call, SealingWrapper.call_eq]
      exact w.layer.careful h
  | limitSize w => exact w.careful clock h
  | readOnly => exact ReadOnlyWrapper.careful h
  | defaultValue w => exact w.careful h

end Layers

theorem careful_throughAll {stack : List (AnyWrapper × (Nat → DateTime))}
    {inner : Handler} (h : Careful inner) :
    Careful (throughAll stack inner) := by
  induction stack with
  | nil => exact h
  | cons first stack ih => exact first.1.careful first.2 ih

def Refuses (handler : Handler) : Prop :=
  ∀ call entries, call.IsWrite →
    ∃ error, (Program.eval (handler call) entries).1 = .error error

theorem refuses_readOnly (inner : Handler) :
    Refuses (ReadOnlyWrapper.call inner) := by
  intro call entries hwrite
  cases call with
  | getMany | ttlMany => exact hwrite.elim
  | one op =>
      cases op with
      | put | putMany | delete | deleteMany => exact ⟨_, rfl⟩
      | get | ttl | getWithRevision | compareAndSwap
      | compareAndDelete => exact hwrite.elim

theorem ValueLayer.refuses (layer : ValueLayer) {inner : Handler}
    (h : Refuses inner) : Refuses (layer.call inner) := by
  intro call entries hwrite
  cases call with
  | getMany | ttlMany => exact hwrite.elim
  | one op =>
      cases op with
      | put key value c seconds =>
          simp only [ValueLayer.call, ValueLayer.put, Program.eval_bind,
            eval_returning]
          cases layer.sealValue value with
          | error error => exact ⟨error, rfl⟩
          | ok box => exact h (.one (.put key box c seconds)) entries trivial
      | putMany keys values c seconds =>
          simp only [ValueLayer.call, ValueLayer.putMany]
          split
          · exact ⟨_, rfl⟩
          · simp only [Program.eval_bind, eval_returning]
            cases values.mapM layer.sealValue with
            | error error => exact ⟨error, rfl⟩
            | ok boxes =>
                exact h (.one (.putMany keys boxes c seconds)) entries trivial
      | delete key c => exact h (.one (.delete key c)) entries trivial
      | deleteMany keys c => exact h (.one (.deleteMany keys c)) entries trivial
      | get | ttl | getWithRevision | compareAndSwap
      | compareAndDelete => exact hwrite.elim

theorem AnyWrapper.refuses (w : AnyWrapper) (clock : Nat → DateTime)
    {inner : Handler} (h : Refuses inner) : Refuses (w.call clock inner) := by
  cases w with
  | sealing w =>
      rw [AnyWrapper.call, SealingWrapper.call_eq]
      exact w.layer.refuses h
  | readOnly => exact refuses_readOnly inner
  | limitSize w =>
      intro call entries hwrite
      rcases LimitSizeWrapper.call_cases (w := w) clock inner call entries with
        ⟨error, heval⟩ | ⟨heval, -⟩
      · exact ⟨error, by rw [AnyWrapper.call, heval]⟩
      · obtain ⟨error, herror⟩ := h call entries hwrite
        exact ⟨error, by rw [AnyWrapper.call, heval, herror]⟩
  | defaultValue w =>
      intro call entries hwrite
      cases call with
      | getMany | ttlMany => exact hwrite.elim
      | one op =>
          cases op with
          | put | putMany | delete | deleteMany => exact h _ entries trivial
          | get | ttl | getWithRevision | compareAndSwap
          | compareAndDelete => exact hwrite.elim

theorem refuses_throughAll {stack : List (AnyWrapper × (Nat → DateTime))}
    {clock : Nat → DateTime} (hmem : (.readOnly, clock) ∈ stack)
    (inner : Handler) : Refuses (throughAll stack inner) := by
  induction stack with
  | nil => cases hmem
  | cons first stack ih =>
      obtain ⟨w, ticks⟩ := first
      rcases List.mem_cons.mp hmem with heq | hmem
      · cases heq
        exact refuses_readOnly _
      · exact w.refuses ticks (ih hmem)

/-- A call that fails, reads or conflicts leaves the store as it was, and no
call through a `ReadOnlyWrapper` writes. -/
theorem stacks_leave_no_trace (stack : List (AnyWrapper × (Nat → DateTime)))
    (now : DateTime) (revisions : Nat → Revision) (defaultCollection : String)
    (call : StoreCall) (entries : Entries)
    (hoffers : ∀ w ∈ stack, w.1.Offers call) :
    (Leaves call (Program.eval (throughAll stack
        (stored now revisions defaultCollection) call) entries).1 →
      (Program.eval (throughAll stack
        (stored now revisions defaultCollection) call) entries).2 = entries) ∧
    ∀ clock, (.readOnly, clock) ∈ stack →
      (Program.eval (throughAll stack
        (stored now revisions defaultCollection) call) entries).2 = entries ∧
      (call.IsWrite → ∃ error, (Program.eval (throughAll stack
        (stored now revisions defaultCollection) call) entries).1 =
          .error error) := by
  have hcareful : Careful (throughAll stack
      (stored now revisions defaultCollection)) :=
    careful_throughAll (careful_stored defaultCollection)
  refine ⟨hcareful call entries, fun clock hmem => ?_⟩
  have hrefuses := refuses_throughAll hmem
    (stored now revisions defaultCollection) call entries
  refine ⟨?_, hrefuses⟩
  rcases call.isRead_or_isWrite (hoffers _ hmem) with hread | hwrite
  · exact hcareful.read call hread entries
  · obtain ⟨error, herror⟩ := hrefuses hwrite
    refine hcareful call entries ?_
    rw [herror]
    cases call with
    | getMany | ttlMany => trivial
    | one op => cases op <;> trivial

/-- A put through a default value and a `ReadOnlyWrapper`. -/
theorem read_only_leaves_no_trace :
    (Program.eval (throughAll [(.defaultValue ⟨.null⟩, fun _ => .epoch),
        (.readOnly, fun _ => .epoch)]
      (stored .epoch (fun _ => .fill 0) "c")
      (.one (.put "k" .null none none))) fun _ => none).2 = fun _ => none := by
  refine ((stacks_leave_no_trace [(.defaultValue ⟨.null⟩, fun _ => .epoch),
    (.readOnly, fun _ => .epoch)] .epoch (fun _ => .fill 0) "c"
    (.one (.put "k" .null none none)) (fun _ => none) ?_).2 (fun _ => .epoch)
    (by simp)).1
  intro w hw
  simp only [List.mem_cons, List.not_mem_nil, or_false] at hw
  rcases hw with rfl | rfl <;> trivial

end OpenKeyV.Wrapper
