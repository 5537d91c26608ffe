import OpenKeyV.Memory.Threads

/-!
# Lookups of a collection

Every call creates its collection in one access and looks it up in a later
one.  As long as no destruction comes in between, a call finds what it has
created, and the store behaves as one in which a missing collection counts as
an empty one.
-/

namespace OpenKeyV.Memory.Threads

open OpenKeyV.Library OpenKeyV.Library.Interaction

def NotFound {α : Type} (result : Except Error α) : Prop :=
  ∃ name, result = .error (collectionNotFound name)

/-- The run is one of a store in which a missing collection counts as an
empty one, and no call reports a missing collection. -/
def NeverMissing (config : MemoryConfig) (rng : Nat → Option Revision)
    (allowed : Heap → Nat → Access → Prop) : Prop :=
  ∀ state clock labels pool,
    run (step config rng) (Pool.idle (Heap.start state clock)) labels =
      some pool →
    Along (step config rng) (Pool.Allows allowed)
      (Pool.idle (Heap.start state clock)) labels →
    run (stepEmpty config rng) (Pool.idle (Heap.start state clock)) labels =
        some pool ∧
      ∀ task call result, pool.tasks task = some (call, .done result) →
        ¬ NotFound result

/-- A lookup meets a collection that was not destroyed after it was last
created. -/
def Undestroyed (s : Heap) (_ : Nat) : Access → Prop
  | .find name => s.lost name = false
  | _ => True

instance (s : Heap) (task : Nat) :
    ∀ access, Decidable (Undestroyed s task access)
  | .find name => inferInstanceAs (Decidable (s.lost name = false))
  | .lockSetup | .seed .. | .unlockSetup _ | .create _ | .validateTtl _
  | .stamp .. | .stampMany .. | .lockMutation | .unlockMutation | .leave _
  | .peek .. | .listKeys .. | .perform _ | .record _ | .clear
  | .resetSetup => .isTrue trivial

/-! ## What a call knows -/

structure Known where
  created : List String
  held : Option String
  missed : Prop

namespace Known

def blank : Known := ⟨[], none, False⟩

def learn (k : Known) : (a : Access) → a.Answer → Known
  | .create name, _ => { k with created := name :: k.created }
  | .find name, found =>
      if found then { k with held := some name }
      else { k with missed := True }
  | .leave _, _ => { k with held := none }
  | .seed .., result | .validateTtl _, result =>
      { k with missed := k.missed ∨ NotFound result }
  | .stamp .., result => { k with missed := k.missed ∨ NotFound result }
  | .stampMany .., result => { k with missed := k.missed ∨ NotFound result }
  | .perform _, answer => { k with missed := k.missed ∨ NotFound answer.1 }
  | _, _ => k

end Known

def borrowed : Action → Option String
  | .delete name _ | .deleteMany name _ | .compareAndSwap name _ _ _
  | .compareAndDelete name _ _ => some name
  | _ => none

/-- A call looks up what it has created, and acts on what it has a reference
to. -/
def May (k : Known) : Access → Prop
  | .find name => name ∈ k.created
  | .perform action => ∀ name, borrowed action = some name → k.held = some name
  | _ => True

def Fail (k : Known) (error : Error) : Prop :=
  (∃ name, error = collectionNotFound name) → k.missed

section Programs

variable {config : MemoryConfig} {k : Known} {α : Type} {name : String}

abbrev Meets (k : Known) (call : Requests α) (post : Known → α → Prop) :
    Prop :=
  Interaction.Meets Known.learn May Fail k call post

def Keeps (k k' : Known) : Prop :=
  (∀ name ∈ k.created, name ∈ k'.created) ∧ k'.held = k.held

theorem Keeps.refl (k : Known) : Keeps k k := ⟨fun _ hname => hname, rfl⟩

theorem Keeps.trans {k k' k'' : Known} (h : Keeps k k') (h' : Keeps k' k'') :
    Keeps k k'' :=
  ⟨fun name hname => h'.1 name (h.1 name hname), h'.2.trans h.2⟩

theorem fail_of_eq {r : Except Error α} {e : Error} (h : r = .error e) :
    Fail { k with missed := k.missed ∨ NotFound r } e := by
  rintro ⟨name, rfl⟩
  exact .inr ⟨name, h⟩

theorem meets_result {a : Access} {r : a.Answer → Except Error α}
    (hmay : May k a)
    (hlearn : ∀ answer, k.learn a answer =
      { k with missed := k.missed ∨ NotFound (r answer) }) :
    Meets k (send a >>= fun answer => attempt (r answer))
      fun k' _ => Keeps k k' := by
  refine meets_access_bind hmay fun answer => ?_
  rw [hlearn]
  exact meets_attempt (fun _ _ => .refl k) fun _ h => fail_of_eq h

theorem meets_then {β : Type} {call : Requests α} {f : α → Requests β}
    {post : Known → β → Prop}
    (h : Meets k call fun k' _ => Keeps k k')
    (hf : ∀ k' a, Keeps k k' → Meets k' (f a) post) :
    Meets k (call >>= f) post :=
  h.bind hf

theorem meets_seedAll
    (seed : List (Sigma fun _ : String => KeyedMap String Value)) :
    Meets k (seedAll seed) fun k' _ => Keeps k k' := by
  induction seed generalizing k with
  | nil => exact meets_pure (.refl k)
  | cons entry seed ih =>
      refine meets_access_bind trivial fun result => ?_
      have hresult : Meets (k.learn (.seed entry.1 entry.2) result)
          (attempt result) fun k' _ => Keeps k k' :=
        meets_attempt (fun _ _ => .refl k) fun _ h => fail_of_eq h
      exact hresult.bind fun k' _ hk' =>
        ih.mono fun k'' _ hk'' => hk'.trans hk''

theorem meets_setup : Meets k (setup config) fun k' _ => Keeps k k' := by
  refine meets_access_bind trivial fun complete => ?_
  cases complete with
  | true => exact meets_access trivial fun _ => .refl k
  | false =>
      simp only [Bool.false_eq_true, if_false]
      cases config.seed with
      | none => exact meets_access trivial fun _ => .refl k
      | some seed =>
          refine (meets_observe (meets_seedAll seed.entries)).bind ?_
          intro k' result hresult
          refine meets_access_bind trivial fun _ => ?_
          exact meets_attempt (fun a ha => by subst ha; exact hresult)
            fun e he => by subst he; exact hresult

theorem meets_setupCollection (name : String) :
    Meets k (setupCollection config name) fun k' _ =>
      Keeps k k' ∧ name ∈ k'.created := by
  refine meets_then meets_setup fun k' _ hk' => ?_
  refine meets_access trivial fun _ => ⟨hk'.trans ⟨?_, rfl⟩, ?_⟩
  · exact fun other hother => List.mem_cons_of_mem _ hother
  · exact List.mem_cons_self ..

theorem meets_locked {body : Requests α} {post : Known → α → Prop}
    (h : Meets k body post) : Meets k (locked body) post := by
  refine meets_access_bind trivial fun _ => ?_
  refine (meets_observe h).bind fun k' result hresult => ?_
  refine meets_access_bind trivial fun _ => ?_
  exact meets_attempt (fun a ha => by subst ha; exact hresult)
    fun e he => by subst he; exact hresult

theorem meets_borrowing {body : Requests α} (hname : name ∈ k.created)
    (h : Meets { k with held := some name } body fun _ _ => True) :
    Meets k (borrowing name body) fun _ _ => True := by
  have hget : Meets k (getCollection name) fun k' _ =>
      k' = { k with held := some name } := by
    refine meets_access_bind hname fun found => ?_
    cases found with
    | true => exact meets_pure rfl
    | false =>
        refine meets_attempt (fun _ h => ?_) fun _ _ _ => trivial
        cases h
  refine hget.bind fun k' _ hk' => ?_
  subst hk'
  refine (meets_observe h).bind fun k' result hresult => ?_
  refine meets_access_bind trivial fun _ => ?_
  exact meets_attempt (fun _ _ => trivial) fun e he => by
    subst he
    exact hresult

theorem meets_recordAll (mutations : List Mutation) :
    Meets k (recordAll mutations) fun k' _ => k' = k := by
  induction mutations with
  | nil => exact meets_pure rfl
  | cons mutation mutations ih => exact meets_access_bind trivial fun _ => ih

theorem meets_performRecorded {action : Action}
    (hmay : May k (.perform action)) :
    Meets k (performRecorded action) fun _ _ => True := by
  refine meets_access_bind hmay fun answer => ?_
  refine (meets_recordAll answer.2).bind fun k' _ hk' => ?_
  subst hk'
  exact meets_attempt (fun _ _ => trivial) fun _ h => fail_of_eq h

theorem meets_peekAll (keys : List String) :
    Meets k (peekAll name keys) fun _ _ => True := by
  induction keys with
  | nil => exact meets_pure trivial
  | cons key keys ih =>
      refine meets_access_bind trivial fun found => ?_
      exact ih.bind fun _ _ _ => meets_pure trivial

theorem meets_removeAll (keys : List String) (hheld : k.held = some name) :
    Meets k (removeAll name keys) fun _ _ => True := by
  induction keys generalizing k with
  | nil => exact meets_pure trivial
  | cons key keys ih =>
      refine meets_access_bind ?_ fun answer => ?_
      · intro other hother
        cases hother
        exact hheld
      · have hresult : Meets (k.learn (.perform (.delete name key)) answer)
            (attempt answer.1) fun k' _ => k'.held = some name :=
          meets_attempt (fun _ _ => hheld) fun _ h => fail_of_eq h
        refine hresult.bind fun k' _ hk' => ?_
        exact (ih hk').bind fun _ _ _ => meets_pure trivial

theorem meets_send {a : Access} (hmay : May k a) :
    Meets k (send a) fun _ _ => True :=
  meets_access hmay fun _ => trivial

theorem meets_reading {collection : Option String}
    {read : String → Requests α} {answer : α → Response}
    (hread : ∀ k name, Meets k (read name) fun _ _ => True) :
    Meets k (reading config collection read answer) fun _ _ => True := by
  refine (meets_setupCollection _).bind fun k' _ hk' => ?_
  refine (meets_borrowing hk'.2 (hread _ _)).bind fun _ _ _ => ?_
  exact meets_pure trivial

theorem meets_acting {body : Requests α} (hname : name ∈ k.created)
    (h : ∀ k, k.held = some name → Meets k body fun _ _ => True) :
    Meets k (locked (borrowing name body)) fun _ _ => True :=
  meets_locked (meets_borrowing hname (h _ rfl))

theorem meets_action {action : Action} {k : Known}
    (hborrowed : borrowed action = some name) (hheld : k.held = some name) :
    Meets k (performRecorded action) fun _ _ => True := by
  refine meets_performRecorded fun other hother => ?_
  rw [hborrowed] at hother
  cases hother
  exact hheld

theorem meets_checked {β : Type} {ttl : Option F64}
    {rest : Requests β} (hrest : ∀ k, Meets k rest fun _ _ => True) :
    Meets k (do
      if let some seconds := ttl then
        send (.validateTtl seconds) >>= attempt
      rest) fun _ _ => True := by
  cases ttl with
  | none => exact hrest k
  | some seconds =>
      have hvalidate : Meets k (send (.validateTtl seconds) >>= attempt)
          fun k' _ => Keeps k k' := meets_result trivial fun _ => rfl
      exact meets_then hvalidate fun k' _ _ => hrest k'

theorem meets_requests (call : ThreadCall) :
    Meets k (requests config call) fun _ _ => True := by
  cases call with
  | get key collection | ttl key collection | getWithRevision key collection =>
      simp only [requests, get, ttl, getWithRevision]
      exact meets_reading fun k name => meets_send trivial
  | keys collection limit =>
      simp only [requests, Threads.keys]
      exact meets_reading fun k name => meets_send trivial
  | getMany keys collection | ttlMany keys collection =>
      simp only [requests, getMany, ttlMany]
      exact meets_reading fun k name => meets_peekAll keys
  | put key value collection ttl =>
      refine (meets_setupCollection _).bind fun k' _ _ => ?_
      have hstamp : Meets k' (send (.stamp value ttl) >>= attempt)
          fun k'' _ => Keeps k' k'' := meets_result trivial fun _ => rfl
      refine meets_then hstamp fun k'' stored _ => ?_
      refine meets_locked (meets_performRecorded fun name hname => ?_)
      cases hname
  | putMany keys values collection ttl =>
      simp only [requests, putMany]
      split
      · refine meets_attempt (fun _ _ => trivial) fun e he => ?_
        cases he
        rintro ⟨name, hname⟩
        cases hname
      · refine meets_checked fun k => ?_
        refine (meets_setupCollection _).bind fun k' _ _ => ?_
        have hstamp : Meets k' (send (.stampMany values ttl) >>= attempt)
            fun k'' _ => Keeps k' k'' := meets_result trivial fun _ => rfl
        refine meets_then hstamp fun k'' stored _ => ?_
        refine meets_locked (meets_performRecorded fun name hname => ?_)
        cases hname
  | delete key collection =>
      refine (meets_setupCollection _).bind fun k' _ hk' => ?_
      exact meets_acting hk'.2 fun k hheld => meets_action rfl hheld
  | deleteMany keys collection =>
      refine (meets_setupCollection _).bind fun k' _ hk' => ?_
      refine meets_acting hk'.2 fun k hheld => ?_
      refine (meets_removeAll keys hheld).bind fun k' deleted _ => ?_
      exact (meets_recordAll deleted).bind fun _ _ _ => meets_pure trivial
  | compareAndSwap key expected value collection ttl =>
      refine meets_checked fun k => ?_
      refine (meets_setupCollection _).bind fun k' _ hk' => ?_
      have hstamp : Meets k' (send (.stamp value ttl) >>= attempt)
          fun k'' _ => Keeps k' k'' := meets_result trivial fun _ => rfl
      refine meets_then hstamp fun k'' stored hk'' => ?_
      exact meets_acting (hk''.1 _ hk'.2) fun k hheld =>
        meets_action rfl hheld
  | compareAndDelete key expected collection =>
      refine (meets_setupCollection _).bind fun k' _ hk' => ?_
      exact meets_acting hk'.2 fun k hheld => meets_action rfl hheld
  | destroyCollection name =>
      refine meets_then meets_setup fun k' _ _ => ?_
      refine meets_locked (meets_performRecorded fun name hname => ?_)
      cases hname
  | destroy =>
      refine meets_locked ?_
      refine meets_access_bind trivial fun _ => ?_
      exact meets_access_bind trivial fun _ => meets_pure trivial

theorem respects_program (call : ThreadCall) :
    Respects Known.learn May (fun k result => NotFound result → k.missed)
      k (program config call) := by
  refine Respects.mono (fun k result hresult => ?_)
    (@meets_requests config k call)
  rintro ⟨name, rfl⟩
  exact hresult ⟨name, rfl⟩

end Programs

/-! ## What is true of the heap -/

def Heap.present (s : Heap) (name : String) : Bool :=
  (s.state.collection name).isSome

/-- What a call has created is there unless it was destroyed, and what it has
a reference to is there. -/
structure Valid (task : Nat) (k : Known) (s : Heap) : Prop where
  created : ∀ name ∈ k.created, s.lost name = false → s.present name = true
  held : ∀ name, k.held = some name →
    (task, name) ∈ s.readers ∧ s.present name = true
  missed : ¬ k.missed

/-- The collections that are there stay, and are not lost. -/
structure Stays (s s' : Heap) : Prop where
  present : ∀ name, s.present name = true → s'.present name = true
  lost : ∀ name, s'.lost name = false →
    s.lost name = false ∨ s'.present name = true

theorem Valid.stays {task : Nat} {k : Known} {s s' : Heap}
    (h : Valid task k s) (hstays : Stays s s')
    (hreaders : ∀ name, (task, name) ∈ s.readers →
      (task, name) ∈ s'.readers) : Valid task k s' := by
  refine ⟨fun name hname hlost => ?_, fun name hname => ?_, h.missed⟩
  · rcases hstays.lost name hlost with hlost | hpresent
    · exact hstays.present name (h.created name hname hlost)
    · exact hpresent
  · obtain ⟨hreader, hpresent⟩ := h.held name hname
    exact ⟨hreaders name hreader, hstays.present name hpresent⟩

section Errors

variable {config : MemoryConfig} {rng : Nat → Option Revision}
  {now : DateTime} {order : Order} {s : MemoryState} {name : String}

theorem mapM_ofTtl_error {values : List Value} {ttl : Option F64} {e : Error}
    (h : (values.mapM fun value => ManagedEntry.ofTtl now value ttl) =
      .error e) : ∃ text, e = .invalidTtl text := by
  induction values with
  | nil => cases h
  | cons value values ih =>
      rw [List.mapM_cons] at h
      cases hvalue : ManagedEntry.ofTtl now value ttl with
      | error e' =>
          simp only [hvalue, bind, Except.bind, Except.error.injEq] at h
          exact h ▸ ManagedEntry.ofTtl_error hvalue
      | ok entry =>
          simp only [hvalue, bind, Except.bind] at h
          cases hrest : values.mapM fun value =>
              ManagedEntry.ofTtl now value ttl with
          | error e' =>
              simp only [hrest, Except.error.injEq] at h
              exact ih (h ▸ hrest)
          | ok entries => simp [hrest, pure, Except.pure] at h

theorem fresh_error {e : Error} (h : (s.fresh rng).1 = .error e) :
    e = .revisionGeneration "random source failed" := by
  simp only [MemoryState.fresh] at h
  split at h
  · cases h
  · cases h
    rfl

theorem freshMany_error {n : Nat} {e : Error}
    (h : (freshMany rng n s).1 = .error e) :
    e = .revisionGeneration "random source failed" := by
  induction n generalizing s with
  | zero => cases h
  | succ n ih =>
      have hfirst := @fresh_error rng s
      rw [freshMany] at h
      generalize s.fresh rng = drawn at h hfirst
      rcases drawn with ⟨_ | revision, s'⟩
      · cases h
        exact hfirst rfl
      · have hrest := @ih s'
        simp only at h
        generalize freshMany rng n s' = more at h hrest
        rcases more with ⟨_ | revisions, s''⟩
        · cases h
          exact hrest rfl
        · cases h

theorem loadItems_error
    {items : List (Sigma fun _ : String => Value)} {e : Error}
    (h : (loadItems rng now name items s).1 = .error e) :
    e = .revisionGeneration "random source failed" := by
  induction items generalizing s with
  | nil => cases h
  | cons item items ih =>
      have hfirst := @fresh_error rng s
      rw [loadItems] at h
      generalize s.fresh rng = drawn at h hfirst
      rcases drawn with ⟨_ | revision, s'⟩
      · cases h
        exact hfirst rfl
      · exact ih h

theorem found_validateTtl (seconds : F64) :
    ¬ NotFound (ManagedEntry.validateTtl now seconds) := by
  rintro ⟨name, h⟩
  unfold ManagedEntry.validateTtl at h
  cases hexpires : ManagedEntry.expirationAt now seconds with
  | ok expires => simp [hexpires, bind, Except.bind, pure, Except.pure] at h
  | error e =>
      obtain ⟨text, rfl⟩ := ManagedEntry.expirationAt_error hexpires
      simp [hexpires, bind, Except.bind, collectionNotFound] at h

theorem found_stamp (value : Value) (ttl : Option F64) :
    ¬ NotFound (Heap.stamp rng now value ttl s).1 := by
  rintro ⟨name, h⟩
  unfold Heap.stamp at h
  split at h
  · rename_i hentry
    cases h
    obtain ⟨text, htext⟩ := ManagedEntry.ofTtl_error hentry
    cases htext
  · have hfresh := @fresh_error rng s
    generalize s.fresh rng = drawn at h hfresh
    rcases drawn with ⟨_ | revision, s'⟩
    · cases h
      cases hfresh rfl
    · cases h

theorem found_stampMany (values : List Value) (ttl : Option F64) :
    ¬ NotFound (Heap.stampMany rng now values ttl s).1 := by
  rintro ⟨name, h⟩
  unfold Heap.stampMany at h
  split at h
  · rename_i hentries
    cases h
    obtain ⟨text, htext⟩ := mapM_ofTtl_error hentries
    cases htext
  · rename_i entries _
    have hfresh := @freshMany_error rng s entries.length
    generalize freshMany rng entries.length s = drawn at h hfresh
    rcases drawn with ⟨_ | revision, s'⟩
    · cases h
      cases hfresh rfl
    · cases h

theorem found_seed (items : KeyedMap String Value) :
    ¬ NotFound (Heap.seed config rng now order name items s).1 := by
  rintro ⟨name', h⟩
  unfold Heap.seed at h
  have hload := @loadItems_error rng now (s.ensureCollection name) name
    items.entries
  generalize loadItems rng now name items.entries (s.ensureCollection name) =
    loaded at h hload
  rcases loaded with ⟨_ | _, s'⟩
  · cases h
    cases hload rfl
  · cases h

theorem found_perform {action : Action}
    (h : ∀ name, borrowed action = some name →
      (s.collection name).isSome = true) :
    ¬ NotFound (Memory.perform config now order s action).result := by
  rintro ⟨missing, hresult⟩
  cases action with
  | put name key stored =>
      simp only [perform, Memory.put] at hresult
      split at hresult <;> cases hresult
  | putMany name keys entries =>
      simp only [perform, Memory.putMany] at hresult
      split at hresult <;> cases hresult
  | cull => cases hresult
  | destroyCollection name =>
      simp only [perform, Memory.destroyCollection] at hresult
      split at hresult <;> cases hresult
  | delete name key =>
      obtain ⟨col, hcol⟩ := Option.isSome_iff_exists.mp (h name rfl)
      simp only [perform, Memory.delete, hcol] at hresult
      split at hresult <;> cases hresult
  | deleteMany name keys =>
      obtain ⟨col, hcol⟩ := Option.isSome_iff_exists.mp (h name rfl)
      simp only [perform, Memory.deleteMany, hcol] at hresult
      cases hresult
  | compareAndSwap name key expected stored =>
      obtain ⟨col, hcol⟩ := Option.isSome_iff_exists.mp (h name rfl)
      have hcases := compareAndSwap_cases now s name key expected stored
      simp only [perform] at hresult
      generalize Memory.compareAndSwap now name s key expected stored = done
        at hcases hresult
      cases hcases with
      | missing hnone => simp [hcol] at hnone
      | rejected | swept | created | swapped => cases hresult
  | compareAndDelete name key expected =>
      obtain ⟨col, hcol⟩ := Option.isSome_iff_exists.mp (h name rfl)
      have hcases := compareAndDelete_cases now s name key expected
      simp only [perform] at hresult
      generalize Memory.compareAndDelete now name s key expected = done
        at hcases hresult
      cases hcases with
      | missing hnone => simp [hcol] at hnone
      | rejected | swept | deleted => cases hresult

end Errors

theorem valid_blank (task : Nat) (s : Heap) : Valid task .blank s :=
  ⟨fun _ hname => (List.not_mem_nil hname).elim,
    fun _ hname => (Option.some_ne_none _ hname.symm).elim, id⟩

/-! ## One access -/

section Steps

variable {config : MemoryConfig} {rng : Nat → Option Revision} {task : Nat}
  {order : Order} {s s' : Heap} {k : Known}

variable (rng) in
theorem retains_loadItems (now : DateTime) (name : String)
    (items : List (Sigma fun _ : String => Value)) (s : MemoryState) :
    Retains s (loadItems rng now name items s).2 := by
  induction items generalizing s with
  | nil => exact fun _ hname => hname
  | cons item items ih =>
      rw [loadItems]
      have hdrawn : Retains s (s.fresh rng).2 := fun _ hname => hname
      generalize s.fresh rng = drawn at hdrawn ⊢
      rcases drawn with ⟨_ | revision, s'⟩
      · exact hdrawn
      · exact (hdrawn.trans (retains_insertEntry _ _ _ _)).trans (ih _)

theorem retains_seed (now : DateTime) (name : String)
    (items : KeyedMap String Value) (s : MemoryState) :
    Retains (s.ensureCollection name)
      (Heap.seed config rng now order name items s).2 := by
  unfold Heap.seed
  have hloaded := retains_loadItems rng now name items.entries
    (s.ensureCollection name)
  generalize loadItems rng now name items.entries (s.ensureCollection name) =
    loaded at hloaded ⊢
  rcases loaded with ⟨_ | _, s'⟩
  · exact hloaded
  · exact hloaded.trans (retains_enforceCapacity name)

theorem stays_of_retains (h : Retains s.state s'.state)
    (hlost : s'.lost = s.lost) : Stays s s' :=
  ⟨h, fun _ hname => .inl (hlost ▸ hname)⟩

theorem stays_created {name : String} {state : MemoryState}
    (h : Retains (s.state.ensureCollection name) state) :
    Stays s (s.created name state) ∧
      (s.created name state).present name = true := by
  have hretains := (retains_ensureCollection name).trans h
  have hpresent : (s.created name state).present name = true :=
    h name (by simp)
  refine ⟨⟨hretains, fun name' hlost => ?_⟩, hpresent⟩
  by_cases hname : name' = name
  · exact .inr (hname ▸ hpresent)
  · exact .inl ((Function.update_of_ne hname ..).symm.trans hlost)

theorem retains_stamp (now : DateTime) (value : Value) (ttl : Option F64)
    (s : MemoryState) : Retains s (Heap.stamp rng now value ttl s).2 := by
  unfold Heap.stamp
  split
  · exact fun _ hname => hname
  · have hdrawn : Retains s (s.fresh rng).2 := fun _ hname => hname
    generalize s.fresh rng = drawn at hdrawn ⊢
    rcases drawn with ⟨_ | revision, s'⟩ <;> exact hdrawn

theorem retains_stampMany (now : DateTime) (values : List Value)
    (ttl : Option F64) (s : MemoryState) :
    Retains s (Heap.stampMany rng now values ttl s).2 := by
  unfold Heap.stampMany
  split
  · exact fun _ hname => hname
  · rename_i entries _
    have hdrawn : Retains s (freshMany rng entries.length s).2 := by
      intro name hname
      rwa [collection_freshMany]
    generalize freshMany rng entries.length s = drawn at hdrawn ⊢
    rcases drawn with ⟨_ | revision, s'⟩ <;> exact hdrawn

/-- What a step of the task leaves: the task knows `k`, and the others what
they knew. -/
def Told (task : Nat) (k : Known) (s t : Heap) : Prop :=
  Valid task k t ∧
    ∀ other m, other ≠ task → Valid other m s → Valid other m t

theorem Valid.keep (hk : Valid task k s) (hstays : Stays s s')
    (hreaders : s'.readers = s.readers) : Told task k s s' :=
  ⟨hk.stays hstays fun _ h => hreaders ▸ h,
    fun _ _ _ hm => hm.stays hstays fun _ h => hreaders ▸ h⟩

theorem Told.result {missed : Prop} (h : Told task k s s')
    (hmissed : ¬ missed) :
    Told task { k with missed := k.missed ∨ missed } s s' :=
  ⟨⟨h.1.created, h.1.held, fun h' => h'.elim h.1.missed hmissed⟩, h.2⟩

theorem told_created (hk : Valid task k s) (name : String) :
    Told task { k with created := name :: k.created } s
      (s.created name (s.state.ensureCollection name)) := by
  obtain ⟨hstays, hpresent⟩ := @stays_created s name
    (s.state.ensureCollection name) fun _ hname => hname
  obtain ⟨hown, hothers⟩ := hk.keep hstays rfl
  refine ⟨⟨fun other hother hlost => ?_, hown.held, hown.missed⟩, hothers⟩
  rcases List.mem_cons.mp hother with rfl | hmem
  · exact hpresent
  · exact hown.created other hmem hlost

theorem told_found {name : String} (hk : Valid task k s)
    (hpresent : s.present name = true) :
    Told task { k with held := some name } s
      { s with readers := (task, name) :: s.readers } := by
  have hstays : Stays s { s with readers := (task, name) :: s.readers } :=
    stays_of_retains (fun _ hname => hname) rfl
  refine ⟨⟨hk.created, fun other hother => ?_, hk.missed⟩, ?_⟩
  · cases hother
    exact ⟨List.mem_cons_self .., hpresent⟩
  · exact fun other m _ hm =>
      hm.stays hstays fun _ h => List.mem_cons_of_mem _ h

theorem told_left (hk : Valid task k s) (name : String) :
    Told task { k with held := none } s
      { s with readers := s.readers.erase (task, name) } := by
  have hstays : Stays s { s with readers := s.readers.erase (task, name) } :=
    stays_of_retains (fun _ hname => hname) rfl
  refine ⟨⟨hk.created, fun other hother => ?_, hk.missed⟩, ?_⟩
  · cases hother
  · intro other m hother hm
    refine hm.stays hstays fun name' h => ?_
    exact (List.mem_erase_of_ne (by simp [hother])).mpr h

theorem Valid.removed {other : Nat} {state : MemoryState} {name : String}
    (hk : Valid other k s) (hfree : s.referenced name = false)
    (hothers : ∀ name', name' ≠ name → s.present name' = true →
      (state.collection name').isSome = true) :
    Valid other k
      { s with state, lost := Function.update s.lost name true } := by
  refine ⟨fun name' hname' hlost => ?_, fun name' hname' => ?_, hk.missed⟩
  · have hne : name' ≠ name := by
      rintro rfl
      simp at hlost
    simp only [Function.update_of_ne hne] at hlost
    exact hothers name' hne (hk.created name' hname' hlost)
  · obtain ⟨hreader, hpresent⟩ := hk.held name' hname'
    refine ⟨hreader, hothers name' ?_ hpresent⟩
    rintro rfl
    have hreferenced : s.referenced name' = true :=
      List.any_eq_true.mpr ⟨_, hreader, by simp⟩
    simp [hfree] at hreferenced

theorem present_destroyCollection {now : DateTime} {name name' : String}
    (hne : name' ≠ name) (h : s.present name' = true) :
    ((Memory.perform config now order s.state
      (.destroyCollection name)).state.collection name').isSome = true := by
  simp only [perform, Memory.destroyCollection]
  split
  · rw [MemoryState.collection_removeCollection, if_neg hne]
    exact h
  · exact h

theorem told_performed {action : Action} (hk : Valid task k s)
    (hmay : May k (.perform action))
    (hfree : ¬ (exclusive action).any s.referenced = true) :
    let done := Memory.perform config s.clock order s.state action
    Told task { k with missed := k.missed ∨ NotFound done.result } s
      { s with state := done.state, lost := losing s.lost action } := by
  refine Told.result ?_ (found_perform fun name hname =>
    (hk.held name (hmay name hname)).2)
  by_cases hdestroys : ∃ name, action = .destroyCollection name
  · obtain ⟨name, rfl⟩ := hdestroys
    have hremoved : ∀ {other : Nat} {m : Known}, Valid other m s →
        Valid other m { s with
          state := (Memory.perform config s.clock order s.state
            (.destroyCollection name)).state
          lost := Function.update s.lost name true } :=
      fun hm => hm.removed (by simpa [exclusive] using hfree)
        fun other hother => present_destroyCollection hother
    exact ⟨hremoved hk, fun _ _ _ => hremoved⟩
  · have hretains := @perform_retains config s.clock order s.state action
      (by cases action <;> first | rfl | exact (hdestroys ⟨_, rfl⟩).elim)
    have hlost : losing s.lost action = s.lost := by
      cases action <;> first | rfl | exact (hdestroys ⟨_, rfl⟩).elim
    rw [hlost]
    exact hk.keep (stays_of_retains hretains rfl) rfl

theorem told_cleared (hk : Valid task k s)
    (hfree : s.readers.isEmpty = true) :
    Told task k s
      { s with state := s.state.clear, lost := fun _ => true } := by
  have hnone : s.readers = [] := List.isEmpty_iff.mp hfree
  have hcleared : ∀ {other : Nat} {m : Known}, Valid other m s →
      Valid other m { s with
        state := s.state.clear, lost := fun _ => true } :=
    fun hm => ⟨fun _ _ h => (Bool.noConfusion h),
      fun name hname => by simpa [hnone] using (hm.held name hname).1,
      hm.missed⟩
  exact ⟨hcleared hk, fun _ _ _ => hcleared⟩

theorem sound_undestroyed :
    Pool.Sound (Heap.handle config rng) Known.learn May (fun _ => True) Valid
      Undestroyed := by
  rintro task order access s answer s' k - hk hmay hok hhandle
  refine ⟨trivial, ?_⟩
  have hkeep : ∀ {t : Heap}, Retains s.state t.state → t.lost = s.lost →
      t.readers = s.readers → Told task k s t :=
    fun hretains hlost => hk.keep (stays_of_retains hretains hlost)
  have hrefl : Retains s.state s.state := fun _ hname => hname
  cases access with
  | lockSetup | lockMutation =>
      simp only [Heap.handle] at hhandle
      split at hhandle
      · cases hhandle
      · cases hhandle
        exact hkeep hrefl rfl rfl
  | unlockMutation | peek | listKeys =>
      cases hhandle
      exact hkeep hrefl rfl rfl
  | unlockSetup complete =>
      cases hhandle
      refine hkeep (fun name hname => ?_) rfl rfl
      cases complete <;> exact hname
  | record mutation =>
      cases hhandle
      exact hkeep (fun _ hname => hname) rfl rfl
  | resetSetup =>
      simp only [Heap.handle] at hhandle
      split at hhandle
      · cases hhandle
      · cases hhandle
        exact hkeep (fun _ hname => hname) rfl rfl
  | seed name items =>
      simp only [Heap.handle] at hhandle
      split at hhandle
      · cases hhandle
      · cases hhandle
        exact (hk.keep (stays_created
          (retains_seed s.clock name items s.state)).1 rfl).result
            (found_seed items)
  | create name =>
      simp only [Heap.handle] at hhandle
      split at hhandle
      · cases hhandle
      · cases hhandle
        exact told_created hk name
  | validateTtl seconds =>
      cases hhandle
      exact (hkeep hrefl rfl rfl).result (found_validateTtl seconds)
  | stamp value ttl =>
      cases hhandle
      exact Told.result (hk.keep (stays_of_retains
        (retains_stamp s.clock value ttl s.state) rfl) rfl)
          (found_stamp value ttl)
  | stampMany values ttl =>
      cases hhandle
      exact Told.result (hk.keep (stays_of_retains
        (retains_stampMany s.clock values ttl s.state) rfl) rfl)
          (found_stampMany values ttl)
  | find name =>
      have hpresent := hk.created name hmay hok
      have hfound : (s.state.collection name).isSome = true := hpresent
      simp only [Heap.handle] at hhandle
      rw [if_pos hfound] at hhandle
      cases hhandle
      exact told_found hk hpresent
  | leave name =>
      cases hhandle
      exact told_left hk name
  | perform action =>
      simp only [Heap.handle] at hhandle
      split at hhandle
      · cases hhandle
      · rename_i hfree
        cases hhandle
        exact told_performed hk hmay hfree
  | clear =>
      simp only [Heap.handle] at hhandle
      split at hhandle
      · rename_i hfree
        cases hhandle
        exact told_cleared hk hfree
      · cases hhandle

theorem silent_happen :
    Pool.Silent Heap.happen (fun _ => True) Valid := by
  intro later s s' _ hhappen
  simp only [Heap.happen] at hhappen
  split at hhappen
  · cases hhappen
    exact ⟨trivial, fun task k hk => ⟨hk.created, hk.held, hk.missed⟩⟩
  · cases hhappen

theorem handleEmpty_eq {access : Access}
    (hfound : ∀ name, access = .find name → s.present name = true) :
    Heap.handleEmpty config rng task order access s =
      Heap.handle config rng task order access s := by
  cases access with
  | find name =>
      have hpresent : (s.state.collection name).isSome = true :=
        hfound name rfl
      have hsame : s.state.ensureCollection name = s.state := by
        obtain ⟨col, hcol⟩ := Option.isSome_iff_exists.mp hpresent
        simp only [MemoryState.ensureCollection, hcol]
      simp only [Heap.handleEmpty, Heap.handle, hsame]
      rw [if_pos hpresent]
  | _ => rfl

end Steps

/-! ## Whole runs -/

section Runs

variable {config : MemoryConfig} {rng : Nat → Option Revision}
  {pool : ThreadPool}

abbrev Good (pool : ThreadPool) : Prop :=
  Pool.Good Known.learn May (fun _ k result => NotFound result → k.missed)
    .blank (fun _ => True) Valid pool

theorem stepEmpty_eq {label : Pool.Label ThreadCall Order DateTime}
    (h : Good pool) (hallowed : Pool.Allows Undestroyed pool label) :
    step config rng pool label = stepEmpty config rng pool label := by
  cases label with
  | start task call | outside event => rfl
  | advance task order =>
      simp only [step, stepEmpty, Pool.step]
      split
      · rename_i call access next htask
        obtain ⟨k, hk, hmay, -⟩ := h.tasks task call _ htask
        have hok : Undestroyed pool.shared task access :=
          hallowed task order access rfl (by rw [Pool.next, htask])
        have hsame := @handleEmpty_eq config rng task order pool.shared access
          fun name hname => by
            subst hname
            exact hk.created name hmay hok
        rw [hsame]
      · rfl

variable (config rng) in
theorem lookups_never_missing : NeverMissing config rng Undestroyed := by
  intro state clock labels pool hrun hallowed
  have hstart : Good (Pool.idle (Heap.start state clock)) :=
    Pool.good_idle trivial fun task => valid_blank task _
  have hstep : ∀ pool label pool', Good pool →
      Pool.Allows Undestroyed pool label →
      step config rng pool label = some pool' → Good pool' :=
    fun pool label pool' hgood hok hstep =>
      hgood.step (fun call => respects_program call) sound_undestroyed
        silent_happen hok hstep
  constructor
  · rw [← hrun]
    exact (run_congr (along_of_invariant hstep
      (fun pool label hgood hok => stepEmpty_eq hgood hok) hstart
      hallowed)).symm
  · intro task call result htask hnot
    obtain ⟨k, hk, hpost⟩ :=
      (run_invariant hstep hstart hallowed hrun).result htask
    exact hk.missed (hpost hnot)

end Runs

section Overtaken

def plain : MemoryConfig := ⟨none, "c", none⟩

abbrev started : ThreadPool :=
  Pool.idle (Heap.start .empty .epoch)

def destroyedBetween : List (Pool.Label ThreadCall Order DateTime) :=
  .start 0 (.put "k" .null none none) :: .replicate 8 (.advance 0 .stored) ++
    .start 1 (.get "k" none) :: .replicate 2 (.advance 1 .stored) ++
    .start 2 (.destroyCollection "c") :: .replicate 6 (.advance 2 .stored) ++
    .replicate 4 (.advance 1 .stored)

def resultOf (pool : ThreadPool) (task : Nat) :
    Option (Except Error Response) :=
  match pool.tasks task with
  | some (_, .done result) => some result
  | _ => none

/-- The `get` finds the collection, which it has created again, without its
entry. -/
theorem lookups_never_missing_get :
    ∃ pool, run (stepEmpty plain fun _ => some (.fill 0)) started
        destroyedBetween = some pool ∧
      resultOf pool 1 = some (.ok (.value none)) ∧
      ∀ task call result, pool.tasks task = some (call, .done result) →
        ¬ NotFound result := by
  have hallowed : Along (step plain fun _ => some (.fill 0))
      (Pool.Allows Undestroyed) started destroyedBetween := by decide +kernel
  have hruns : (run (step plain fun _ => some (.fill 0)) started
      destroyedBetween).map (fun pool => resultOf pool 1) =
        some (some (.ok (.value none))) := by decide +kernel
  obtain ⟨pool, hrun, hresult⟩ := Option.map_eq_some_iff.mp hruns
  obtain ⟨hempty, hfound⟩ := lookups_never_missing plain
    (fun _ => some (.fill 0)) .empty .epoch destroyedBetween pool hrun hallowed
  exact ⟨pool, hempty, hresult, hfound⟩

/-- A `get` has created its collection, which is destroyed before the `get`
looks it up. -/
theorem lookup_of_destroyed :
    ¬ NeverMissing plain (fun _ => none) fun _ _ _ => True := by
  intro hnever
  obtain ⟨-, hfound⟩ := hnever .empty .epoch
    [.start 0 (.get "k" none), .advance 0 .stored, .advance 0 .stored,
      .advance 0 .stored, .start 1 (.destroyCollection "c"),
      .advance 1 .stored, .advance 1 .stored, .advance 1 .stored,
      .advance 1 .stored, .advance 0 .stored] _ rfl
    (along_of_at_step fun _ _ _ _ _ _ _ _ _ _ _ => trivial)
  exact hfound 0 _ _ rfl ⟨"c", rfl⟩

end Overtaken

end OpenKeyV.Memory.Threads
