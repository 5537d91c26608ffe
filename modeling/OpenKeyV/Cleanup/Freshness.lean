import OpenKeyV.Cleanup.Runs

/-!
# Cleanup spares what is fresh, while no put comes between

The last entry written to an object stands there until it has expired, as
long as no delete is disturbed by a put after the read that it follows.
-/

namespace OpenKeyV.Cleanup

open Library Library.Interaction

variable {Address Doc ω : Type} {store : ObjectStore Address Doc}

/-! ## The invariant -/

structure Ordered (store : ObjectStore Address Doc)
    (s : Server Address Doc) : Prop where
  seen : ∀ task a, s.seen task a ≤ (s.log a).length
  last : ∀ a writer doc rest, s.log a = (writer, doc) :: rest →
    store.Expired a doc s.clock ∨ s.objects a = some doc

/-- What a call has learned was true, and still is as far as nobody has
written since. -/
structure Valid (task : Nat) (k : Known Address Doc)
    (s : Server Address Doc) : Prop where
  clock : ∀ now, k.clock = some now → now ≤ s.clock
  held : ∀ a doc, k.held a = some (some doc) →
    (s.log a).length = s.seen task a →
    s.objects a = none ∨ s.objects a = some doc
  wrote : ∀ a doc, (task, doc) ∈ s.log a → k.wrote = some (a, doc)

theorem ordered_fresh (clock : DateTime) (objects : Address → Option Doc) :
    Ordered store (Server.fresh clock objects) := by
  constructor
  · exact fun _ _ => Nat.le_refl 0
  · intro _ _ _ _ hlog
    cases hlog

theorem valid_blank (task : Nat) (clock : DateTime)
    (objects : Address → Option Doc) :
    Valid task Known.blank (Server.fresh clock objects) := by
  constructor
  · intro _ hclock
    cases hclock
  · intro _ _ hheld
    cases hheld
  · intro _ _ hmem
    cases hmem

section Steps

variable {task other : Nat} {k m : Known Address Doc}
  {s : Server Address Doc} {a : Address} {doc : Doc}

theorem Valid.expired (h : Valid task k s) (hmay : May store k (.delete a))
    (hok : Undisturbed store s task (.delete a))
    (hdoc : s.objects a = some doc) : store.Expired a doc s.clock := by
  obtain ⟨found, now, hheld, hnow, hexpired⟩ := hmay
  rcases hok with hseen | hgone
  · rcases h.held a found hheld hseen with hnone | hsome
    · rw [hdoc] at hnone
      cases hnone
    · rw [hdoc] at hsome
      cases hsome
      exact hexpired.mono (h.clock now hnow)
  · exact hgone doc hdoc

variable [DecidableEq Address]

theorem Ordered.read (h : Ordered store s) (task : Nat) (a : Address) :
    Ordered store (s.seenBy task a) := by
  refine ⟨fun other b => ?_, h.last⟩
  have hseen := h.seen other b
  by_cases hb : b = a
  · subst hb
    by_cases hother : other = task
    · subst hother
      simp
    · rwa [Server.seenBy_seen_other hother]
  · rwa [Server.seenBy_seen_of_ne hb]

theorem Valid.read (h : Valid task k s) (a : Address) :
    Valid task (k.learn (.read a) (s.objects a)) (s.seenBy task a) := by
  refine ⟨h.clock, fun b doc hheld hseen => ?_, h.wrote⟩
  by_cases hb : b = a
  · subst hb
    simp only [Known.learn, Function.update_self, Option.some.injEq] at hheld
    exact .inr hheld
  · simp only [Known.learn, Function.update_of_ne hb] at hheld
    rw [Server.seenBy_seen_of_ne hb] at hseen
    exact h.held b doc hheld hseen

theorem Valid.read_other (h : Valid other m s) (hother : other ≠ task)
    (a : Address) : Valid other m (s.seenBy task a) := by
  refine ⟨h.clock, fun b doc hheld hseen => ?_, h.wrote⟩
  rw [Server.seenBy_seen_other hother] at hseen
  exact h.held b doc hheld hseen

theorem Ordered.write (h : Ordered store s) (task : Nat) (a : Address)
    (doc : Doc) : Ordered store (s.written task a doc) := by
  constructor
  · intro other b
    have hseen := h.seen other b
    by_cases hb : b = a
    · subst hb
      simp only [Server.written_seen, Server.written_log_self,
        List.length_cons]
      omega
    · rwa [Server.written_log_of_ne hb]
  · intro b writer other rest hlog
    by_cases hb : b = a
    · subst hb
      rw [Server.written_log_self] at hlog
      cases hlog
      exact .inr Server.written_objects_self
    · rw [Server.written_log_of_ne hb] at hlog
      rw [Server.written_objects_of_ne hb]
      exact h.last b writer other rest hlog

theorem Valid.held_written (hs : Ordered store s) (h : Valid other m s)
    {b : Address} {found : Doc} (hheld : m.held b = some (some found))
    (hseen : ((s.written task a doc).log b).length = s.seen other b) :
    (s.written task a doc).objects b = none ∨
      (s.written task a doc).objects b = some found := by
  by_cases hb : b = a
  · subst hb
    have hle := hs.seen other b
    rw [Server.written_log_self, List.length_cons] at hseen
    omega
  · rw [Server.written_log_of_ne hb] at hseen
    rw [Server.written_objects_of_ne hb]
    exact h.held b found hheld hseen

theorem Valid.write (hs : Ordered store s) (h : Valid task k s)
    (hfirst : k.wrote = none) (a : Address) (doc : Doc) :
    Valid task (k.learn (.write a doc) ()) (s.written task a doc) := by
  refine ⟨h.clock, fun _ _ => h.held_written hs, fun b found hmem => ?_⟩
  have hold : (task, found) ∉ s.log b := by
    intro hlog
    have hwrote := h.wrote b found hlog
    rw [hfirst] at hwrote
    cases hwrote
  by_cases hb : b = a
  · subst hb
    rw [Server.written_log_self, List.mem_cons] at hmem
    rcases hmem with heq | hlog
    · cases heq
      rfl
    · exact absurd hlog hold
  · rw [Server.written_log_of_ne hb] at hmem
    exact absurd hmem hold

theorem Valid.write_other (hs : Ordered store s) (h : Valid other m s)
    (hother : other ≠ task) (a : Address) (doc : Doc) :
    Valid other m (s.written task a doc) := by
  refine ⟨h.clock, fun _ _ => h.held_written hs, fun b found hmem => ?_⟩
  by_cases hb : b = a
  · subst hb
    rw [Server.written_log_self, List.mem_cons] at hmem
    rcases hmem with heq | hlog
    · cases heq
      exact absurd rfl hother
    · exact h.wrote b found hlog
  · rw [Server.written_log_of_ne hb] at hmem
    exact h.wrote b found hmem

theorem Ordered.delete (hs : Ordered store s) (h : Valid task k s)
    (hmay : May store k (.delete a))
    (hok : Undisturbed store s task (.delete a)) :
    Ordered store (s.removed a) := by
  refine ⟨hs.seen, fun b writer doc rest hlog => ?_⟩
  rcases hs.last b writer doc rest hlog with hexpired | hdoc
  · exact .inl hexpired
  · by_cases hb : b = a
    · subst hb
      exact .inl (h.expired hmay hok hdoc)
    · rw [Server.removed_objects_of_ne hb]
      exact .inr hdoc

theorem Valid.delete (h : Valid other m s) (a : Address) :
    Valid other m (s.removed a) := by
  refine ⟨h.clock, fun b found hheld hseen => ?_, h.wrote⟩
  by_cases hb : b = a
  · subst hb
    exact .inl Server.removed_objects_self
  · rw [Server.removed_objects_of_ne hb]
    exact h.held b found hheld hseen

end Steps

variable [DecidableEq Address]

/-! ## One step -/

theorem sound_undisturbed :
    Pool.Sound Server.handle Known.learn (May store) (Ordered store) Valid
      (Undisturbed store) := by
  intro task page access s answer s' k hs hk hmay hok hhandle
  cases access with
  | read a =>
      cases hhandle
      exact ⟨hs.read task a, hk.read a,
        fun other m hother hm => hm.read_other hother a⟩
  | write a doc =>
      cases hhandle
      exact ⟨hs.write task a doc, hk.write hs hmay a doc,
        fun other m hother hm => hm.write_other hs hother a doc⟩
  | delete a =>
      cases hhandle
      exact ⟨hs.delete hk hmay hok, hk.delete a,
        fun other m _ hm => hm.delete a⟩
  | now =>
      cases hhandle
      refine ⟨hs, ⟨fun now hnow => ?_, hk.held, hk.wrote⟩, fun _ _ _ hm => hm⟩
      cases hnow
      exact Int.le_refl _
  | list continuation =>
      cases hhandle
      exact ⟨hs, hk, fun _ _ _ hm => hm⟩

omit [DecidableEq Address] in
theorem happen_eq_some {later : DateTime} {s s' : Server Address Doc}
    (h : s.happen later = some s') :
    s.clock ≤ later ∧ s' = { s with clock := later } := by
  rw [Server.happen] at h
  split at h
  · rename_i hle
    cases h
    exact ⟨hle, rfl⟩
  · cases h

omit [DecidableEq Address] in
theorem silent_happen :
    Pool.Silent Server.happen (Ordered store) Valid := by
  intro later s s' hs hhappen
  obtain ⟨hle, rfl⟩ := happen_eq_some hhappen
  refine ⟨⟨hs.seen, fun a writer doc rest hlog => ?_⟩, fun task k hk =>
    ⟨fun now hnow => Int.le_trans (hk.clock now hnow) hle, hk.held, hk.wrote⟩⟩
  exact (hs.last a writer doc rest hlog).imp_left fun h => h.mono hle

/-! ## A reader of the last entry -/

section Reader

variable {reader writer : Nat} {a : Address} {doc : Doc}
  {rest : List (Nat × Doc)}

def Since (a : Address) (log : List (Nat × Doc)) (s : Server Address Doc) :
    Prop :=
  ∃ more, s.log a = more ++ log

def Finds (store : ObjectStore Address Doc) (reader : Nat) (a : Address)
    (doc : Doc) (log : List (Nat × Doc)) (task : Nat)
    (k : Known Address Doc) (s : Server Address Doc) : Prop :=
  task = reader → s.log a = log → ∀ found, k.held a = some found →
    found = some doc ∨ store.Expired a doc s.clock

theorem sound_reader (hlog : rest = (writer, doc) :: rest.tail) :
    Pool.Sound Server.handle Known.learn (May store)
      (fun s => Ordered store s ∧ Since a rest s)
      (fun task k s => Valid task k s ∧
        Finds store reader a doc rest task k s)
      (Undisturbed store) := by
  intro task page access s answer s' k ⟨hs, hsince⟩ ⟨hk, hfinds⟩ hmay hok
    hhandle
  obtain ⟨hs', hk', hothers⟩ := sound_undisturbed task page access s answer
    s' k hs hk hmay hok hhandle
  have hothers' : (∀ other m, Finds store reader a doc rest other m s →
      Finds store reader a doc rest other m s') →
      ∀ other m, other ≠ task →
        Valid other m s ∧ Finds store reader a doc rest other m s →
        Valid other m s' ∧ Finds store reader a doc rest other m s' :=
    fun hfinds other m hother hm =>
      ⟨hothers other m hother hm.1, hfinds other m hm.2⟩
  cases access with
  | read b =>
      cases hhandle
      refine ⟨⟨hs', hsince⟩, ⟨hk', fun htask hsame found hheld => ?_⟩,
        hothers' fun _ _ hm => hm⟩
      by_cases hb : a = b
      · subst hb
        simp only [Known.learn, Function.update_self,
          Option.some.injEq] at hheld
        subst hheld
        exact (hs.last a writer doc rest.tail (hsame.trans hlog)).symm
      · simp only [Known.learn, Function.update_of_ne hb] at hheld
        exact hfinds htask hsame found hheld
  | write b other =>
      cases hhandle
      by_cases hb : a = b
      · subst hb
        obtain ⟨more, hmore⟩ := hsince
        have hlog' : (s.written task a other).log a =
            (task, other) :: more ++ rest := by
          rw [Server.written_log_self, hmore, List.cons_append]
        have hchanged : ∀ reading m, Finds store reader a doc rest reading m
            (s.written task a other) := by
          intro _ _ _ hsame
          have hlength := congrArg List.length (hlog'.symm.trans hsame)
          simp only [List.length_append, List.length_cons] at hlength
          omega
        exact ⟨⟨hs', _, hlog'⟩, ⟨hk', hchanged _ _⟩,
          hothers' fun _ _ _ => hchanged _ _⟩
      · have hsame : (s.written task b other).log a = s.log a :=
          Server.written_log_of_ne hb
        refine ⟨⟨hs', ?_⟩, ⟨hk', ?_⟩, hothers' fun _ m hm => ?_⟩
        · obtain ⟨more, hmore⟩ := hsince
          exact ⟨more, hsame.trans hmore⟩
        · exact fun htask hnow => hfinds htask (hsame.symm.trans hnow)
        · exact fun htask hnow => hm htask (hsame.symm.trans hnow)
  | delete b =>
      cases hhandle
      exact ⟨⟨hs', hsince⟩, ⟨hk', hfinds⟩, hothers' fun _ _ hm => hm⟩
  | now =>
      cases hhandle
      exact ⟨⟨hs', hsince⟩, ⟨hk', hfinds⟩, hothers' fun _ _ hm => hm⟩
  | list continuation =>
      cases hhandle
      exact ⟨⟨hs', hsince⟩, ⟨hk', hfinds⟩, hothers' fun _ _ hm => hm⟩

end Reader

/-! ## Whole runs -/

section Run

variable {maintain : ω → Requests Address Doc Unit}
  {pool pool' : CallPool Address Doc ω} {reader writer : Nat}
  {a : Address} {doc : Doc} {rest : List (Nat × Doc)}

abbrev GoodPool (store : ObjectStore Address Doc)
    (pool : CallPool Address Doc ω) : Prop :=
  Pool.Good Known.learn (May store) (Post store) Known.blank (Ordered store)
    Valid pool

theorem good_watch (h : GoodPool store pool)
    (hfree : pool.tasks reader = none) (hlog : pool.shared.log a = rest) :
    Pool.Good Known.learn (May store) (Post store) Known.blank
      (fun s => Ordered store s ∧ Since a rest s)
      (fun task k s => Valid task k s ∧
        Finds store reader a doc rest task k s) pool := by
  refine ⟨⟨h.shared, [], hlog⟩, fun task htask => ⟨h.free task htask, ?_⟩,
    fun task call tree htask => ?_⟩
  · intro _ _ _ hheld
    cases hheld
  · obtain ⟨k, hk, htree⟩ := h.tasks task call tree htask
    refine ⟨k, ⟨hk, fun hsame => ?_⟩, htree⟩
    rw [hsame, hfree] at htask
    cases htask

theorem good_run (hmaintain : ∀ operation k,
      Respecting store (fun _ _ => True) k (maintain operation).run)
    {clock : DateTime} {objects : Address → Option Doc}
    {labels : List (Pool.Label (Call ω) (Listing Address) DateTime)}
    (hallowed : Along (step store maintain) (Pool.Allows (Undisturbed store))
      (Pool.idle (Server.fresh clock objects)) labels)
    (hrun : run (step store maintain)
      (Pool.idle (Server.fresh clock objects)) labels = some pool) :
    GoodPool store pool :=
  (Pool.good_idle (ordered_fresh clock objects) fun task =>
    valid_blank task clock objects).run (respects_program hmaintain)
      sound_undisturbed silent_happen hallowed hrun

omit [DecidableEq Address] in
theorem silent_reader :
    Pool.Silent Server.happen
      (fun s => Ordered store s ∧ Since a rest s)
      (fun task k s => Valid task k s ∧
        Finds store reader a doc rest task k s) := by
  intro later s s' ⟨hs, hsince⟩ hhappen
  obtain ⟨hs', hvalid⟩ := silent_happen later s s' hs hhappen
  obtain ⟨hle, rfl⟩ := happen_eq_some hhappen
  refine ⟨⟨hs', hsince⟩, fun task k hk => ⟨hvalid task k hk.1, ?_⟩⟩
  intro htask hsame found hheld
  exact (hk.2 htask hsame found hheld).imp_right fun h => h.mono hle

theorem spares_undisturbed (hmaintain : ∀ operation k,
      Respecting store (fun _ _ => True) k (maintain operation).run) :
    Spares (Undisturbed store) store maintain := by
  intro clock objects before after pool pool' writer reader key value
    collection ttl a doc rest result hstorable hbefore hwriter hlog hafter
    hallowed hreader hlast hfresh
  obtain ⟨hfirst, hsecond⟩ := along_append.mp hallowed
  have hgood := good_run hmaintain hfirst hbefore
  -- the put has written what stands in the log
  obtain ⟨m, hm, b, now, entry, haddress, hentry, hwrote⟩ :=
    hgood.result hwriter
  have hmem : (writer, doc) ∈ pool.shared.log a := by
    rw [hlog]
    exact List.mem_cons_self ..
  rw [hm.wrote a doc hmem] at hwrote
  cases hwrote
  have hdecode := store.fromDoc_toDoc (store.collectionName collection) key a
    entry ((ManagedEntry.value_of_ofTtl hentry).symm ▸ hstorable)
  -- the reader has read it
  obtain ⟨started, hstart, _⟩ := run_cons_eq_some.mp hafter
  have hend := (good_watch hgood (Pool.step_start hstart).1 hlog).run
    (respects_program hmaintain) (sound_reader rfl) silent_reader
    (hsecond pool hbefore) hafter
  obtain ⟨k, ⟨hk, hfinds⟩, hpost⟩ := hend.result hreader
  obtain ⟨found, hfound, hresult⟩ := hpost a haddress
  have hsome := (hfinds rfl hlast found hfound).resolve_right hfresh
  obtain ⟨time, htime, rfl⟩ := hresult _ _ hsome hdecode
  have hlive : entry.truncMillis.isExpired time = false := by
    rw [Bool.eq_false_iff]
    intro hexpired
    exact hfresh ⟨_, key, _, hdecode,
      ManagedEntry.isExpired_mono (hk.clock time htime) hexpired⟩
  rw [hlive, ← ManagedEntry.value_of_ofTtl hentry]
  rfl

end Run

def noMaintenance : Empty → Requests Address Doc Unit := fun operation =>
  nomatch operation

/-- In the four stores an entry that a put has written is read back until it
expires, as long as no lazy delete is overtaken by a put. -/
theorem cleanup_spares_fresh (debug : String → String)
    (defaultCollection indexPrefix mountPoint documentsPath : String) :
    Spares (Undisturbed (s3Store defaultCollection))
        (s3Store defaultCollection) S3.cull ∧
      Spares
        (Undisturbed (openSearchStore debug defaultCollection indexPrefix))
        (openSearchStore debug defaultCollection indexPrefix) noMaintenance ∧
      Spares (Undisturbed (vaultStore defaultCollection mountPoint))
        (vaultStore defaultCollection mountPoint) noMaintenance ∧
      Spares (Undisturbed (firestoreStore defaultCollection documentsPath))
        (firestoreStore defaultCollection documentsPath) noMaintenance := by
  refine ⟨?_, ?_, ?_, ?_⟩
  · exact spares_undisturbed fun pages k =>
      respects_cullPages defaultCollection pages none k
  · exact spares_undisturbed fun operation => nomatch operation
  · exact spares_undisturbed fun operation => nomatch operation
  · exact spares_undisturbed fun operation => nomatch operation

/-! ## A put between a read and its delete -/

section Overtaken

variable {Address Doc ω : Type} {store : ObjectStore Address Doc}
  {maintain : ω → Requests Address Doc Unit} {key : String} {a : Address}

def staleEntry : ManagedEntry := ⟨.null, none, some .epoch⟩

variable (maintain) in
theorem requests_get
    (ha : store.address (store.collectionName none) key = .ok a) :
    ∃ next, program store maintain (.get key none) = .request (.read a) next ∧
      next none = .done (.get (.ok none)) ∧
      ∃ judge, next (some (store.toDoc staleEntry)) = .request .now judge ∧
        ∃ rest, judge .epoch = .request (.delete a) rest := by
  have hstorable : staleEntry.value.Storable := ⟨rfl, by decide⟩
  have hdecode := store.fromDoc_toDoc (store.collectionName none) key a
    staleEntry hstorable
  have hget : program store maintain (.get key none) = Reply.get <$>
      ((store.readEntry (store.collectionName none) key a >>= fun entry =>
        pure (entry.map ManagedEntry.value)).run) := by
    rw [program, ObjectStore.get, ha]
    rfl
  rw [hget]
  refine ⟨_, rfl, rfl, ?_⟩
  change ∃ judge, Reply.get <$> ((attempt _ >>= _ : Requests _ _ _) >>= _ :
    Requests _ _ _).run = _ ∧ _
  rw [hdecode]
  exact ⟨_, rfl, _, rfl⟩

variable (maintain) in
theorem requests_put
    (ha : store.address (store.collectionName none) key = .ok a)
    (value : Value) :
    ∃ next, program store maintain (.put key value none none) =
        .request .now next ∧
      ∃ rest, next .epoch = .request (.write a
          (store.toDoc (ManagedEntry.new .epoch value))) rest ∧
        rest () = .done (.put (.ok ())) := by
  rw [program, ObjectStore.put]
  by_cases hfirst : store.entryFirst = true
  · simp only [hfirst, if_true, ha]
    exact ⟨_, rfl, _, rfl, rfl⟩
  · simp only [hfirst, ha]
    exact ⟨_, rfl, _, rfl, rfl⟩

variable [DecidableEq Address]

theorem overtaken_put_lost
    (ha : store.address (store.collectionName none) key = .ok a) :
    ¬ Spares (fun _ _ _ => True) store maintain := by
  intro hspares
  obtain ⟨next, hget, hmissing, judge, hjudge, rest, hrest⟩ :=
    requests_get maintain ha
  obtain ⟨write, hput, wrote, hwrite, hwrote⟩ :=
    requests_put maintain ha .null
  let page : Listing Address := ⟨[], none, none⟩
  let read : Call ω := .get key none
  let written : Call ω := .put key .null none none
  let doc := store.toDoc (ManagedEntry.new .epoch .null)
  let s₀ : Server Address Doc :=
    .fresh .epoch fun _ => some (store.toDoc staleEntry)
  let s₁ := s₀.seenBy 0 a
  let s₂ := s₁.written 1 a doc
  let s₃ := s₂.removed a
  let p₀ : CallPool Address Doc ω := Pool.idle s₀
  let p₁ := p₀.assign s₀ 0 read (.request (.read a) next)
  let p₂ := p₁.assign s₁ 0 read (.request .now judge)
  let p₃ := p₂.assign s₁ 0 read (.request (.delete a) rest)
  let p₄ := p₃.assign s₁ 1 written (.request .now write)
  let p₅ := p₄.assign s₁ 1 written (.request (.write a doc) wrote)
  let p₆ := p₅.assign s₂ 1 written (.done (.put (.ok ())))
  let p₇ := p₆.assign s₃ 0 read (rest ())
  let p₈ := p₇.assign s₃ 2 read (.request (.read a) next)
  let p₉ := p₈.assign (s₃.seenBy 2 a) 2 read (.done (.get (.ok none)))
  have h₁ : step store maintain p₀ (.start 0 read) = some p₁ :=
    Pool.step_start_of rfl hget
  have h₂ : step store maintain p₁ (.advance 0 page) = some p₂ :=
    Pool.step_advance_of rfl hjudge rfl
  have h₃ : step store maintain p₂ (.advance 0 page) = some p₃ :=
    Pool.step_advance_of rfl hrest rfl
  have h₄ : step store maintain p₃ (.start 1 written) = some p₄ :=
    Pool.step_start_of rfl hput
  have h₅ : step store maintain p₄ (.advance 1 page) = some p₅ :=
    Pool.step_advance_of rfl hwrite rfl
  have h₆ : step store maintain p₅ (.advance 1 page) = some p₆ :=
    Pool.step_advance_of rfl hwrote rfl
  have h₇ : step store maintain p₆ (.advance 0 page) = some p₇ :=
    Pool.step_advance_of rfl rfl rfl
  have h₈ : step store maintain p₇ (.start 2 read) = some p₈ :=
    Pool.step_start_of rfl hget
  have h₉ : step store maintain p₈ (.advance 2 page) = some p₉ := by
    refine Pool.step_advance_of rfl hmissing ?_
    change some (s₃.objects a, s₃.seenBy 2 a) = some (none, s₃.seenBy 2 a)
    rw [Server.removed_objects_self]
  have hbefore : run (step store maintain) p₀ [.start 0 read,
      .advance 0 page, .advance 0 page, .start 1 written, .advance 1 page,
      .advance 1 page, .advance 0 page] = some p₇ := by
    simp only [run_cons_eq_some, run_nil, h₁]
    exact ⟨p₁, rfl, p₂, h₂, p₃, h₃, p₄, h₄, p₅, h₅, p₆, h₆, p₇, h₇, rfl⟩
  have hafter : run (step store maintain) p₇
      [.start 2 read, .advance 2 page] = some p₉ := by
    simp only [run_cons_eq_some, run_nil]
    exact ⟨p₈, h₈, p₉, h₉, rfl⟩
  have hlog : s₃.log a = [(1, doc)] := Server.written_log_self
  have hfresh : ¬ store.Expired a doc .epoch := by
    rintro ⟨collection, key, entry, hentry, hexpired⟩
    rw [store.fromDoc_toDoc _ _ _ _ ⟨rfl, by decide⟩] at hentry
    cases hentry
    cases hexpired
  have hallowed : Along (step store maintain)
      (Pool.Allows fun _ _ _ => True) p₀ ([.start 0 read,
        .advance 0 page, .advance 0 page, .start 1 written, .advance 1 page,
        .advance 1 page, .advance 0 page] ++ [.start 2 read,
        .advance 2 page]) :=
    along_of_at_step fun _ _ _ _ _ _ _ _ _ _ _ => trivial
  have hlost := hspares _ _ _ _ p₇ p₉ 1 2 key .null none none a doc [] _
    ⟨rfl, by decide⟩ hbefore rfl hlog hafter hallowed rfl hlog hfresh
  cases hlost

end Overtaken

/-- Without the condition no store keeps what a put has written: an expired
object is read, a put replaces it, and the delete that follows the read
removes what the put has written. -/
theorem cleanup_loses_fresh :
    ¬ Spares (fun _ _ _ => True) (s3Store "c") S3.cull ∧
      ¬ Spares (fun _ _ _ => True) (openSearchStore String.quote "c" "a")
        noMaintenance ∧
      ¬ Spares (fun _ _ _ => True) (vaultStore "c" "secret") noMaintenance ∧
      ¬ Spares (fun _ _ _ => True) (firestoreStore "c" "documents")
        noMaintenance := by
  refine ⟨?_, ?_, ?_, ?_⟩
  · have ha : S3.s3Key "c" "k" = .ok "okv1/4/MTpj/key/aw" := by
      decide +kernel
    exact overtaken_put_lost ha
  · have ha : (openSearchStore String.quote "c" "a").address "c" "k" =
        .ok ("a-okv1-63", "okv1-aw") := by
      decide +kernel
    exact overtaken_put_lost ha
  · have ha : (vaultStore "c" "secret").address "c" "k" =
        .ok (Vault.secretPath "c" "k") := rfl
    exact overtaken_put_lost ha
  · have ha : Firestore.documentName "documents" "c" "k" =
        .ok ("okv1-Yw", "okv1-aw") := by
      decide +kernel
    exact overtaken_put_lost ha

end OpenKeyV.Cleanup
