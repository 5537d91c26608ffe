import OpenKeyV.Python.Transforming
import Mathlib.Data.List.Forall2

/-!
# Stacks of transforming wrappers

A store that returns what was put still does so below a stack of
`CompressionWrapper`s and `BaseEncryptionWrapper`s, for the values that the
stack carries.
-/

namespace OpenKeyV.Python

/-- The value under each key; nothing and a stored `None` read the same. -/
abbrev Contents := Place → PyValue

namespace Contents

def empty : Contents := fun _ => .none

def read (contents : Contents) (collection : Option String) (key : String) :
    PyValue :=
  contents (collection, key)

def putAll (collection : Option String) :
    List (String × PyValue) → Contents → Contents
  | [], contents => contents
  | (key, value) :: items, contents =>
      putAll collection items
        (Function.update contents (collection, key) value)

def deleteAll (collection : Option String) :
    List String → Contents → Contents
  | [], contents => contents
  | key :: keys, contents =>
      deleteAll collection keys
        (Function.update contents (collection, key) .none)

def after (contents : Contents) : Op → Contents
  | .put key value collection _ =>
      Function.update contents (collection, key) value
  | .putMany keys values collection _ =>
      if keys.length = values.length then
        contents.putAll collection (keys.zip values)
      else contents
  | .delete key collection =>
      Function.update contents (collection, key) .none
  | .deleteMany keys collection => contents.deleteAll collection keys
  | _ => contents

/-- The reply of a store with these contents; lifetimes and the results of
deletions are left open. -/
def Right (contents : Contents) (reply : Except PyError Reply) : Op → Prop
  | .get key collection => reply = .ok (.value (contents.read collection key))
  | .getMany keys collection =>
      reply = .ok (.values (keys.map (contents.read collection)))
  | .ttl key collection =>
      ∃ ttl, reply = .ok (.ttl (contents.read collection key) ttl)
  | .ttlMany keys collection => ∃ pairs, reply = .ok (.ttls pairs) ∧
      pairs.map Prod.fst = keys.map (contents.read collection)
  | .put .. => reply = .ok .unit
  | .putMany keys values _ _ =>
      if keys.length = values.length then reply = .ok .unit
      else ∃ error, reply = .error error
  | .delete .. => ∃ deleted, reply = .ok (.flag deleted)
  | .deleteMany .. => ∃ deleted, reply = .ok (.count deleted)

end Contents

def Op.Puts (values : PyValue → Prop) (lifetimes : Option F64 → Prop) :
    Op → Prop
  | .put _ value _ lifetime => values value ∧ lifetimes lifetime
  | .putMany _ written _ lifetime => (∀ value ∈ written, values value) ∧
      lifetimes lifetime
  | _ => True

def Op.isPut : Op → Bool
  | .put .. => true
  | .putMany .. => true
  | _ => false

section Returning

variable {σ : Type}

def Answers (store : KeyValue σ) : Contents → σ → List Op → Prop
  | _, _, [] => True
  | contents, s, op :: ops => contents.Right (store op s).1 op ∧
      Answers store (contents.after op) (store op s).2 ops

/-- The store starts empty and returns what was put, for puts of these values
with these lifetimes. -/
def Returns (store : KeyValue σ) (s : σ) (values : PyValue → Prop)
    (lifetimes : Option F64 → Prop) : Prop :=
  ∀ ops, (∀ op ∈ ops, op.Puts values lifetimes) →
    Answers store .empty s ops

end Returning

section Stacked

variable {σ : Type} (codecs : Codecs)

def encodeAll : List Layer → PyValue → Except PyError PyValue
  | [], value => .ok value
  | layer :: layers, value => do
      let value ← layer.encode codecs value
      encodeAll layers value

def decodeAll : List Layer → PyValue → Except PyError PyValue
  | [], value => .ok value
  | layer :: layers, value => do
      let value ← decodeAll layers value
      layer.decode codecs value

/-- A value is written without an error and read back as it was. -/
def Carries (layers : List Layer) (value : PyValue) : Prop :=
  ∃ encoded, encodeAll codecs layers value = .ok encoded ∧
    decodeAll codecs layers encoded = .ok value

/-- What lies below the stack reads as the contents above it. -/
def Under (layers : List Layer) (inner outer : Contents) : Prop :=
  ∀ place, decodeAll codecs layers (inner place) = .ok (outer place)

variable {codecs} {layers : List Layer} {layer : Layer} {store : KeyValue σ}
  {inner outer : Contents} {s : σ} {op : Op}

theorem decode_none (layer : Layer) :
    layer.decode codecs .none = .ok .none := by
  cases layer <;> rfl

theorem decodeAll_none (layers : List Layer) :
    decodeAll codecs layers .none = .ok .none := by
  induction layers with
  | nil => rfl
  | cons layer layers ih =>
      simp only [decodeAll, ih, bind, Except.bind, decode_none]

theorem under_empty : Under codecs layers .empty .empty :=
  fun _ => decodeAll_none layers

theorem under_update {encoded value : PyValue} {place : Place}
    (h : Under codecs layers inner outer)
    (hvalue : decodeAll codecs layers encoded = .ok value) :
    Under codecs layers (Function.update inner place encoded)
      (Function.update outer place value) := by
  intro other
  by_cases heq : other = place
  · subst heq
    rw [Function.update_self, Function.update_self, hvalue]
  · rw [Function.update_of_ne heq, Function.update_of_ne heq, h other]

theorem under_deleteAll {collection : Option String} {keys : List String}
    (h : Under codecs layers inner outer) :
    Under codecs layers (inner.deleteAll collection keys)
      (outer.deleteAll collection keys) := by
  induction keys generalizing inner outer with
  | nil => exact h
  | cons key keys ih => exact ih (under_update h (decodeAll_none layers))

theorem under_putAll {collection : Option String} {keys : List String}
    {values encoded : List PyValue}
    (hvalues : List.Forall₂
      (fun value encoded => decodeAll codecs layers encoded = .ok value)
      values encoded) (h : Under codecs layers inner outer) :
    Under codecs layers (inner.putAll collection (keys.zip encoded))
      (outer.putAll collection (keys.zip values)) := by
  induction hvalues generalizing keys inner outer with
  | nil =>
      rw [List.zip_nil_right]
      exact h
  | cons hvalue _ ih =>
      cases keys with
      | nil => exact h
      | cons key keys => exact ih (under_update h hvalue)

theorem under_cons (h : Under codecs (layer :: layers) inner outer) :
    ∃ middle : Contents, Under codecs layers inner middle ∧
      ∀ place, layer.decode codecs (middle place) = .ok (outer place) := by
  have hplace : ∀ place, ∃ value,
      decodeAll codecs layers (inner place) = .ok value ∧
        layer.decode codecs value = .ok (outer place) :=
    fun place => bind_eq_ok.mp (h place)
  choose middle hmiddle using hplace
  exact ⟨middle, fun place => (hmiddle place).1,
    fun place => (hmiddle place).2⟩

theorem mapM_of_forall₂ {α β : Type} {f : α → Except PyError β} {as : List α}
    {bs : List β} (h : List.Forall₂ (fun a b => f a = .ok b) as bs) :
    as.mapM f = .ok bs := by
  induction h with
  | nil => rfl
  | cons hfirst _ ih =>
      simp only [List.mapM_cons, hfirst, ih, bind, Except.bind, pure,
        Except.pure]

theorem mapM_reads {decode : PyValue → Except PyError PyValue}
    (hdecode : ∀ place, decode (inner place) = .ok (outer place))
    (collection : Option String) (keys : List String) :
    (keys.map (inner.read collection)).mapM decode =
      .ok (keys.map (outer.read collection)) := by
  apply mapM_of_forall₂
  rw [List.forall₂_map_left_iff, List.forall₂_map_right_iff,
    List.forall₂_same]
  exact fun key _ => hdecode (collection, key)

theorem mapM_pairs {decode : PyValue → Except PyError PyValue}
    (hdecode : ∀ place, decode (inner place) = .ok (outer place))
    {collection : Option String} {keys : List String}
    {pairs : List (PyValue × Option F64)}
    (h : pairs.map Prod.fst = keys.map (inner.read collection)) :
    ∃ decoded, pairs.mapM (decodePair decode) = .ok decoded ∧
      decoded.map Prod.fst = keys.map (outer.read collection) := by
  induction keys generalizing pairs with
  | nil =>
      rw [List.map_nil, List.map_eq_nil_iff] at h
      exact ⟨[], by rw [h]; rfl, rfl⟩
  | cons key keys ih =>
      obtain ⟨pair, rest, rfl, hpair, hrest⟩ := List.map_eq_cons_iff.mp h
      obtain ⟨decoded, hdecoded, hread⟩ := ih hrest
      refine ⟨(outer.read collection key, pair.2) :: decoded, ?_,
        by rw [List.map_cons, hread, List.map_cons]⟩
      have hfirst : decodePair decode pair =
          .ok (outer.read collection key, pair.2) := by
        rw [decodePair, hpair, Contents.read, hdecode]
        rfl
      simp only [List.mapM_cons, hfirst, hdecoded, bind, Except.bind, pure,
        Except.pure]

theorem wrapValues_right {encode decode : PyValue → Except PyError PyValue}
    (hop : op.isPut = false) (hright : inner.Right (store op s).1 op)
    (hdecode : ∀ place, decode (inner place) = .ok (outer place)) :
    outer.Right (wrapValues encode decode store op s).1 op ∧
      (wrapValues encode decode store op s).2 = (store op s).2 := by
  cases op with
  | put | putMany => cases hop
  | get key collection =>
      refine ⟨?_, rfl⟩
      simp only [Contents.Right] at hright ⊢
      simp only [wrapValues, hright, Except.bind, decodeReply, bind, pure,
        Except.pure, Contents.read, hdecode]
  | getMany keys collection =>
      refine ⟨?_, rfl⟩
      simp only [Contents.Right] at hright ⊢
      simp only [wrapValues, hright, Except.bind, decodeReply, bind, pure,
        Except.pure, mapM_reads hdecode]
  | ttl key collection =>
      refine ⟨?_, rfl⟩
      obtain ⟨ttl, hreply⟩ := hright
      refine ⟨ttl, ?_⟩
      simp only [wrapValues, hreply, Except.bind, decodeReply, bind, pure,
        Except.pure, Contents.read, hdecode]
  | ttlMany keys collection =>
      refine ⟨?_, rfl⟩
      obtain ⟨pairs, hreply, hpairs⟩ := hright
      obtain ⟨decoded, hdecoded, hread⟩ := mapM_pairs hdecode hpairs
      refine ⟨decoded, ?_, hread⟩
      simp only [wrapValues, hreply, Except.bind, decodeReply, bind, pure,
        Except.pure, hdecoded]
  | delete key collection =>
      obtain ⟨deleted, hreply⟩ := hright
      exact ⟨⟨deleted, by simp only [wrapValues, hreply]; rfl⟩, rfl⟩
  | deleteMany keys collection =>
      obtain ⟨deleted, hreply⟩ := hright
      exact ⟨⟨deleted, by simp only [wrapValues, hreply]; rfl⟩, rfl⟩

theorem stacked_right (hop : op.isPut = false)
    (hright : inner.Right (store op s).1 op)
    (h : Under codecs layers inner outer) :
    outer.Right (stacked codecs store layers op s).1 op ∧
      (stacked codecs store layers op s).2 = (store op s).2 := by
  induction layers generalizing outer with
  | nil =>
      have heq : inner = outer := funext fun place => Except.ok.inj (h place)
      exact ⟨heq ▸ hright, rfl⟩
  | cons layer layers ih =>
      obtain ⟨middle, hmiddle, hdecode⟩ := under_cons h
      obtain ⟨hbelow, hstate⟩ := ih hmiddle
      obtain ⟨habove, hsame⟩ := wrapValues_right hop hbelow hdecode
      exact ⟨habove, hsame.trans hstate⟩

theorem stacked_get {key : String} {collection : Option String}
    {encoded : PyValue}
    (h : (store (.get key collection) s).1 = .ok (.value encoded)) :
    (stacked codecs store layers (.get key collection) s).1 =
      (decodeAll codecs layers encoded).map Reply.value := by
  induction layers with
  | nil => exact h
  | cons layer layers ih =>
      simp only [stacked, wrapValues, ih, decodeAll]
      cases decodeAll codecs layers encoded with
      | error error => rfl
      | ok value =>
          simp only [Except.map, Except.bind, decodeReply, bind, pure,
            Except.pure]

theorem stacked_put (key : String) (value : PyValue)
    (collection : Option String) (ttl : Option F64) :
    stacked codecs store layers (.put key value collection ttl) s =
      match encodeAll codecs layers value with
      | .ok encoded => store (.put key encoded collection ttl) s
      | .error error => (.error error, s) := by
  induction layers generalizing value with
  | nil => rfl
  | cons layer layers ih =>
      rw [stacked, wrapValues, encodeAll]
      cases layer.encode codecs value with
      | error error => rfl
      | ok encoded => exact ih encoded

theorem stacked_putMany {values encoded : List PyValue}
    (h : List.Forall₂
      (fun value encoded => encodeAll codecs layers value = .ok encoded)
      values encoded) (keys : List String) (collection : Option String)
    (ttl : Option F64) :
    stacked codecs store layers (.putMany keys values collection ttl) s =
      store (.putMany keys encoded collection ttl) s := by
  induction layers generalizing values with
  | nil =>
      have heq : values = encoded := by
        rw [← List.forall₂_eq_eq_eq]
        exact h.imp fun _ _ => Except.ok.inj
      rw [heq]
      rfl
  | cons layer layers ih =>
      have hmiddle : ∃ middle, List.Forall₂
          (fun value middle => layer.encode codecs value = .ok middle)
          values middle ∧ List.Forall₂
          (fun middle encoded => encodeAll codecs layers middle = .ok encoded)
          middle encoded := by
        clear ih
        induction h with
        | nil => exact ⟨[], .nil, .nil⟩
        | cons hfirst _ ih =>
            obtain ⟨value, hvalue, hrest⟩ := bind_eq_ok.mp hfirst
            obtain ⟨middle, hvalues, hbelow⟩ := ih
            exact ⟨value :: middle, .cons hvalue hvalues,
              .cons hrest hbelow⟩
      obtain ⟨middle, hvalues, hbelow⟩ := hmiddle
      rw [stacked, wrapValues, mapM_of_forall₂ hvalues]
      exact ih hbelow

theorem carries_all {values : List PyValue}
    (h : ∀ value ∈ values, Carries codecs layers value) :
    ∃ encoded, List.Forall₂
        (fun value encoded => encodeAll codecs layers value = .ok encoded)
        values encoded ∧ List.Forall₂
        (fun value encoded => decodeAll codecs layers encoded = .ok value)
        values encoded := by
  induction values with
  | nil => exact ⟨[], .nil, .nil⟩
  | cons value values ih =>
      obtain ⟨⟨first, hencode, hdecode⟩, hrest⟩ := List.forall_mem_cons.mp h
      obtain ⟨encoded, hencodes, hdecodes⟩ := ih hrest
      exact ⟨first :: encoded, .cons hencode hencodes,
        .cons hdecode hdecodes⟩

theorem stacked_step (store : KeyValue σ) (s : σ) {values : PyValue → Prop}
    {lifetimes : Option F64 → Prop}
    (hcarries : ∀ value, values value → Carries codecs layers value)
    (hop : op.Puts values lifetimes) (h : Under codecs layers inner outer) :
    ∃ op' : Op, op'.Puts (fun _ => True) lifetimes ∧
      (inner.Right (store op' s).1 op' →
        outer.Right (stacked codecs store layers op s).1 op ∧
          (stacked codecs store layers op s).2 = (store op' s).2) ∧
      Under codecs layers (inner.after op') (outer.after op) := by
  cases op with
  | put key value collection ttl =>
      obtain ⟨encoded, hencode, hdecode⟩ := hcarries value hop.1
      refine ⟨.put key encoded collection ttl, ⟨trivial, hop.2⟩,
        fun hright => ?_, under_update h hdecode⟩
      rw [stacked_put, hencode]
      exact ⟨hright, rfl⟩
  | putMany keys written collection ttl =>
      obtain ⟨encoded, hencodes, hdecodes⟩ :=
        carries_all fun value (hvalue : value ∈ written) =>
          hcarries value (hop.1 value hvalue)
      have hlength : written.length = encoded.length := hencodes.length_eq
      refine ⟨.putMany keys encoded collection ttl,
        ⟨fun _ _ => trivial, hop.2⟩, fun hright => ?_, ?_⟩
      · rw [stacked_putMany hencodes]
        refine ⟨?_, rfl⟩
        simp only [Contents.Right] at hright ⊢
        rwa [hlength]
      · simp only [Contents.after]
        rw [hlength]
        split
        · exact under_putAll hdecodes h
        · exact h
  | get key collection =>
      exact ⟨.get key collection, hop,
        fun hright => stacked_right rfl hright h, h⟩
  | getMany keys collection =>
      exact ⟨.getMany keys collection, hop,
        fun hright => stacked_right rfl hright h, h⟩
  | ttl key collection =>
      exact ⟨.ttl key collection, hop,
        fun hright => stacked_right rfl hright h, h⟩
  | ttlMany keys collection =>
      exact ⟨.ttlMany keys collection, hop,
        fun hright => stacked_right rfl hright h, h⟩
  | delete key collection =>
      exact ⟨.delete key collection, hop,
        fun hright => stacked_right rfl hright h,
        under_update h (decodeAll_none layers)⟩
  | deleteMany keys collection =>
      exact ⟨.deleteMany keys collection, hop,
        fun hright => stacked_right rfl hright h, under_deleteAll h⟩

theorem stacked_run (store : KeyValue σ) (s : σ) {values : PyValue → Prop}
    {lifetimes : Option F64 → Prop}
    (hcarries : ∀ value, values value → Carries codecs layers value)
    {ops : List Op} (hops : ∀ op ∈ ops, op.Puts values lifetimes)
    (h : Under codecs layers inner outer) :
    ∃ ops' : List Op, (∀ op ∈ ops', op.Puts (fun _ => True) lifetimes) ∧
      (Answers store inner s ops' →
        Answers (stacked codecs store layers) outer s ops) := by
  induction ops generalizing inner outer s with
  | nil => exact ⟨[], by simp, fun _ => trivial⟩
  | cons op ops ih =>
      obtain ⟨hop, hrest⟩ := List.forall_mem_cons.mp hops
      obtain ⟨op', hop', hreply, hunder⟩ :=
        stacked_step store s hcarries hop h
      obtain ⟨ops', hops', hanswers⟩ :=
        ih (store op' s).2 hrest hunder
      refine ⟨op' :: ops', List.forall_mem_cons.mpr ⟨hop', hops'⟩, ?_⟩
      rintro ⟨hright, hbelow⟩
      obtain ⟨habove, hstate⟩ := hreply hright
      refine ⟨habove, ?_⟩
      rw [hstate]
      exact hanswers hbelow

theorem carries_of_returns {values : PyValue → Prop}
    {lifetimes : Option F64 → Prop} (hnone : lifetimes none)
    (hstore : Returns store s (fun _ => True) lifetimes)
    (h : Returns (stacked codecs store layers) s values lifetimes)
    {value : PyValue} (hvalue : values value) :
    Carries codecs layers value := by
  let put := Op.put "k" value none none
  let get := Op.get "k" none
  obtain ⟨hput, hget, -⟩ := h [put, get] (by
    simp only [List.forall_mem_cons]
    exact ⟨⟨hvalue, hnone⟩, trivial, by simp⟩)
  rw [Contents.Right, stacked_put] at hput
  rw [stacked_put] at hget
  cases hencode : encodeAll codecs layers value with
  | error error =>
      rw [hencode] at hput
      cases hput
  | ok encoded =>
      rw [hencode] at hget
      obtain ⟨-, hbelow, -⟩ := hstore [.put "k" encoded none none, get] (by
        simp only [List.forall_mem_cons]
        exact ⟨⟨trivial, hnone⟩, trivial, by simp⟩)
      rw [Contents.Right, stacked_get hbelow] at hget
      refine ⟨encoded, hencode, ?_⟩
      simp only [Contents.read, Contents.after, Function.update_self] at hget
      cases hdecode : decodeAll codecs layers encoded with
      | error error =>
          rw [hdecode] at hget
          cases hget
      | ok decoded =>
          rw [hdecode] at hget
          cases hget
          rfl

theorem returns_iff_carries {values : PyValue → Prop}
    {lifetimes : Option F64 → Prop} (hnone : lifetimes none)
    (hstore : Returns store s (fun _ => True) lifetimes) :
    Returns (stacked codecs store layers) s values lifetimes ↔
      ∀ value, values value → Carries codecs layers value := by
  constructor
  · exact fun h value hvalue => carries_of_returns hnone hstore h hvalue
  · intro hcarries ops hops
    obtain ⟨ops', hops', hanswers⟩ :=
      stacked_run store s hcarries hops under_empty
    exact hanswers (hstore ops' hops')

end Stacked

end OpenKeyV.Python
