import OpenKeyV.Value
import OpenKeyV.Value.Reading

/-!
# Round trips of structured values

A value has an encoding when it is valid, and the encoding reads back as its
canonical form.  The decoder also accepts dictionaries whose keys do not
ascend; those payloads are not what their values encode to.
-/

namespace OpenKeyV.StructuredValue

open Library

/-- Equal up to the order of dictionary entries, at every level. -/
inductive UpToOrder : StructuredValue → StructuredValue → Prop
  | refl (value : StructuredValue) : UpToOrder value value
  | list {values values' : List StructuredValue}
      (hlength : values.length = values'.length)
      (h : ∀ pair ∈ values.zip values', UpToOrder pair.1 pair.2) :
      UpToOrder (.list values) (.list values')
  | dict {entries listed entries' : List Entry}
      (hperm : entries.Perm listed)
      (hkeys : listed.map Prod.fst = entries'.map Prod.fst)
      (h : ∀ pair ∈ listed.zip entries', UpToOrder pair.1.2 pair.2.2) :
      UpToOrder (.dict entries) (.dict entries')

section UpToOrder

variable {first second : StructuredValue}

theorem map_eq_map_of_zip {α β γ : Type*} {f : α → γ} {g : β → γ}
    {as : List α} {bs : List β} (hlength : as.length = bs.length)
    (h : ∀ pair ∈ as.zip bs, f pair.1 = g pair.2) : as.map f = bs.map g := by
  induction as generalizing bs with
  | nil =>
      obtain rfl := List.eq_nil_of_length_eq_zero hlength.symm
      rfl
  | cons a as ih =>
      cases bs with
      | nil => cases hlength
      | cons b bs =>
          rw [List.zip_cons_cons, List.forall_mem_cons] at h
          rw [List.map_cons, List.map_cons, h.1,
            ih (Nat.succ.inj hlength) h.2]

theorem eq_of_mem_zip {α β γ : Type*} {f : α → γ} {g : β → γ} {as : List α}
    {bs : List β} (h : as.map f = bs.map g) :
    ∀ pair ∈ as.zip bs, f pair.1 = g pair.2 := by
  induction as generalizing bs with
  | nil => simp
  | cons a as ih =>
      cases bs with
      | nil => simp
      | cons b bs =>
          obtain ⟨hhead, htail⟩ := List.cons.inj h
          rw [List.zip_cons_cons, List.forall_mem_cons]
          exact ⟨hhead, ih htail⟩

theorem UpToOrder.canonical_eq (h : UpToOrder first second)
    (hvalid : Valid first) : canonical first = canonical second := by
  induction h with
  | refl => rfl
  | @list values values' hlength _ ih =>
      obtain ⟨_, hall⟩ := valid_list.mp hvalid
      simp only [canonical, canonicalValues_eq]
      rw [map_eq_map_of_zip hlength fun pair hpair =>
        ih pair hpair (hall pair.1 (List.of_mem_zip hpair).1)]
  | @dict entries listed entries' hperm hkeys _ ih =>
      obtain ⟨_, hnodup, hall⟩ := valid_dict.mp hvalid
      have hsame : listed.map canonicalEntry = entries'.map canonicalEntry := by
        have hlength : listed.length = entries'.length := by
          simpa using congrArg List.length hkeys
        refine map_eq_map_of_zip hlength fun pair hpair => ?_
        have hmem := hperm.mem_iff.mpr (List.of_mem_zip hpair).1
        exact Prod.ext (eq_of_mem_zip hkeys pair hpair)
          (ih pair hpair (hall pair.1 hmem).2)
      simp only [canonical, canonicalEntries_eq]
      rw [← hsame, sortEntries, sortEntries,
        sortBy_eq_of_perm _ (hperm.map canonicalEntry)]
      rwa [nodup_keyBytes, keys_canonicalEntries]

theorem upToOrder_of_canonical_eq (first : StructuredValue) :
    ∀ second, canonical first = canonical second →
      UpToOrder first second := by
  induction first using induction_on_children with
  | h first ih =>
      intro second h
      cases first with
      | list values =>
          cases second with
          | list values' =>
              simp only [canonical, canonicalValues_eq, list.injEq] at h
              refine .list (by simpa using congrArg List.length h) ?_
              intro pair hpair
              exact ih pair.1 (List.of_mem_zip hpair).1 pair.2
                (eq_of_mem_zip h pair hpair)
          | _ => simp [canonical] at h
      | dict entries =>
          cases second with
          | dict entries' =>
              simp only [canonical, canonicalEntries_eq, dict.injEq] at h
              have hperm : (entries'.map canonicalEntry).Perm
                  (entries.map canonicalEntry) :=
                (sortEntries_perm _).symm.trans
                  (h ▸ sortEntries_perm (entries.map canonicalEntry))
              have hcomp := congrFun₂ (List.eq_map_comp_perm canonicalEntry)
                (entries'.map canonicalEntry) entries
              obtain ⟨listed, hlisted, hsource⟩ := hcomp.mpr hperm
              have hkeys : listed.map Prod.fst = entries'.map Prod.fst := by
                rw [← keys_canonicalEntries listed, ← hlisted,
                  keys_canonicalEntries]
              refine .dict hsource.symm hkeys fun pair hpair => ?_
              have hmem := hsource.mem_iff.mp (List.of_mem_zip hpair).1
              have hentry := eq_of_mem_zip hlisted.symm pair hpair
              exact ih pair.1.2 (List.mem_map_of_mem hmem) pair.2.2
                (congrArg Prod.snd hentry)
          | _ => simp [canonical] at h
      | _ =>
          cases second <;> simp_all [canonical, UpToOrder.refl]

theorem upToOrder_iff (h : Valid first) :
    UpToOrder first second ↔ canonical first = canonical second :=
  ⟨fun hsame => hsame.canonical_eq h, upToOrder_of_canonical_eq first second⟩

end UpToOrder

/-- The valid values have encodings, these read back with every dictionary
sorted, and they are equal for the values that are equal up to order. -/
theorem structured_round_trip :
    (∀ value, (∃ b, encode value = .ok b) ↔ Valid value) ∧
      (∀ value b, encode value = .ok b → b.length < 2 ^ 64 →
        decode b = .ok (canonical value) ∧
          Ordered (canonical value) ∧ UpToOrder value (canonical value)) ∧
      ∀ first second b b', encode first = .ok b → encode second = .ok b' →
        (b = b' ↔ UpToOrder first second) := by
  refine ⟨fun value => ?_, fun value b h hlength => ?_,
    fun first second b b' h h' => ?_⟩
  · simp [encode_eq_ok]
  · obtain ⟨hvalid, rfl⟩ := encode_eq_ok.mp h
    have hcanonical := (valid_canonical value).mpr hvalid
    exact ⟨decode_complete hcanonical hlength, ordered_canonical hvalid,
      (upToOrder_iff hvalid).mpr (canonical_canonical hvalid).symm⟩
  · obtain ⟨hvalid, rfl⟩ := encode_eq_ok.mp h
    obtain ⟨hvalid', rfl⟩ := encode_eq_ok.mp h'
    rw [upToOrder_iff hvalid]
    constructor
    · intro heq
      exact wire_inj ((valid_canonical first).mpr hvalid)
        ((valid_canonical second).mpr hvalid') (List.append_cancel_left heq)
    · intro heq
      rw [heq]

def descending : StructuredValue :=
  .dict [("b", .integer 2), ("a", .list [.null, .float 0])]

theorem structured_round_trip_two :
    encode descending = .ok (magic ++ wire (canonical descending)) ∧
      decode (magic ++ wire (canonical descending)) =
        .ok (.dict [("a", .list [.null, .float 0]), ("b", .integer 2)]) := by
  have hencode : encode descending =
      .ok (magic ++ wire (canonical descending)) := by decide +kernel
  have hread := (structured_round_trip.2.1 descending _ hencode
    (by decide +kernel)).1
  exact ⟨hencode, hread⟩

/-- The wire form of a value whose dictionaries all list their keys in
ascending order. -/
def CanonicalPayload (b : Bytes) : Prop :=
  ∃ value, Valid value ∧ Ordered value ∧ b = magic ++ wire value

theorem new_structured {b : Bytes} {x : Value} :
    Value.new .structured b = .ok x ↔
      (∃ value, decode b = .ok value) ∧ x = ⟨.structured, b⟩ := by
  unfold Value.new Value.validatePayload
  cases decode b with
  | ok value =>
      simp [bind, Except.bind, pure, Except.pure, Value.newUnchecked, eq_comm]
  | error error => simp [bind, Except.bind]

theorem encode_decoded_iff {b : Bytes} {value : StructuredValue}
    (h : decode b = .ok value) :
    encode value = .ok b ↔ CanonicalPayload b := by
  obtain ⟨hvalid, rfl⟩ := decode_sound h
  rw [encode_eq_ok]
  constructor
  · rintro ⟨_, hsame⟩
    exact ⟨canonical value, (valid_canonical value).mpr hvalid,
      ordered_canonical hvalid, hsame⟩
  · rintro ⟨other, hother, hordered, hsame⟩
    obtain rfl := wire_inj hvalid hother (List.append_cancel_left hsame)
    rw [canonical_eq_self hordered]
    exact ⟨hvalid, rfl⟩

def descendingWire : Bytes := magic ++ wire descending

/-- The decoder accepts the keys in the wrong order. -/
theorem descending_payload_accepted :
    ¬ ∀ b x, Value.new .structured b = .ok x →
      ∃ value, decode b = .ok value ∧ encode value = .ok b := by
  intro h
  have hencode : encode descending =
      .ok (magic ++ wire (canonical descending)) := by decide +kernel
  obtain ⟨hvalid, _⟩ := encode_eq_ok.mp hencode
  have hdecode : decode descendingWire = .ok descending :=
    decode_complete hvalid (by decide +kernel)
  obtain ⟨value, hvalue, hsame⟩ := h descendingWire _
    (new_structured.mpr ⟨⟨_, hdecode⟩, rfl⟩)
  rw [hdecode, Except.ok.injEq] at hvalue
  rw [← hvalue, hencode, Except.ok.injEq] at hsame
  revert hsame
  decide +kernel

/-- A payload is what its value encodes to when its dictionaries list their
keys in ascending order, and among these payloads equal mappings have equal
bytes. -/
theorem structured_canonical_iff {b : Bytes} {x : Value}
    (h : Value.new .structured b = .ok x) :
    ∃ value, decode b = .ok value ∧
      (encode value = .ok b ↔ CanonicalPayload b) ∧
      ∀ b' y value', Value.new .structured b' = .ok y →
        decode b' = .ok value' → CanonicalPayload b → CanonicalPayload b' →
          UpToOrder value value' → b = b' ∧ x = y := by
  obtain ⟨⟨value, hvalue⟩, rfl⟩ := new_structured.mp h
  refine ⟨value, hvalue, encode_decoded_iff hvalue, ?_⟩
  intro b' y value' hy hvalue' hb hb' hsame
  obtain ⟨_, rfl⟩ := new_structured.mp hy
  obtain ⟨hvalid, _⟩ := decode_sound hvalue
  have hencode := (encode_decoded_iff hvalue).mpr hb
  have hencode' := (encode_decoded_iff hvalue').mpr hb'
  rw [encode_eq_ok] at hencode hencode'
  obtain rfl : b = b' := by
    rw [hencode.2, hencode'.2, hsame.canonical_eq hvalid]
  exact ⟨rfl, rfl⟩

theorem structured_canonical_one :
    ∃ value, decode (magic ++ [8, 1, 0, 0, 0, 1, 0, 0, 0, 0x61, 2]) =
        .ok value ∧
      encode value =
        .ok (magic ++ [8, 1, 0, 0, 0, 1, 0, 0, 0, 0x61, 2]) := by
  have hpayload : magic ++ [8, 1, 0, 0, 0, 1, 0, 0, 0, 0x61, 2] =
      magic ++ wire (.dict [("a", .bool true)]) := by decide +kernel
  have hencode : encode (.dict [("a", .bool true)]) =
      .ok (magic ++ wire (.dict [("a", .bool true)])) := by decide +kernel
  have hvalid := (encode_eq_ok.mp hencode).1
  have hdecode := decode_complete hvalid (by decide +kernel)
  rw [hpayload]
  obtain ⟨value, hvalue, hiff, _⟩ := structured_canonical_iff
    (new_structured.mpr ⟨⟨_, hdecode⟩, rfl⟩)
  refine ⟨value, hvalue, hiff.mpr ⟨_, hvalid, ?_, rfl⟩⟩
  exact ordered_dict.mpr ⟨List.pairwise_singleton _ _, by
    simpa using (ordered_leaf rfl : Ordered (.bool true))⟩

end OpenKeyV.StructuredValue
