import OpenKeyV.Value.RoundTrip

/-!
# JSON values

`to_json` and `from_json` of `value/json.rs`.  A number of `serde_json` is
what it holds: an unsigned integer, a negative one or a finite float.  An
object is the list of its entries; `ObjectOrder` is the order in which a map
of `serde_json` yields them, by insertion or by key.
-/

namespace OpenKeyV

open Library StructuredValue

/-- The exponent of an `f64` is not that of an infinity or a NaN. -/
def isFiniteBits (bits : UInt64) : Bool := bits.toNat / 2 ^ 52 % 2048 ≠ 2047

inductive JsonNumber where
  | posInt (n : UInt64)
  | negInt (n : Int64) (negative : n < 0)
  | float (bits : UInt64) (finite : isFiniteBits bits = true)
  deriving DecidableEq, Repr

inductive Json where
  | null
  | bool (value : Bool)
  | number (value : JsonNumber)
  | string (value : String)
  | array (items : List Json)
  | object (entries : List (String × Json))

/-- The order of the entries of a map, which depends on their keys only. -/
structure ObjectOrder where
  arrange : (α : Type) → List (String × α) → List (String × α)
  perm : ∀ {α : Type} (entries : List (String × α)),
    (arrange α entries).Perm entries
  natural : ∀ {α β : Type} (f : α → β) (entries : List (String × α)),
    arrange β (entries.map fun entry => (entry.1, f entry.2)) =
      (arrange α entries).map fun entry => (entry.1, f entry.2)

def ObjectOrder.sorted : ObjectOrder :=
  ⟨fun _ entries => sortEntries entries,
    fun entries => sortEntries_perm entries,
    fun {α _} f entries => (map_sortEntries
      (fun _ => rfl : ∀ entry : String × α, (entry.1, f entry.2).1 = entry.1)
      entries).symm⟩

namespace JsonNumber

def ofInt64 (n : Int64) : JsonNumber :=
  if h : n < 0 then .negInt n h else .posInt n.toUInt64

def asU64 : JsonNumber → Option UInt64
  | .posInt n => some n
  | .negInt _ _ | .float _ _ => none

def asI64 : JsonNumber → Option Int64
  | .posInt n => if n.toNat < 2 ^ 63 then some n.toInt64 else none
  | .negInt n _ => some n
  | .float _ _ => none

def asF64 : JsonNumber → Option UInt64
  | .float bits _ => some bits
  | .posInt _ | .negInt _ _ => none

def display : JsonNumber → String
  | .posInt n => toString n.toNat
  | .negInt n _ => toString n.toInt
  | .float _ _ => "float"

end JsonNumber

def displayNonFinite (bits : UInt64) : String :=
  if bits.toNat % 2 ^ 52 ≠ 0 then "NaN"
  else if bits.toNat < 2 ^ 63 then "inf" else "-inf"

namespace StructuredValue

/-! ## Into JSON -/

def insertEntries : List (String × Json) →
    List (String × Except Error Json) → Except Error (List (String × Json))
  | map, [] => .ok map
  | map, (key, value) :: entries => do
      let value ← value
      if key ∈ map.map Prod.fst then
        .error (.serialization s!"duplicate structured dict key: {key}")
      else insertEntries (map ++ [(key, value)]) entries

mutual

def toJson : StructuredValue → Except Error Json
  | .null => .ok .null
  | .bool b => .ok (.bool b)
  | .integer n => .ok (.number (.ofInt64 n))
  | .unsignedInteger n => .ok (.number (.posInt n))
  | .float bits =>
      if h : isFiniteBits bits = true then .ok (.number (.float bits h))
      else .error (.serialization
        s!"float {displayNonFinite bits} is not representable in JSON")
  | .string s => .ok (.string s)
  | .bytes _ => .error (.serialization
      "StructuredValue::Bytes has no lossless JSON representation")
  | .list items => do
      let array ← toJsonItems items
      return .array array
  | .dict entries => do
      let map ← insertEntries [] (toJsonEntries entries)
      return .object map

def toJsonItems : List StructuredValue → Except Error (List Json)
  | [] => .ok []
  | item :: items => do
      let item ← toJson item
      let items ← toJsonItems items
      return item :: items

def toJsonEntries :
    List (String × StructuredValue) → List (String × Except Error Json)
  | [] => []
  | (key, value) :: entries => (key, toJson value) :: toJsonEntries entries

end

/-! ## From JSON -/

def fromNumber (n : JsonNumber) : Except Error StructuredValue :=
  match n.asU64 with
  | some u =>
      if u.toNat ≤ 2 ^ 63 - 1 then .ok (.integer u.toInt64)
      else .ok (.unsignedInteger u)
  | none =>
      match n.asI64 with
      | some i => .ok (.integer i)
      | none =>
          match n.asF64 with
          | some bits => .ok (.float bits)
          | none => .error (.deserialization
              (s!"JSON number {n.display} is not representable as i64, u64, " ++
                "or f64"))

def collectEntries : List (String × Except Error StructuredValue) →
    Except Error (List (String × StructuredValue))
  | [] => .ok []
  | (key, value) :: entries => do
      let value ← value
      let entries ← collectEntries entries
      return (key, value) :: entries

variable (order : ObjectOrder)

mutual

def fromJson : Json → Except Error StructuredValue
  | .null => .ok .null
  | .bool b => .ok (.bool b)
  | .number n => fromNumber n
  | .string s => .ok (.string s)
  | .array items => do
      let list ← fromJsonItems items
      return .list list
  | .object entries => do
      let entries ← collectEntries (order.arrange _ (fromJsonEntries entries))
      return .dict entries

def fromJsonItems : List Json → Except Error (List StructuredValue)
  | [] => .ok []
  | item :: items => do
      let item ← fromJson item
      let items ← fromJsonItems items
      return item :: items

def fromJsonEntries :
    List (String × Json) → List (String × Except Error StructuredValue)
  | [] => []
  | (key, value) :: entries => (key, fromJson value) :: fromJsonEntries entries

end

end StructuredValue

/-! ## Objects -/

namespace Json

def children : Json → List Json
  | .array items => items
  | .object entries => entries.map Prod.snd
  | _ => []

theorem induction_on_children {prop : Json → Prop}
    (h : ∀ value, (∀ child ∈ value.children, prop child) → prop value) :
    ∀ value, prop value := by
  have leaf : ∀ value, value.children = [] → prop value := by
    intro value hleaf
    apply h
    rw [hleaf]
    simp
  exact @Json.rec prop (fun items => ∀ value ∈ items, prop value)
    (fun entries => ∀ value ∈ entries.map Prod.snd, prop value)
    (fun entry => prop entry.2)
    (leaf _ rfl) (fun _ => leaf _ rfl) (fun _ => leaf _ rfl)
    (fun _ => leaf _ rfl) (fun items => h (.array items))
    (fun entries => h (.object entries)) (by simp)
    (fun value items hvalue hitems => by simpa using ⟨hvalue, hitems⟩)
    (by simp)
    (fun entry entries hentry hentries => List.forall_mem_cons.mpr
      ⟨hentry, hentries⟩)
    (fun _ _ hvalue => hvalue)

/-- No object has a key twice, at any level. -/
inductive Distinct : Json → Prop
  | intro (value : Json)
      (here : ∀ entries, value = .object entries →
        (entries.map Prod.fst).Nodup)
      (inside : ∀ child ∈ value.children, Distinct child) : Distinct value

/-- Equal up to the order of the entries of objects, at every level. -/
inductive Same : Json → Json → Prop
  | refl (value : Json) : Same value value
  | array {items items' : List Json} (hlength : items.length = items'.length)
      (h : ∀ pair ∈ items.zip items', Same pair.1 pair.2) :
      Same (.array items) (.array items')
  | object {entries listed entries' : List (String × Json)}
      (hperm : entries.Perm listed)
      (hkeys : listed.map Prod.fst = entries'.map Prod.fst)
      (h : ∀ pair ∈ listed.zip entries', Same pair.1.2 pair.2.2) :
      Same (.object entries) (.object entries')

end Json

namespace StructuredValue

/-! ## What is read -/

def readNumber : JsonNumber → StructuredValue
  | .posInt n =>
      if n.toNat ≤ 2 ^ 63 - 1 then .integer n.toInt64 else .unsignedInteger n
  | .negInt n _ => .integer n
  | .float bits _ => .float bits

section ReadJson

variable (order : ObjectOrder)

mutual

def readJson : Json → StructuredValue
  | .null => .null
  | .bool b => .bool b
  | .number n => readNumber n
  | .string s => .string s
  | .array items => .list (readItems items)
  | .object entries => .dict (order.arrange _ (readEntries entries))

def readItems : List Json → List StructuredValue
  | [] => []
  | item :: items => readJson item :: readItems items

def readEntries : List (String × Json) → List Entry
  | [] => []
  | (key, value) :: entries => (key, readJson value) :: readEntries entries

end

@[simp] theorem readItems_eq (items : List Json) :
    readItems order items = items.map (readJson order) := by
  induction items with
  | nil => rfl
  | cons item items ih => rw [readItems, ih, List.map_cons]

@[simp] theorem readEntries_eq (entries : List (String × Json)) :
    readEntries order entries =
      entries.map fun entry => (entry.1, readJson order entry.2) := by
  induction entries with
  | nil => rfl
  | cons entry entries ih => rw [readEntries, ih, List.map_cons]

theorem readJson_object (entries : List (String × Json)) :
    readJson order (.object entries) =
      .dict ((order.arrange _ entries).map fun entry =>
        (entry.1, readJson order entry.2)) := by
  rw [readJson, readEntries_eq, order.natural]

end ReadJson

theorem fromNumber_eq (n : JsonNumber) : fromNumber n = .ok (readNumber n) := by
  cases n with
  | posInt n =>
      simp only [fromNumber, JsonNumber.asU64, readNumber]
      split
      · rfl
      · rfl
  | negInt n hn => rfl
  | float bits hbits => rfl

@[simp] theorem fromJsonEntries_eq (order : ObjectOrder)
    (entries : List (String × Json)) :
    fromJsonEntries order entries =
      entries.map fun entry => (entry.1, fromJson order entry.2) := by
  induction entries with
  | nil => rfl
  | cons entry entries ih => rw [fromJsonEntries, ih, List.map_cons]

@[simp] theorem toJsonEntries_eq (entries : List Entry) :
    toJsonEntries entries =
      entries.map fun entry => (entry.1, toJson entry.2) := by
  induction entries with
  | nil => rfl
  | cons entry entries ih => rw [toJsonEntries, ih, List.map_cons]

theorem collectEntries_map {entries : List (String × Json)}
    {read : Json → StructuredValue} {order : ObjectOrder}
    (h : ∀ entry ∈ entries, fromJson order entry.2 = .ok (read entry.2)) :
    collectEntries
        (entries.map fun entry => (entry.1, fromJson order entry.2)) =
      .ok (entries.map fun entry => (entry.1, read entry.2)) := by
  induction entries with
  | nil => rfl
  | cons entry entries ih =>
      obtain ⟨hentry, hentries⟩ := List.forall_mem_cons.mp h
      simp only [List.map_cons, collectEntries, hentry, ih hentries, bind,
        Except.bind]
      rfl

theorem fromJsonItems_map {items : List Json} {read : Json → StructuredValue}
    {order : ObjectOrder} (h : ∀ item ∈ items, fromJson order item =
      .ok (read item)) :
    fromJsonItems order items = .ok (items.map read) := by
  induction items with
  | nil => rfl
  | cons item items ih =>
      obtain ⟨hitem, hitems⟩ := List.forall_mem_cons.mp h
      simp only [fromJsonItems, hitem, ih hitems, bind, Except.bind]
      rfl

theorem fromJson_eq (order : ObjectOrder) (j : Json) :
    fromJson order j = .ok (readJson order j) := by
  induction j using Json.induction_on_children with
  | h j ih =>
      cases j with
      | array items =>
          have hitems : ∀ item ∈ items, fromJson order item =
              .ok (readJson order item) := ih
          simp only [fromJson, fromJsonItems_map hitems, bind, Except.bind,
            readJson, readItems_eq]
          rfl
      | object entries =>
          have hentries : ∀ entry ∈ order.arrange _ entries,
              fromJson order entry.2 = .ok (readJson order entry.2) := by
            intro entry hmem
            exact ih entry.2 (List.mem_map_of_mem
              ((order.perm entries).mem_iff.mp hmem))
          simp only [fromJson, fromJsonEntries_eq, order.natural,
            collectEntries_map hentries, bind, Except.bind, readJson_object]
          rfl
      | number n => exact fromNumber_eq n
      | _ => rfl

/-! ## What is written -/

theorem toJsonItems_eq_ok {items : List StructuredValue} {array : List Json}
    (h : toJsonItems items = .ok array) :
    List.Forall₂ (fun item j => toJson item = .ok j) items array := by
  induction items generalizing array with
  | nil =>
      cases h
      exact .nil
  | cons item items ih =>
      obtain ⟨j, hitem, h⟩ := bind_eq_ok.mp h
      obtain ⟨rest, hrest, h⟩ := bind_eq_ok.mp h
      cases h
      exact .cons hitem (ih hrest)

theorem insertEntries_eq_ok {entries : List Entry}
    {map result : List (String × Json)} (hmap : (map.map Prod.fst).Nodup)
    (h : insertEntries map
      (entries.map fun entry => (entry.1, toJson entry.2)) = .ok result) :
    ∃ added, result = map ++ added ∧ (result.map Prod.fst).Nodup ∧
      List.Forall₂ (fun entry written => entry.1 = written.1 ∧
        toJson entry.2 = .ok written.2) entries added := by
  induction entries generalizing map with
  | nil =>
      cases h
      exact ⟨[], (List.append_nil _).symm, hmap, .nil⟩
  | cons entry entries ih =>
      obtain ⟨key, value⟩ := entry
      obtain ⟨j, hvalue, h⟩ := bind_eq_ok.mp h
      split at h
      · cases h
      · rename_i hnew
        have hnext : ((map ++ [(key, j)]).map Prod.fst).Nodup := by
          rw [List.map_append, List.map_singleton]
          exact List.nodup_append.mpr ⟨hmap, List.nodup_singleton _,
            fun other hother key' hkey => by
              rw [List.mem_singleton.mp hkey]
              rintro rfl
              exact hnew hother⟩
        obtain ⟨added, rfl, hnodup, hadded⟩ := ih hnext h
        refine ⟨(key, j) :: added, ?_, hnodup, .cons ⟨rfl, hvalue⟩ hadded⟩
        rw [List.append_assoc, List.singleton_append]

theorem insertEntries_complete {entries : List Entry} {map added :
    List (String × Json)}
    (hnodup : ((map ++ added).map Prod.fst).Nodup)
    (h : List.Forall₂ (fun entry written => entry.1 = written.1 ∧
      toJson entry.2 = .ok written.2) entries added) :
    insertEntries map
        (entries.map fun entry => (entry.1, toJson entry.2)) =
      .ok (map ++ added) := by
  induction h generalizing map with
  | nil => rw [List.append_nil]; rfl
  | @cons entry written entries added hfirst hrest ih =>
      obtain ⟨key, value⟩ := entry
      obtain ⟨key', j⟩ := written
      obtain ⟨rfl, hvalue⟩ := hfirst
      have happend : map ++ (key, j) :: added = map ++ [(key, j)] ++ added := by
        rw [List.append_assoc, List.singleton_append]
      have hnew : key ∉ map.map Prod.fst := by
        rw [List.map_append, List.map_cons] at hnodup
        exact fun hmem => (List.nodup_append.mp hnodup).2.2 key hmem key
          List.mem_cons_self rfl
      rw [happend] at hnodup ⊢
      simp only [List.map_cons, insertEntries, hvalue, bind, Except.bind,
        if_neg hnew]
      exact ih hnodup

/-! ## Integers -/

theorem toNat_toUInt64_le {n : Int64} :
    n.toUInt64.toNat ≤ 2 ^ 63 - 1 ↔ ¬ n < 0 := by
  have hint : n.toInt = n.toBitVec.toInt := rfl
  have hnat : n.toUInt64.toNat = n.toBitVec.toNat := rfl
  have hlt := n.toUInt64.toNat_lt
  rw [Int64.lt_iff_toInt_lt, hint, BitVec.toInt_eq_toNat_cond, ← hnat]
  split
  · simp
    omega
  · simp
    omega

theorem readNumber_ofInt64 (n : Int64) :
    readNumber (.ofInt64 n) = .integer n := by
  unfold JsonNumber.ofInt64
  split
  · rfl
  · rename_i hn
    rw [readNumber, if_pos (toNat_toUInt64_le.mpr hn)]
    rfl

/-- An unsigned integer that an `i64` cannot hold. -/
def Narrow : StructuredValue → Prop
  | .unsignedInteger n => 2 ^ 63 ≤ n.toNat
  | _ => True

theorem narrow_readNumber (n : JsonNumber) : Narrow (readNumber n) := by
  cases n with
  | posInt n =>
      rw [readNumber]
      split
      · trivial
      · rename_i hn
        simp only [Narrow]
        omega
  | negInt n hn => trivial
  | float bits hbits => trivial

theorem toJson_readNumber (n : JsonNumber) :
    toJson (readNumber n) = .ok (.number n) := by
  cases n with
  | posInt n =>
      rw [readNumber]
      split
      · rename_i hn
        have hnat : ¬ n.toInt64 < 0 := toNat_toUInt64_le.mp hn
        rw [toJson, JsonNumber.ofInt64, dif_neg hnat]
        rfl
      · rfl
  | negInt n hn =>
      rw [readNumber, toJson, JsonNumber.ofInt64, dif_pos hn]
  | float bits hbits =>
      rw [readNumber, toJson, dif_pos hbits]

/-! ## Both ways -/

theorem everywhere_leaf {prop : StructuredValue → Prop}
    {value : StructuredValue} (h : value.children = []) :
    Everywhere prop value ↔ prop value := by
  rw [everywhere_iff, h]
  simp

theorem narrow_readJson (order : ObjectOrder) (j : Json) :
    Everywhere Narrow (readJson order j) := by
  induction j using Json.induction_on_children with
  | h j ih =>
      cases j with
      | array items =>
          rw [readJson, readItems_eq, everywhere_iff]
          refine ⟨trivial, fun child hchild => ?_⟩
          obtain ⟨item, hitem, rfl⟩ := List.mem_map.mp hchild
          exact ih item hitem
      | object entries =>
          rw [readJson_object, everywhere_iff]
          refine ⟨trivial, fun child hchild => ?_⟩
          obtain ⟨entry, hentry, rfl⟩ := List.mem_map.mp hchild
          obtain ⟨source, hsource, rfl⟩ := List.mem_map.mp hentry
          exact ih source.2 (List.mem_map_of_mem
            ((order.perm entries).mem_iff.mp hsource))
      | number n =>
          have hleaf : (readNumber n).children = [] := by
            cases n with
            | posInt n => rw [readNumber]; split <;> rfl
            | negInt n hn => rfl
            | float bits hbits => rfl
          exact (everywhere_leaf hleaf).mpr (narrow_readNumber n)
      | _ => exact (everywhere_leaf rfl).mpr trivial

theorem UpToOrder.narrow {first second : StructuredValue}
    (h : UpToOrder first second) (hsecond : Everywhere Narrow second) :
    Everywhere Narrow first := by
  induction h with
  | refl value => exact hsecond
  | @list values values' hlength _ ih =>
      rw [everywhere_iff] at hsecond ⊢
      refine ⟨trivial, fun child hchild => ?_⟩
      have hzip : child ∈ (values.zip values').map Prod.fst := by
        rw [List.map_fst_zip hlength.le]
        exact hchild
      obtain ⟨pair, hpair, rfl⟩ := List.mem_map.mp hzip
      exact ih pair hpair (hsecond.2 pair.2 (List.of_mem_zip hpair).2)
  | @dict entries listed entries' hperm hkeys _ ih =>
      rw [everywhere_iff] at hsecond ⊢
      refine ⟨trivial, fun child hchild => ?_⟩
      obtain ⟨entry, hentry, rfl⟩ := List.mem_map.mp hchild
      have hlength : listed.length = entries'.length := by
        have hlengths := congrArg List.length hkeys
        rwa [List.length_map, List.length_map] at hlengths
      have hzip : entry ∈ (listed.zip entries').map Prod.fst := by
        rw [List.map_fst_zip hlength.le]
        exact hperm.mem_iff.mp hentry
      obtain ⟨pair, hpair, rfl⟩ := List.mem_map.mp hzip
      exact ih pair hpair (hsecond.2 pair.2.2
        (List.mem_map_of_mem (List.of_mem_zip hpair).2))

theorem toJson_list {items : List StructuredValue} {j : Json}
    (h : toJson (.list items) = .ok j) :
    ∃ array, j = .array array ∧
      List.Forall₂ (fun item j => toJson item = .ok j) items array := by
  obtain ⟨array, harray, h⟩ := bind_eq_ok.mp h
  cases h
  exact ⟨array, rfl, toJsonItems_eq_ok harray⟩

theorem toJson_dict {entries : List Entry} {j : Json}
    (h : toJson (.dict entries) = .ok j) :
    ∃ map, j = .object map ∧ (map.map Prod.fst).Nodup ∧
      List.Forall₂ (fun entry written => entry.1 = written.1 ∧
        toJson entry.2 = .ok written.2) entries map := by
  obtain ⟨map, hmap, h⟩ := bind_eq_ok.mp h
  cases h
  rw [toJsonEntries_eq] at hmap
  have hempty : (([] : List (String × Json)).map Prod.fst).Nodup :=
    List.nodup_nil
  obtain ⟨added, hresult, hnodup, hadded⟩ := insertEntries_eq_ok hempty hmap
  rw [List.nil_append] at hresult
  subst hresult
  exact ⟨_, rfl, hnodup, hadded⟩

theorem upToOrder_readJson (order : ObjectOrder) {value : StructuredValue}
    {j : Json} (h : toJson value = .ok j) (hnarrow : Everywhere Narrow value) :
    UpToOrder value (readJson order j) := by
  induction value using induction_on_children generalizing j with
  | h value ih =>
      obtain ⟨hhere, hinside⟩ := everywhere_iff.mp hnarrow
      cases value with
      | list items =>
          obtain ⟨array, rfl, harray⟩ := toJson_list h
          obtain ⟨hlength, hpairs⟩ := List.forall₂_iff_zip.mp harray
          rw [readJson, readItems_eq]
          refine .list (by rw [List.length_map, hlength]) fun pair hpair => ?_
          rw [List.zip_map_right] at hpair
          obtain ⟨⟨item, written⟩, hmem, rfl⟩ := List.mem_map.mp hpair
          have hitem := (List.of_mem_zip hmem).1
          exact ih item hitem (hpairs hmem) (hinside item hitem)
      | dict entries =>
          obtain ⟨map, rfl, -, hmap⟩ := toJson_dict h
          obtain ⟨listed, harranged, hperm⟩ :=
            List.perm_comp_forall₂ (order.perm map) hmap.flip
          obtain ⟨hlength, hpairs⟩ := List.forall₂_iff_zip.mp harranged.flip
          rw [readJson_object]
          refine .dict hperm.symm ?_ fun pair hpair => ?_
          · rw [List.map_map]
            exact map_eq_map_of_zip hlength fun pair hpair => (hpairs hpair).1
          · rw [List.zip_map_right] at hpair
            obtain ⟨⟨entry, written⟩, hmem, rfl⟩ := List.mem_map.mp hpair
            have hentry : entry.2 ∈ entries.map Prod.snd :=
              List.mem_map_of_mem
                (hperm.mem_iff.mp (List.of_mem_zip hmem).1)
            exact ih entry.2 hentry (hpairs hmem).2 (hinside entry.2 hentry)
      | integer n =>
          cases h
          rw [readJson, readNumber_ofInt64]
          exact .refl _
      | unsignedInteger n =>
          cases h
          have hn : ¬ n.toNat ≤ 2 ^ 63 - 1 := by
            simp only [Narrow] at hhere
            omega
          rw [readJson, readNumber, if_neg hn]
          exact .refl _
      | float bits =>
          rw [toJson] at h
          split at h
          · cases h
            exact .refl _
          · cases h
      | bytes payload => cases h
      | null => cases h; exact .refl _
      | bool b => cases h; exact .refl _
      | string s => cases h; exact .refl _

theorem toJson_distinct {value : StructuredValue} {j : Json}
    (h : toJson value = .ok j) : j.Distinct := by
  induction value using induction_on_children generalizing j with
  | h value ih =>
      cases value with
      | list items =>
          obtain ⟨array, rfl, harray⟩ := toJson_list h
          refine .intro _ nofun fun child hchild => ?_
          obtain ⟨hlength, hpairs⟩ := List.forall₂_iff_zip.mp harray.flip
          have hzip : child ∈ (array.zip items).map Prod.fst := by
            rw [List.map_fst_zip hlength.le]
            exact hchild
          obtain ⟨pair, hpair, rfl⟩ := List.mem_map.mp hzip
          exact ih pair.2 (List.of_mem_zip hpair).2 (hpairs hpair)
      | dict entries =>
          obtain ⟨map, rfl, hnodup, hmap⟩ := toJson_dict h
          refine .intro _ (fun entries' hsame => ?_) fun child hchild => ?_
          · cases hsame
            exact hnodup
          · obtain ⟨written, hwritten, rfl⟩ := List.mem_map.mp hchild
            obtain ⟨hlength, hpairs⟩ := List.forall₂_iff_zip.mp hmap.flip
            have hzip : written ∈ (map.zip entries).map Prod.fst := by
              rw [List.map_fst_zip hlength.le]
              exact hwritten
            obtain ⟨pair, hpair, rfl⟩ := List.mem_map.mp hzip
            exact ih pair.2.2 (List.mem_map_of_mem (List.of_mem_zip hpair).2)
              (hpairs hpair).2
      | float bits =>
          rw [toJson] at h
          split at h
          · cases h
            exact .intro _ nofun nofun
          · cases h
      | bytes payload => cases h
      | integer n => cases h; exact .intro _ nofun nofun
      | unsignedInteger n => cases h; exact .intro _ nofun nofun
      | null => cases h; exact .intro _ nofun nofun
      | bool b => cases h; exact .intro _ nofun nofun
      | string s => cases h; exact .intro _ nofun nofun

theorem toJsonItems_complete {items : List StructuredValue}
    {array : List Json}
    (h : List.Forall₂ (fun item j => toJson item = .ok j) items array) :
    toJsonItems items = .ok array := by
  induction h with
  | nil => rfl
  | cons hfirst _ ih =>
      simp only [toJsonItems, hfirst, ih, bind, Except.bind]
      rfl

theorem exists_forall₂ {α β : Type} {R : α → β → Prop} {items : List α}
    (h : ∀ item ∈ items, ∃ b, R item b) : ∃ bs, List.Forall₂ R items bs := by
  induction items with
  | nil => exact ⟨[], .nil⟩
  | cons item items ih =>
      obtain ⟨⟨b, hb⟩, hrest⟩ := List.forall_mem_cons.mp h
      obtain ⟨bs, hbs⟩ := ih hrest
      exact ⟨b :: bs, .cons hb hbs⟩

theorem toJson_readJson (order : ObjectOrder) {j : Json} (h : j.Distinct) :
    ∃ j', toJson (readJson order j) = .ok j' ∧ j'.Same j := by
  induction j using Json.induction_on_children with
  | h j ih =>
      obtain ⟨_, hhere, hinside⟩ := h
      cases j with
      | array items =>
          obtain ⟨array, harray⟩ := exists_forall₂ fun item
            (hitem : item ∈ items) => ih item hitem (hinside item hitem)
          obtain ⟨hlength, hpairs⟩ := List.forall₂_iff_zip.mp harray.flip
          have hwritten : toJsonItems (items.map (readJson order)) =
              .ok array :=
            toJsonItems_complete (List.forall₂_map_left_iff.mpr
              (harray.imp fun _ _ hpair => hpair.1))
          refine ⟨.array array, ?_, .array hlength fun pair hpair =>
            (hpairs hpair).2⟩
          simp only [readJson, readItems_eq, toJson, hwritten, bind,
            Except.bind]
          rfl
      | object entries =>
          have hperm := order.perm entries
          obtain ⟨added, hadded⟩ := exists_forall₂ fun entry
            (hentry : entry ∈ order.arrange _ entries) => by
              obtain ⟨j, hj⟩ := ih entry.2
                (List.mem_map_of_mem (hperm.mem_iff.mp hentry))
                (hinside _ (List.mem_map_of_mem (hperm.mem_iff.mp hentry)))
              exact (⟨(entry.1, j), rfl, hj⟩ : ∃ written : String × Json,
                entry.1 = written.1 ∧
                  toJson (readJson order entry.2) = .ok written.2 ∧
                    written.2.Same entry.2)
          have hkeys : (order.arrange _ entries).map Prod.fst =
              added.map Prod.fst := by
            obtain ⟨hlength, hpairs⟩ := List.forall₂_iff_zip.mp hadded
            exact map_eq_map_of_zip hlength fun pair hpair => (hpairs hpair).1
          have hnodup : (([] ++ added).map Prod.fst).Nodup := by
            rw [List.nil_append, ← hkeys]
            exact (hperm.map Prod.fst).nodup_iff.mpr (hhere entries rfl)
          have hwritten := insertEntries_complete hnodup
            (List.forall₂_map_left_iff.mpr
              (hadded.imp fun _ _ hpair => ⟨hpair.1, hpair.2.1⟩) :
              List.Forall₂ (fun (entry : Entry) (written : String × Json) =>
                  entry.1 = written.1 ∧ toJson entry.2 = .ok written.2)
                ((order.arrange _ entries).map fun entry =>
                  (entry.1, readJson order entry.2)) added)
          refine ⟨.object added, ?_, ?_⟩
          · simp only [readJson_object, toJson, toJsonEntries_eq, hwritten,
              bind, Except.bind]
            rfl
          · obtain ⟨listed, hlisted, hsource⟩ :=
              List.perm_comp_forall₂ hperm.symm hadded
            obtain ⟨hlength, hpairs⟩ := List.forall₂_iff_zip.mp hlisted.flip
            exact .object hsource.symm
              (map_eq_map_of_zip hlength fun pair hpair =>
                (hpairs hpair).1.symm)
              fun pair hpair => (hpairs hpair).2.2
      | number n => exact ⟨_, toJson_readNumber n, .refl _⟩
      | null => exact ⟨_, rfl, .refl _⟩
      | bool b => exact ⟨_, rfl, .refl _⟩
      | string s => exact ⟨_, rfl, .refl _⟩

/-- Into JSON and back a value is the same, up to the order of entries,
exactly if no unsigned integer in it fits into an `i64`; from JSON and back
every value is. -/
theorem json_lossless_iff (order : ObjectOrder) :
    (∀ value j, toJson value = .ok j →
      j.Distinct ∧ ∃ value', fromJson order j = .ok value' ∧
        (UpToOrder value value' ↔ Everywhere Narrow value)) ∧
    ∀ j : Json, j.Distinct → ∃ value j', fromJson order j = .ok value ∧
      toJson value = .ok j' ∧ j'.Same j := by
  constructor
  · intro value j h
    exact ⟨toJson_distinct h, readJson order j, fromJson_eq order j,
      fun hsame => hsame.narrow (narrow_readJson order j),
      upToOrder_readJson order h⟩
  · intro j h
    obtain ⟨j', hwritten, hsame⟩ := toJson_readJson order h
    exact ⟨_, j', fromJson_eq order j, hwritten, hsame⟩

/-- Five, unsigned, comes back as an integer with a sign. -/
theorem small_unsigned_changes :
    ∃ j value, toJson (.unsignedInteger 5) = .ok j ∧
      fromJson .sorted j = .ok value ∧ value = .integer 5 ∧
      ¬ UpToOrder (.unsignedInteger 5) value := by
  refine ⟨_, _, rfl, rfl, rfl, fun h => ?_⟩
  have hnarrow := h.narrow ((everywhere_leaf rfl).mpr trivial)
  have hfive : (2 : Nat) ^ 63 ≤ 5 := (everywhere_leaf rfl).mp hnarrow
  exact absurd hfive (by decide)

def sampleRecord : StructuredValue :=
  .dict [("b", .list [.unsignedInteger 9223372036854775808, .integer (-1),
    .null]), ("a", .bool true)]

def sampleObject : Json :=
  .object [("b", .array [.number (.posInt 9223372036854775808),
    .number (.ofInt64 (-1)), .null]), ("a", .bool true)]

theorem narrow_sampleRecord : Everywhere Narrow sampleRecord := by
  have hlarge : Narrow (.unsignedInteger 9223372036854775808) := by
    rw [Narrow]
    decide +kernel
  have hlist : Everywhere Narrow
      (.list [.unsignedInteger 9223372036854775808, .integer (-1),
        .null]) := by
    rw [everywhere_iff]
    exact ⟨trivial, List.forall_mem_cons.mpr
      ⟨(everywhere_leaf rfl).mpr hlarge, List.forall_mem_cons.mpr
        ⟨(everywhere_leaf rfl).mpr trivial, List.forall_mem_singleton.mpr
          ((everywhere_leaf rfl).mpr trivial)⟩⟩⟩
  rw [sampleRecord, everywhere_iff]
  exact ⟨trivial, List.forall_mem_cons.mpr ⟨hlist,
    List.forall_mem_singleton.mpr ((everywhere_leaf rfl).mpr trivial)⟩⟩

/-- A record with an unsigned integer that does not fit into an `i64`, read
with its keys sorted. -/
theorem json_lossless_sampleRecord :
    (sampleObject.Distinct ∧ ∃ value',
      fromJson .sorted sampleObject = .ok value' ∧
        UpToOrder sampleRecord value') ∧
    ∃ value j', fromJson .sorted sampleObject = .ok value ∧
      toJson value = .ok j' ∧ j'.Same sampleObject := by
  obtain ⟨hdistinct, value, hread, hsame⟩ :=
    (json_lossless_iff .sorted).1 sampleRecord sampleObject rfl
  exact ⟨⟨hdistinct, value, hread, hsame.mpr narrow_sampleRecord⟩,
    (json_lossless_iff .sorted).2 sampleObject hdistinct⟩

end StructuredValue

end OpenKeyV
