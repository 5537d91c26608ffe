import OpenKeyV.Library.PrefixCode
import OpenKeyV.Value.Codec

/-!
# The wire form of structured values

`wire` writes a value as it is listed, `canonical` sorts the entries of every
dictionary.  `encode` writes the wire form of the canonical value and refuses
the values that are not `Valid`.
-/

namespace OpenKeyV

open Library

namespace StructuredValue

abbrev Entry := String × StructuredValue

def children : StructuredValue → List StructuredValue
  | .list values => values
  | .dict entries => entries.map Prod.snd
  | _ => []

inductive Everywhere (prop : StructuredValue → Prop) :
    StructuredValue → Prop
  | intro (value : StructuredValue) (here : prop value)
      (inside : ∀ child ∈ value.children, Everywhere prop child) :
      Everywhere prop value

/-- Lengths that fit into four bytes, and no key twice. -/
def Fits : StructuredValue → Prop
  | .string value => value.utf8ByteSize < 2 ^ 32
  | .bytes value => value.length < 2 ^ 32
  | .list values => values.length < 2 ^ 32
  | .dict entries => entries.length < 2 ^ 32 ∧
      (entries.map Prod.fst).Nodup ∧
      ∀ entry ∈ entries, entry.1.utf8ByteSize < 2 ^ 32
  | _ => True

def Valid : StructuredValue → Prop := Everywhere Fits

/-- A dictionary lists its keys in ascending order of their bytes. -/
def KeysAscend : StructuredValue → Prop
  | .dict entries => StrictBy (fun entry : Entry => keyBytes entry.1) entries
  | _ => True

def Ordered : StructuredValue → Prop := Everywhere KeysAscend

mutual

def canonical : StructuredValue → StructuredValue
  | .list values => .list (canonicalValues values)
  | .dict entries => .dict (sortEntries (canonicalEntries entries))
  | value => value

def canonicalValues : List StructuredValue → List StructuredValue
  | [] => []
  | value :: values => canonical value :: canonicalValues values

def canonicalEntries : List Entry → List Entry
  | [] => []
  | (key, value) :: entries =>
      (key, canonical value) :: canonicalEntries entries

end

mutual

def wire : StructuredValue → Bytes
  | .null => [tagNull]
  | .bool false => [tagFalse]
  | .bool true => [tagTrue]
  | .integer value => tagInt :: toLeBytes 8 value.toUInt64.toNat
  | .unsignedInteger value => tagUint :: toLeBytes 8 value.toNat
  | .float bits => tagFloat :: toLeBytes 8 bits.toNat
  | .string value => tagStr :: (toLeBytes 4 value.utf8ByteSize ++ utf8 value)
  | .bytes value => tagBytes :: (toLeBytes 4 value.length ++ value)
  | .list values => tagList :: (toLeBytes 4 values.length ++ wires values)
  | .dict entries =>
      tagDict :: (toLeBytes 4 entries.length ++ entryWires entries)

def wires : List StructuredValue → Bytes
  | [] => []
  | value :: values => wire value ++ wires values

def entryWires : List Entry → Bytes
  | [] => []
  | (key, value) :: entries =>
      toLeBytes 4 key.utf8ByteSize ++ utf8 key ++ wire value ++
        entryWires entries

end

def entryWire (entry : Entry) : Bytes :=
  toLeBytes 4 entry.1.utf8ByteSize ++ utf8 entry.1 ++ wire entry.2

def canonicalEntry (entry : Entry) : Entry := (entry.1, canonical entry.2)

/-! ## Induction and the definitions on lists -/

theorem induction_on_children {prop : StructuredValue → Prop}
    (h : ∀ value, (∀ child ∈ value.children, prop child) → prop value) :
    ∀ value, prop value := by
  have leaf : ∀ value, value.children = [] → prop value := by
    intro value hleaf
    apply h
    rw [hleaf]
    simp
  exact @StructuredValue.rec prop (fun values => ∀ value ∈ values, prop value)
    (fun entries => ∀ value ∈ entries.map Prod.snd, prop value)
    (fun entry => prop entry.2)
    (leaf _ rfl) (fun _ => leaf _ rfl) (fun _ => leaf _ rfl)
    (fun _ => leaf _ rfl) (fun _ => leaf _ rfl) (fun _ => leaf _ rfl)
    (fun _ => leaf _ rfl) (fun values => h (.list values))
    (fun entries => h (.dict entries)) (by simp)
    (fun value values hvalue hvalues => by simpa using ⟨hvalue, hvalues⟩)
    (by simp)
    (fun entry entries hentry hentries => List.forall_mem_cons.mpr
      ⟨hentry, hentries⟩)
    (fun _ _ hvalue => hvalue)

@[simp] theorem canonicalValues_eq (values : List StructuredValue) :
    canonicalValues values = values.map canonical := by
  induction values with
  | nil => rfl
  | cons value values ih => rw [canonicalValues, ih, List.map_cons]

@[simp] theorem canonicalEntries_eq (entries : List Entry) :
    canonicalEntries entries = entries.map canonicalEntry := by
  induction entries with
  | nil => rfl
  | cons entry entries ih =>
      rw [canonicalEntries, ih, List.map_cons, canonicalEntry]

@[simp] theorem wires_eq (values : List StructuredValue) :
    wires values = values.flatMap wire := by
  induction values with
  | nil => rfl
  | cons value values ih => rw [wires, ih, List.flatMap_cons]

@[simp] theorem entryWires_eq (entries : List Entry) :
    entryWires entries = entries.flatMap entryWire := by
  induction entries with
  | nil => rfl
  | cons entry entries ih =>
      rw [entryWires, ih, List.flatMap_cons, entryWire]

@[simp] theorem encodeEntries_eq (entries : List Entry) :
    encodeEntries entries =
      entries.map fun entry => (entry.1, encodeValue entry.2) := by
  induction entries with
  | nil => rfl
  | cons entry entries ih => rw [encodeEntries, ih, List.map_cons]

theorem everywhere_iff {prop : StructuredValue → Prop}
    {value : StructuredValue} :
    Everywhere prop value ↔
      prop value ∧ ∀ child ∈ value.children, Everywhere prop child := by
  constructor
  · rintro ⟨_, here, inside⟩
    exact ⟨here, inside⟩
  · rintro ⟨here, inside⟩
    exact .intro value here inside

theorem valid_list {values : List StructuredValue} :
    Valid (.list values) ↔
      values.length < 2 ^ 32 ∧ ∀ value ∈ values, Valid value :=
  everywhere_iff

theorem valid_dict {entries : List Entry} :
    Valid (.dict entries) ↔ entries.length < 2 ^ 32 ∧
      (entries.map Prod.fst).Nodup ∧
      ∀ entry ∈ entries, entry.1.utf8ByteSize < 2 ^ 32 ∧ Valid entry.2 := by
  rw [Valid, everywhere_iff]
  simp only [Fits, children, List.forall_mem_map, and_assoc]
  exact and_congr_right fun _ => and_congr_right fun _ =>
    forall₂_and.symm

theorem valid_leaf {value : StructuredValue} (h : value.children = []) :
    Valid value ↔ Fits value := by
  rw [Valid, everywhere_iff, h]
  simp

theorem ordered_dict {entries : List Entry} :
    Ordered (.dict entries) ↔
      StrictBy (fun entry : Entry => keyBytes entry.1) entries ∧
        ∀ entry ∈ entries, Ordered entry.2 := by
  rw [Ordered, everywhere_iff]
  simp only [KeysAscend, children, List.forall_mem_map]

theorem ordered_list {values : List StructuredValue} :
    Ordered (.list values) ↔ ∀ value ∈ values, Ordered value := by
  rw [Ordered, everywhere_iff]
  simp only [KeysAscend, children, true_and]

theorem ordered_leaf {value : StructuredValue} (h : value.children = []) :
    Ordered value := by
  rw [Ordered, everywhere_iff, h]
  cases value <;> simp_all [KeysAscend, children, StrictBy]

/-! ## Encoding -/

theorem writeLen_eq_ok {len : Nat} {b : Bytes} :
    writeLen len = .ok b ↔ len < 2 ^ 32 ∧ b = toLeBytes 4 len := by
  by_cases hlen : len < 2 ^ 32
  · rw [writeLen, if_pos hlen, Except.ok.injEq, eq_comm]
    exact (and_iff_right hlen).symm
  · rw [writeLen, if_neg hlen]
    constructor
    · intro h
      cases h
    · intro h
      exact absurd h.1 hlen

theorem keyBytes_injective : Function.Injective keyBytes := by
  intro first second h
  exact utf8_injective
    ((List.map_injective_iff.mpr fun _ _ => UInt8.toNat_inj.mp) h)

theorem nodup_keyBytes {α : Type} {entries : List (String × α)} :
    (entries.map fun entry => keyBytes entry.1).Nodup ↔
      (entries.map Prod.fst).Nodup := by
  have hmap : entries.map (fun entry => keyBytes entry.1) =
      (entries.map Prod.fst).map keyBytes := by
    rw [List.map_map]
    rfl
  rw [hmap, List.nodup_map_iff keyBytes_injective]

/-- The encoding of a value is the wire form of its canonical value. -/
def EncodesWire (value : StructuredValue) : Prop :=
  ∀ b, encodeValue value = .ok b ↔
    Valid value ∧ b = wire (canonical value)

theorem encodeValues_eq_ok {values : List StructuredValue}
    (h : ∀ value ∈ values, EncodesWire value) (b : Bytes) :
    encodeValues values = .ok b ↔
      (∀ value ∈ values, Valid value) ∧
        b = (values.map canonical).flatMap wire := by
  induction values generalizing b with
  | nil => simp [encodeValues, eq_comm]
  | cons value values ih =>
      have hvalue := h value (List.mem_cons_self ..)
      have hvalues := ih fun value hmem =>
        h value (List.mem_cons_of_mem _ hmem)
      simp only [encodeValues, bind_eq_ok, hvalue _, hvalues, pure, Except.pure,
        Except.ok.injEq, List.forall_mem_cons, List.map_cons,
        List.flatMap_cons]
      constructor
      · rintro ⟨_, ⟨hvalid, rfl⟩, _, ⟨hall, rfl⟩, rfl⟩
        exact ⟨⟨hvalid, hall⟩, rfl⟩
      · rintro ⟨⟨hvalid, hall⟩, rfl⟩
        exact ⟨_, ⟨hvalid, rfl⟩, _, ⟨hall, rfl⟩, rfl⟩

theorem writeEntries_eq_ok {entries : List Entry}
    (h : ∀ entry ∈ entries, EncodesWire entry.2) (previous : Option String)
    (b : Bytes) :
    writeEntries previous
        (entries.map fun entry => (entry.1, encodeValue entry.2)) = .ok b ↔
      (∀ entry ∈ entries.head?, previous ≠ some entry.1) ∧
        (entries.IsChain fun first second =>
          keyBytes first.1 ≠ keyBytes second.1) ∧
        (∀ entry ∈ entries, entry.1.utf8ByteSize < 2 ^ 32 ∧ Valid entry.2) ∧
        b = (entries.map canonicalEntry).flatMap entryWire := by
  induction entries generalizing previous b with
  | nil => simp [writeEntries, eq_comm]
  | cons entry entries ih =>
      obtain ⟨key, value⟩ := entry
      have hvalue := h (key, value) (List.mem_cons_self ..)
      have hentries := ih (fun entry hmem =>
        h entry (List.mem_cons_of_mem _ hmem)) (some key)
      have hchain : (((key, value) :: entries).IsChain fun first second =>
          keyBytes first.1 ≠ keyBytes second.1) ↔
          (∀ entry ∈ entries.head?, some key ≠ some entry.1) ∧
            entries.IsChain fun first second =>
              keyBytes first.1 ≠ keyBytes second.1 := by
        cases entries with
        | nil => simp
        | cons next entries =>
            rw [List.isChain_cons_cons]
            simp [keyBytes_injective.eq_iff]
      rw [List.map_cons, writeEntries, hchain]
      split
      · rename_i hsame
        subst hsame
        simp
      · rename_i hdiffer
        simp only [bind_eq_ok, writeLen_eq_ok, hvalue _, hentries, pure,
          Except.pure, Except.ok.injEq, List.forall_mem_cons, List.map_cons,
          List.flatMap_cons, List.head?_cons, Option.mem_some_iff,
          forall_eq', canonicalEntry, entryWire]
        constructor
        · rintro ⟨_, ⟨hlen, rfl⟩, _, ⟨hvalid, rfl⟩, _,
            ⟨hhead, hrest, hall, rfl⟩, rfl⟩
          exact ⟨hdiffer, ⟨hhead, hrest⟩, ⟨⟨hlen, hvalid⟩, hall⟩, rfl⟩
        · rintro ⟨_, ⟨hhead, hrest⟩, ⟨⟨hlen, hvalid⟩, hall⟩, rfl⟩
          exact ⟨_, ⟨hlen, rfl⟩, _, ⟨hvalid, rfl⟩, _,
            ⟨hhead, hrest, hall, rfl⟩, rfl⟩

theorem chain_sortEntries {entries : List Entry} :
    ((sortEntries entries).IsChain fun first second =>
        keyBytes first.1 ≠ keyBytes second.1) ↔
      (entries.map Prod.fst).Nodup := by
  rw [← nodup_keyBytes]
  constructor
  · intro h
    have hstrict := (sortBy_sorted (fun entry : Entry => keyBytes entry.1)
      entries).strict_of_chain h
    exact ((sortBy_perm _ entries).map _).nodup_iff.mp hstrict.nodup
  · intro h
    exact ((sortBy_strict h).imp ne_of_lt).isChain

theorem sortEntries_perm {α : Type} (entries : List (String × α)) :
    (sortEntries entries).Perm entries :=
  sortBy_perm _ entries

@[simp] theorem length_sortEntries {α : Type} (entries : List (String × α)) :
    (sortEntries entries).length = entries.length :=
  length_sortBy _ entries

theorem map_sortEntries {α β : Type} {f : String × α → String × β}
    (hkey : ∀ entry, (f entry).1 = entry.1) (entries : List (String × α)) :
    (sortEntries entries).map f = sortEntries (entries.map f) :=
  map_sortBy (fun entry => by rw [hkey]) entries

theorem writeSorted_eq_ok {entries : List Entry}
    (h : ∀ entry ∈ entries, EncodesWire entry.2) (b : Bytes) :
    writeEntries none (sortEntries
        (entries.map fun entry => (entry.1, encodeValue entry.2))) = .ok b ↔
      (entries.map Prod.fst).Nodup ∧
        (∀ entry ∈ entries, entry.1.utf8ByteSize < 2 ^ 32 ∧ Valid entry.2) ∧
        b = (sortEntries (entries.map canonicalEntry)).flatMap entryWire := by
  have hsorted : ∀ entry ∈ sortEntries entries, EncodesWire entry.2 := by
    intro entry hmem
    exact h entry ((mem_sortBy _).mp hmem)
  have hall : (∀ entry ∈ sortEntries entries,
        entry.1.utf8ByteSize < 2 ^ 32 ∧ Valid entry.2) ↔
      ∀ entry ∈ entries, entry.1.utf8ByteSize < 2 ^ 32 ∧ Valid entry.2 :=
    forall_congr' fun entry => imp_congr_left (mem_sortBy _)
  have hmap := map_sortEntries (fun entry => rfl : ∀ entry : Entry,
    ((entry.1, encodeValue entry.2) : String × Except Error Bytes).1 =
      entry.1) entries
  rw [← hmap, writeEntries_eq_ok hsorted, chain_sortEntries, hall,
    map_sortEntries (f := canonicalEntry) fun entry => rfl]
  simp

theorem fixed_eq_ok {value : StructuredValue} {out b : Bytes}
    (hvalid : Valid value) :
    (.ok out : Except Error Bytes) = .ok b ↔ Valid value ∧ b = out := by
  rw [Except.ok.injEq, eq_comm]
  exact (and_iff_right hvalid).symm

theorem encodeValue_eq_ok (value : StructuredValue) :
    EncodesWire value := by
  induction value using induction_on_children with
  | h value ih =>
      intro b
      cases value with
      | list values =>
          have hinside : ∀ value ∈ values, EncodesWire value := ih
          have hitems := encodeValues_eq_ok hinside
          simp only [encodeValue, bind_eq_ok, writeLen_eq_ok, hitems, pure,
            Except.pure, Except.ok.injEq, valid_list, canonical,
            canonicalValues_eq, wire, wires_eq, List.length_map]
          constructor
          · rintro ⟨_, ⟨hlen, rfl⟩, _, ⟨hall, rfl⟩, rfl⟩
            exact ⟨⟨hlen, hall⟩, rfl⟩
          · rintro ⟨⟨hlen, hall⟩, rfl⟩
            exact ⟨_, ⟨hlen, rfl⟩, _, ⟨hall, rfl⟩, rfl⟩
      | dict entries =>
          have hinside : ∀ entry ∈ entries, EncodesWire entry.2 :=
            fun entry hmem => ih entry.2 (List.mem_map_of_mem hmem)
          have hitems := writeSorted_eq_ok hinside
          simp only [encodeValue, bind_eq_ok, writeLen_eq_ok, hitems, pure,
            Except.pure, Except.ok.injEq, valid_dict, canonical,
            canonicalEntries_eq, wire, entryWires_eq, length_sortEntries,
            encodeEntries_eq, List.length_map]
          constructor
          · rintro ⟨_, ⟨hlen, rfl⟩, _, ⟨hnodup, hall, rfl⟩, rfl⟩
            exact ⟨⟨hlen, hnodup, hall⟩, rfl⟩
          · rintro ⟨⟨hlen, hnodup, hall⟩, rfl⟩
            exact ⟨_, ⟨hlen, rfl⟩, _, ⟨hnodup, hall, rfl⟩, rfl⟩
      | string value =>
          have hvalid : Valid (.string value) ↔ Fits (.string value) :=
            valid_leaf rfl
          simp only [encodeValue, bind_eq_ok, writeLen_eq_ok, pure,
            Except.pure, Except.ok.injEq, hvalid, Fits, canonical, wire]
          constructor
          · rintro ⟨_, ⟨hlen, rfl⟩, rfl⟩
            exact ⟨hlen, rfl⟩
          · rintro ⟨hlen, rfl⟩
            exact ⟨_, ⟨hlen, rfl⟩, rfl⟩
      | bytes value =>
          have hvalid : Valid (.bytes value) ↔ Fits (.bytes value) :=
            valid_leaf rfl
          simp only [encodeValue, bind_eq_ok, writeLen_eq_ok, pure,
            Except.pure, Except.ok.injEq, hvalid, Fits, canonical, wire]
          constructor
          · rintro ⟨_, ⟨hlen, rfl⟩, rfl⟩
            exact ⟨hlen, rfl⟩
          · rintro ⟨hlen, rfl⟩
            exact ⟨_, ⟨hlen, rfl⟩, rfl⟩
      | bool value =>
          have hvalid : Valid (.bool value) := (valid_leaf rfl).mpr trivial
          cases value <;> exact fixed_eq_ok hvalid
      | null => exact fixed_eq_ok ((valid_leaf rfl).mpr trivial)
      | integer value => exact fixed_eq_ok ((valid_leaf rfl).mpr trivial)
      | unsignedInteger value =>
          exact fixed_eq_ok ((valid_leaf rfl).mpr trivial)
      | float bits => exact fixed_eq_ok ((valid_leaf rfl).mpr trivial)

theorem encode_eq_ok {value : StructuredValue} {b : Bytes} :
    encode value = .ok b ↔ Valid value ∧ b = magic ++ wire (canonical value) := by
  simp only [encode, bind_eq_ok, encodeValue_eq_ok value _, pure, Except.pure,
    Except.ok.injEq]
  constructor
  · rintro ⟨_, ⟨hvalid, rfl⟩, rfl⟩
    exact ⟨hvalid, rfl⟩
  · rintro ⟨hvalid, rfl⟩
    exact ⟨_, ⟨hvalid, rfl⟩, rfl⟩

/-! ## Canonical values -/

theorem keys_canonicalEntries (entries : List Entry) :
    (entries.map canonicalEntry).map Prod.fst = entries.map Prod.fst := by
  rw [List.map_map]
  rfl

theorem valid_canonical (value : StructuredValue) :
    Valid (canonical value) ↔ Valid value := by
  induction value using induction_on_children with
  | h value ih =>
      cases value with
      | list values =>
          rw [canonical, canonicalValues_eq, valid_list, valid_list,
            List.length_map, List.forall_mem_map]
          exact and_congr_right fun _ => forall₂_congr ih
      | dict entries =>
          have hkeys : ((sortEntries (entries.map canonicalEntry)).map
                Prod.fst).Nodup ↔ (entries.map Prod.fst).Nodup := by
            rw [← keys_canonicalEntries entries]
            exact ((sortEntries_perm _).map Prod.fst).nodup_iff
          rw [canonical, canonicalEntries_eq, valid_dict, valid_dict, hkeys,
            length_sortEntries, List.length_map]
          refine and_congr_right fun _ => and_congr_right fun _ => ?_
          have hmem : ∀ entry, entry ∈ sortEntries
                (entries.map canonicalEntry) ↔
              entry ∈ entries.map canonicalEntry := fun entry => mem_sortBy _
          simp only [hmem, List.forall_mem_map]
          exact forall₂_congr fun entry hentry => and_congr_right fun _ =>
            ih entry.2 (List.mem_map_of_mem hentry)
      | _ => rfl

theorem ordered_canonical {value : StructuredValue} (h : Valid value) :
    Ordered (canonical value) := by
  induction value using induction_on_children with
  | h value ih =>
      cases value with
      | list values =>
          rw [canonical, canonicalValues_eq, ordered_list, List.forall_mem_map]
          exact fun value hmem => ih value hmem ((valid_list.mp h).2 value hmem)
      | dict entries =>
          obtain ⟨_, hnodup, hall⟩ := valid_dict.mp h
          rw [canonical, canonicalEntries_eq, ordered_dict]
          constructor
          · apply sortBy_strict
            rwa [nodup_keyBytes, keys_canonicalEntries]
          · intro entry hmem
            obtain ⟨source, hsource, rfl⟩ := List.mem_map.mp
              ((mem_sortBy _).mp hmem)
            exact ih source.2 (List.mem_map_of_mem hsource)
              (hall source hsource).2
      | _ => exact ordered_leaf rfl

theorem canonical_eq_self {value : StructuredValue} (h : Ordered value) :
    canonical value = value := by
  induction value using induction_on_children with
  | h value ih =>
      cases value with
      | list values =>
          rw [canonical, canonicalValues_eq]
          have hsame : values.map canonical = values := by
            conv_rhs => rw [← List.map_id values]
            exact List.map_congr_left fun value hmem =>
              ih value hmem (ordered_list.mp h value hmem)
          rw [hsame]
      | dict entries =>
          obtain ⟨hstrict, hall⟩ := ordered_dict.mp h
          have hsame : entries.map canonicalEntry = entries := by
            conv_rhs => rw [← List.map_id entries]
            refine List.map_congr_left fun entry hmem => ?_
            rw [canonicalEntry, ih entry.2 (List.mem_map_of_mem hmem)
              (hall entry hmem)]
            rfl
          rw [canonical, canonicalEntries_eq, hsame, sortEntries,
            hstrict.sorted.sortBy_eq]
      | _ => rfl

theorem canonical_canonical {value : StructuredValue} (h : Valid value) :
    canonical (canonical value) = canonical value :=
  canonical_eq_self (ordered_canonical h)

/-! ## One value for a wire form -/

theorem toLeBytes_four_append_inj {n m : Nat} {x y : Bytes} (hn : n < 2 ^ 32)
    (hm : m < 2 ^ 32)
    (h : toLeBytes 4 n ++ x = toLeBytes 4 m ++ y) : n = m ∧ x = y := by
  obtain ⟨hlen, hrest⟩ := List.append_inj h (by simp)
  exact ⟨toLeBytes_inj (by omega) (by omega) hlen, hrest⟩

theorem toLeBytes_eight_append_inj {n m : UInt64} {x y : Bytes}
    (h : toLeBytes 8 n.toNat ++ x = toLeBytes 8 m.toNat ++ y) :
    n = m ∧ x = y := by
  obtain ⟨hlen, hrest⟩ := List.append_inj h (by simp)
  exact ⟨UInt64.toNat_inj.mp (toLeBytes_inj n.toNat_lt m.toNat_lt hlen), hrest⟩

def tag : StructuredValue → UInt8
  | .null => 0
  | .bool value => if value then 2 else 1
  | .integer _ => 3
  | .float _ => 4
  | .string _ => 5
  | .bytes _ => 6
  | .list _ => 7
  | .dict _ => 8
  | .unsignedInteger _ => 9

def body : StructuredValue → Bytes
  | .integer value => toLeBytes 8 value.toUInt64.toNat
  | .unsignedInteger value => toLeBytes 8 value.toNat
  | .float bits => toLeBytes 8 bits.toNat
  | .string value => toLeBytes 4 value.utf8ByteSize ++ utf8 value
  | .bytes value => toLeBytes 4 value.length ++ value
  | .list values => toLeBytes 4 values.length ++ values.flatMap wire
  | .dict entries => toLeBytes 4 entries.length ++ entries.flatMap entryWire
  | _ => []

theorem wire_eq_cons (value : StructuredValue) :
    wire value = value.tag :: value.body := by
  cases value with
  | bool value => cases value <;> rfl
  | list values => rw [wire, wires_eq]; rfl
  | dict entries => rw [wire, entryWires_eq]; rfl
  | _ => rfl

theorem entryWire_prefixFree {first second : Entry}
    (hfirst : first.1.utf8ByteSize < 2 ^ 32)
    (hsecond : second.1.utf8ByteSize < 2 ^ 32)
    (h : PrefixFreeAt wire first.2 second.2) :
    PrefixFreeAt entryWire first second := by
  obtain ⟨key, value⟩ := first
  obtain ⟨key', value'⟩ := second
  intro x y heq
  simp only [entryWire, List.append_assoc] at heq
  obtain ⟨hsize, hbehind⟩ := toLeBytes_four_append_inj hfirst hsecond heq
  obtain ⟨hkey, hvalue⟩ := List.append_inj hbehind (by simpa using hsize)
  obtain ⟨rfl, hrest⟩ := h _ _ hvalue
  obtain rfl := utf8_injective hkey
  exact ⟨rfl, hrest⟩

theorem wire_prefixFree (first : StructuredValue) :
    ∀ second, Valid first → Valid second →
      PrefixFreeAt wire first second := by
  induction first using induction_on_children with
  | h first ih =>
      intro second hfirst hsecond x y h
      rw [wire_eq_cons, wire_eq_cons, List.cons_append, List.cons_append,
        List.cons.injEq] at h
      obtain ⟨htag, hbody⟩ := h
      cases first with
      | list values =>
          cases second with
          | list values' =>
              obtain ⟨hlen, hvalues⟩ := valid_list.mp hfirst
              obtain ⟨hlen', hvalues'⟩ := valid_list.mp hsecond
              simp only [body, List.append_assoc] at hbody
              obtain ⟨hsame, hbehind⟩ :=
                toLeBytes_four_append_inj hlen hlen' hbody
              obtain ⟨rfl, hrest⟩ := prefixFreeAt_flatMap hsame
                (fun value hmem value' hmem' => ih value hmem value'
                  (hvalues value hmem) (hvalues' value' hmem')) _ _ hbehind
              exact ⟨rfl, hrest⟩
          | _ => grind [tag]
      | dict entries =>
          cases second with
          | dict entries' =>
              obtain ⟨hlen, _, hentries⟩ := valid_dict.mp hfirst
              obtain ⟨hlen', _, hentries'⟩ := valid_dict.mp hsecond
              simp only [body, List.append_assoc] at hbody
              obtain ⟨hsame, hbehind⟩ :=
                toLeBytes_four_append_inj hlen hlen' hbody
              obtain ⟨rfl, hrest⟩ := prefixFreeAt_flatMap hsame
                (fun entry hmem entry' hmem' => entryWire_prefixFree
                  (hentries entry hmem).1 (hentries' entry' hmem').1
                  (ih entry.2 (List.mem_map_of_mem hmem) entry'.2
                    (hentries entry hmem).2 (hentries' entry' hmem').2))
                _ _ hbehind
              exact ⟨rfl, hrest⟩
          | _ => grind [tag]
      | string value =>
          cases second with
          | string value' =>
              have hlen : value.utf8ByteSize < 2 ^ 32 :=
                (valid_leaf rfl).mp hfirst
              have hlen' : value'.utf8ByteSize < 2 ^ 32 :=
                (valid_leaf rfl).mp hsecond
              simp only [body, List.append_assoc] at hbody
              obtain ⟨hsame, hbehind⟩ :=
                toLeBytes_four_append_inj hlen hlen' hbody
              obtain ⟨htext, hrest⟩ := List.append_inj hbehind (by simpa)
              obtain rfl := utf8_injective htext
              exact ⟨rfl, hrest⟩
          | _ => grind [tag]
      | bytes value =>
          cases second with
          | bytes value' =>
              have hlen : value.length < 2 ^ 32 := (valid_leaf rfl).mp hfirst
              have hlen' : value'.length < 2 ^ 32 :=
                (valid_leaf rfl).mp hsecond
              simp only [body, List.append_assoc] at hbody
              obtain ⟨hsame, hbehind⟩ :=
                toLeBytes_four_append_inj hlen hlen' hbody
              obtain ⟨rfl, hrest⟩ := List.append_inj hbehind hsame
              exact ⟨rfl, hrest⟩
          | _ => grind [tag]
      | integer value =>
          cases second with
          | integer value' =>
              obtain ⟨hsame, hrest⟩ := toLeBytes_eight_append_inj hbody
              cases value
              cases value'
              cases hsame
              exact ⟨rfl, hrest⟩
          | _ => grind [tag]
      | unsignedInteger value =>
          cases second with
          | unsignedInteger value' =>
              obtain ⟨rfl, hrest⟩ := toLeBytes_eight_append_inj hbody
              exact ⟨rfl, hrest⟩
          | _ => grind [tag]
      | float bits =>
          cases second with
          | float bits' =>
              obtain ⟨rfl, hrest⟩ := toLeBytes_eight_append_inj hbody
              exact ⟨rfl, hrest⟩
          | _ => grind [tag]
      | bool value => cases second <;> grind [tag, body]
      | null => cases second <;> grind [tag, body]

theorem wire_inj {first second : StructuredValue} (hfirst : Valid first)
    (hsecond : Valid second) (h : wire first = wire second) :
    first = second :=
  (wire_prefixFree first second hfirst hsecond [] [] (by rw [h])).1

end StructuredValue

end OpenKeyV
