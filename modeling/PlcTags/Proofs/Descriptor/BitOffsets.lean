import PlcTags.Plan.Slices
import PlcTags.Proofs.Codec.Written
import PlcTags.Proofs.Descriptor.Reading
import PlcTags.Proofs.Layout.Leaves

/-!
# Bit offsets

The offset of a descriptor counts bits exactly where its text names a truth value in an array. A
value that is declared as a truth value is then read and written at these bits. Its type is another
word of the text, though, and nothing compares the two: a number may name such a leaf, and the
number of the bit is then taken as that of an octet (`used_of_bitAddressed`,
`not_forall_bool_of_bitAddressed`).

* `Layout.exists_leaf_of_resolve`: a path that resolves names a leaf of the structure.
* `Descriptor.NamesFlag`, `UsesBits`, `UsesOctets`: what a bit offset means, and how it is used.
-/

namespace PlcTags

open Layout

/-! ## Leaves at bits -/

namespace Layout

theorem exists_leaf_of_resolve {table : Table} {name : String} {path : List Nat}
    {place : LeafOffset} (h : table.resolve name path = .ok place) :
    ∃ (compiled : Compiled) (i : Nat), table.find? name = some (.ok compiled) ∧
      compiled.offsets[i]? = some place := by
  unfold Table.resolve at h
  split at h
  · cases h
  · cases h
  · next compiled hcompiled =>
    unfold Layout.resolve at h
    split at h
    · next found hfound =>
      cases h
      obtain ⟨i, -, hi⟩ := Option.bind_eq_some_iff.mp hfound
      exact ⟨compiled, i, hcompiled, hi⟩
    · cases h

/-- The leaves of a compiled structure that lie at bits are truth values. -/
theorem bool_of_bit {defs : Definitions} {name : String} {compiled : Compiled} {i position : Nat}
    (hcompiled : (Table.compile defs).find? name = some (.ok compiled))
    (hplace : compiled.offsets[i]? = some (.bit position)) :
    (kinds compiled.tokens)[i]? = some .bool := by
  obtain ⟨tokens, -, h⟩ := bind_eq_ok_iff.mp (compile_of_find? hcompiled)
  obtain ⟨table, htable, heq⟩ := bind_eq_ok_iff.mp h
  cases heq
  have hflags : BitsAreFlags (kinds tokens) table := offsetsFrom_bitsAreFlags htable
  have hlt : i < (kinds tokens).length :=
    hflags.length_eq ▸ (List.getElem?_eq_some_iff.mp hplace).1
  have hkind := List.getElem?_eq_getElem hlt
  rw [hkind, hflags.eq_bool hkind hplace rfl]

end Layout

namespace Descriptor

/-! ## What a bit offset means -/

/-- **A descriptor names a truth value** of a structure that lies at its bit. -/
def NamesFlag (structs : Table) (d : Descriptor) : Prop :=
  ∃ (name : String) (path : List Nat) (compiled : Compiled) (i : Nat),
    d.source = .leaf name path ∧ structs.resolve name path = .ok (.bit d.offset) ∧
      structs.find? name = some (.ok compiled) ∧ (kinds compiled.tokens)[i]? = some .bool ∧
        compiled.offsets[i]? = some (.bit d.offset)

/-- The bits of a value, one for each of its elements. -/
def AtBits (d : Descriptor) (options : DecodeOptions) (bit : Nat) : Prop :=
  d.base options ≤ bit ∧ bit < d.base options + d.elements

/-- **The bits are used as such**: no others are read, and no others are written. -/
structure UsesBits (d : Descriptor) : Prop where
  decode_eq : ∀ (options : DecodeOptions) (a b : Buffer), a.SameOn (d.AtBits options) b →
    decode a d options = decode b d options
  encode_sameOn : ∀ (buffer : Buffer) (value : Value) (options : DecodeOptions),
    (encode buffer d value options).1.SameOn (fun bit => ¬ d.AtBits options bit) buffer

/-- **The bit is used as an octet**: reading and writing are as if the offset counted octets. -/
structure UsesOctets (d : Descriptor) : Prop where
  decode_eq : ∀ (buffer : Buffer) (options : DecodeOptions),
    decode buffer d options = decode buffer { d with bitAddressed := false } options
  encode_eq : ∀ (buffer : Buffer) (value : Value) (options : DecodeOptions),
    encode buffer d value options = encode buffer { d with bitAddressed := false } value options

variable {d : Descriptor}

theorem usesBits_of_bool (htype : d.type = .bool) (hbits : d.bitAddressed = true) :
    d.UsesBits := by
  have hfield : ∀ options, d.field options = .flags true d.elements := by
    intro options
    unfold field
    rw [htype, hbits]
  constructor
  · intro options a b h
    rw [decode_eq_read, decode_eq_read, hfield]
    refine Field.read_congr rfl (h.mono fun bit hbit => ?_)
    have hbit : 1 * d.base options ≤ bit ∧ bit < 1 * (d.base options + d.elements) := hbit
    exact ⟨by omega, by omega⟩
  · intro buffer value options
    refine (sameOn_encode buffer d value options).mono fun bit hbit hwritten => hbit ?_
    unfold Written at hwritten
    rw [hfield] at hwritten
    obtain ⟨index, hindex, heq⟩ := hwritten
    rw [if_pos rfl] at heq
    exact ⟨by omega, by omega⟩

/-- Only truth values heed whether an offset counts bits. -/
theorem usesOctets_of_ne_bool (htype : d.type ≠ .bool) : d.UsesOctets := by
  have hfield : ∀ options, d.field options = { d with bitAddressed := false }.field options := by
    intro options
    unfold field
    cases hd : d.type with
    | bool => exact absurd hd htype
    | _ => rfl
  constructor
  · intro buffer options
    rw [decode_eq_read, decode_eq_read, hfield]
    rfl
  · intro buffer value options
    rw [encode_eq_write, encode_eq_write, hfield]
    rfl

/-- In a slice a bit moves eight times as far as an octet, whatever the type. -/
theorem rebase?_of_bitAddressed {slice : Slice} {index size moved : Nat}
    (hbits : d.bitAddressed = true)
    (h : slice.rebase? index size d.offset d.bitAddressed = some moved) :
    moved = d.offset + 8 * ((index - slice.start) * size) := by
  unfold Slice.rebase? at h
  rw [hbits] at h
  dsimp only at h
  split_ifs at h with hstart htrue hfits
  · exact (Option.some.inj h).symm
  · exact absurd rfl htrue

/-- **What becomes of a bit offset.** It comes from the text, which names a truth value in an array,
and slices move it as a bit. A truth value is read and written at these bits; every other type takes
the bit for an octet. -/
theorem used_of_bitAddressed {pollers : List String} {defs : Definitions} {text : String}
    (h : Descriptor.parse ⟨pollers, Table.compile defs⟩ text = .ok d)
    (hbits : d.bitAddressed = true) : d.NamesFlag (Table.compile defs) ∧
      (∀ (slice : Slice) (index size moved : Nat),
        slice.rebase? index size d.offset d.bitAddressed = some moved →
          moved = d.offset + 8 * ((index - slice.start) * size)) ∧
      (d.type = .bool → d.UsesBits) ∧ (d.type ≠ .bool → d.UsesOctets) := by
  refine ⟨?_, fun _ _ _ _ => rebase?_of_bitAddressed hbits,
    fun htype => usesBits_of_bool htype hbits, usesOctets_of_ne_bool⟩
  obtain ⟨_, _, _, -, ⟨-, hfields⟩, -⟩ := parse_eq_ok_iff.mp h
  have hplaced := hfields.placed
  unfold Placed at hplaced
  split at hplaced
  · exact absurd (hplaced.2.symm.trans hbits) Bool.false_ne_true
  · exact absurd (hplaced.2.2.symm.trans hbits) Bool.false_ne_true
  · next name path hsource =>
    obtain ⟨place, hresolve, hoffset, hbit⟩ := hplaced
    cases place with
    | byte position => exact absurd (hbit.symm.trans hbits) Bool.false_ne_true
    | bit position =>
      obtain rfl : d.offset = position := hoffset
      obtain ⟨compiled, i, hcompiled, hplace⟩ := exists_leaf_of_resolve hresolve
      exact ⟨name, path, compiled, i, hsource, hresolve, hcompiled, bool_of_bit hcompiled hplace,
        hplace⟩

/-- A word of state and eight flags. -/
def flagDefs : Definitions where
  rows := [⟨"Flags", ["INT", "ARRAY[0..7] OF BOOL"]⟩]
  distinct := by decide

/-- The third flag. -/
def thirdFlag (type : DataType) : Descriptor where
  poller := none
  tag := "flags"
  startIndex := none
  type := type
  count := 1
  source := .leaf "Flags" [2, 3]
  offset := 18
  bitAddressed := true
  attributes := .defaults false
  extras := "&allow_packing=1"

theorem used_of_bitAddressed_thirdFlag :
    Descriptor.parse ⟨[], Table.compile flagDefs⟩ "flags BOOL none Flags[2][3] none" =
        .ok (thirdFlag .bool) ∧
      (thirdFlag .bool).NamesFlag (Table.compile flagDefs) ∧ (thirdFlag .bool).UsesBits := by
  have hread : Descriptor.parse ⟨[], Table.compile flagDefs⟩ "flags BOOL none Flags[2][3] none" =
      .ok (thirdFlag .bool) := by
    with_unfolding_all rfl
  obtain ⟨hnames, -, huses, -⟩ := used_of_bitAddressed hread rfl
  exact ⟨hread, hnames, huses rfl⟩

/-- **A bit offset may be that of a number**: the third flag is accepted as an integer, which lies in
octets. -/
theorem not_forall_bool_of_bitAddressed : ¬ ∀ (scope : Scope) (text : String) (d : Descriptor),
    Descriptor.parse scope text = .ok d → d.bitAddressed = true → d.type = .bool := by
  intro h
  have hread : Descriptor.parse ⟨[], Table.compile flagDefs⟩ "flags INT none Flags[2][3] none" =
      .ok (thirdFlag .int) := by
    with_unfolding_all rfl
  cases h _ _ _ hread rfl

end Descriptor

end PlcTags
