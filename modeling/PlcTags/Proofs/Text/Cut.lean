import PlcTags.Proofs.Text.Utf8

/-!
# Reading a text that was cut

The octets of a text are cut after some of them, which may be in the middle of a character. What is
read of them are the whole characters, and one replacement for the character that was cut.

* `LongestFit`: the whole characters that fit some octets.
* `wholePart`: how they are found, character by character (`longestFit_wholePart`).
* `decodeFrom_take_utf8EncodeChar`: some octets of a character, but not all, are read as one
  replacement.
* `decode_take_encode`: **what is read of a text that was cut**.
-/

namespace PlcTags.Text.Utf8

variable {a b c d : UInt8} {n capacity : Nat} {text kept : List Char}

/-! ## The characters that fit -/

/-- **The longest beginning of a text**, in whole characters, whose octets fit a capacity. -/
structure LongestFit (capacity : Nat) (text kept : List Char) : Prop where
  isPrefix : kept <+: text
  fits : (encode kept).length ≤ capacity
  longest : ∀ other, other <+: text → (encode other).length ≤ capacity → other <+: kept

/-- The characters of a text up to the first that does not fit. -/
def wholePart (capacity : Nat) : List Char → List Char
  | [] => []
  | ch :: rest =>
    if (String.utf8EncodeChar ch).length ≤ capacity then
      ch :: wholePart (capacity - (String.utf8EncodeChar ch).length) rest
    else []

theorem encode_cons (ch : Char) (rest : List Char) :
    encode (ch :: rest) = String.utf8EncodeChar ch ++ encode rest :=
  List.flatMap_cons

theorem length_encode_cons (ch : Char) (rest : List Char) :
    (encode (ch :: rest)).length = (String.utf8EncodeChar ch).length + (encode rest).length := by
  rw [encode_cons, List.length_append]

theorem longestFit_wholePart (capacity : Nat) (text : List Char) :
    LongestFit capacity text (wholePart capacity text) := by
  induction text generalizing capacity with
  | nil => exact ⟨List.prefix_rfl, Nat.zero_le _, fun _ hother _ => hother⟩
  | cons ch rest ih =>
    unfold wholePart
    split_ifs with hfits
    · have hrest := ih (capacity - (String.utf8EncodeChar ch).length)
      refine ⟨(List.prefix_cons_inj ch).mpr hrest.isPrefix, ?_, fun other hother hlength => ?_⟩
      · have hlast := hrest.fits
        rw [length_encode_cons]
        omega
      · cases other with
        | nil => exact List.nil_prefix
        | cons first others =>
          obtain ⟨rfl, hothers⟩ := List.cons_prefix_cons.mp hother
          rw [length_encode_cons] at hlength
          exact (List.prefix_cons_inj first).mpr (hrest.longest others hothers (by omega))
    · refine ⟨List.nil_prefix, Nat.zero_le _, fun other hother hlength => ?_⟩
      cases other with
      | nil => exact List.prefix_rfl
      | cons first others =>
        obtain ⟨rfl, -⟩ := List.cons_prefix_cons.mp hother
        rw [length_encode_cons] at hlength
        omega

/-- There is one longest beginning. -/
theorem LongestFit.eq {other : List Char} (h : LongestFit capacity text kept)
    (h' : LongestFit capacity text other) : kept = other :=
  (h'.longest kept h.isPrefix h.fits).eq_of_length_le
    (h.longest other h'.isPrefix h'.fits).length_le

/-! ## A character that is cut -/

/-- A character that was begun and not finished is replaced. -/
theorem decodeFrom_some_nil (p : Pending) : decodeFrom (some p) [] = [replacement] := rfl

theorem decodeFrom_cut_two (ha : a.toNat = n / 64 + 192) (hlow : 0x80 ≤ n) (hhigh : n < 0x800) :
    decodeFrom none [a] = [replacement] := by
  have hlead : lead a.toNat = .more ⟨n / 64, 1, 0x80, 0xBF⟩ := by
    unfold lead
    rw [ha, if_neg (by omega), if_neg (by omega), if_pos (by omega), Nat.add_sub_cancel]
  rw [decodeFrom_lead hlead, decodeFrom_some_nil]

theorem decodeFrom_cut_three (ha : a.toNat = n / 4096 + 224) (hb : b.toNat = n / 64 % 64 + 128)
    (hlow : 0x800 ≤ n) (hhigh : n < 0x10000) (hvalid : n < 0xD800 ∨ 0xDFFF < n) :
    decodeFrom none [a] = [replacement] ∧ decodeFrom none [a, b] = [replacement] := by
  obtain ⟨p, hlead, -, howed, hfirst, hlast⟩ := exists_lead_three hlow hhigh hvalid
  rw [decodeFrom_lead (ha ▸ hlead), decodeFrom_lead (ha ▸ hlead),
    decodeFrom_more (by omega) (by omega) (by omega), decodeFrom_some_nil, decodeFrom_some_nil]
  exact ⟨rfl, rfl⟩

theorem decodeFrom_cut_four (ha : a.toNat = n / 262144 + 240) (hb : b.toNat = n / 4096 % 64 + 128)
    (hc : c.toNat = n / 64 % 64 + 128) (hlow : 0x10000 ≤ n) (hhigh : n < 0x110000) :
    decodeFrom none [a] = [replacement] ∧ decodeFrom none [a, b] = [replacement] ∧
      decodeFrom none [a, b, c] = [replacement] := by
  obtain ⟨p, hlead, -, howed, hfirst, hlast⟩ := exists_lead_four hlow hhigh
  have hsecond : ∀ rest, decodeFrom none (a :: b :: rest) =
      decodeFrom (some ⟨64 * p.bits + (b.toNat - 0x80), 2, 0x80, 0xBF⟩) rest := by
    intro rest
    rw [decodeFrom_lead (ha ▸ hlead), decodeFrom_more (by omega) (by omega) (by omega), howed]
  refine ⟨?_, hsecond [], ?_⟩
  · rw [decodeFrom_lead (ha ▸ hlead), decodeFrom_some_nil]
  · rw [hsecond, decodeFrom_more (by show 2 ≠ 1; decide) (by rw [hc]; exact Nat.le_add_left _ _)
      (by rw [hc]; show _ ≤ 191; omega), decodeFrom_some_nil]

/-- **Some octets of a character**, but not all, are read as one replacement. -/
theorem decodeFrom_take_utf8EncodeChar {ch : Char} {count : Nat} (hpos : 0 < count)
    (hcut : count < (String.utf8EncodeChar ch).length) :
    decodeFrom none ((String.utf8EncodeChar ch).take count) = [replacement] := by
  have hvalid : ch.val.toNat < 0xD800 ∨ 0xDFFF < ch.val.toNat ∧ ch.val.toNat < 0x110000 := ch.valid
  have hoctet : ∀ {n m : Nat}, n = m → m < 256 → (UInt8.ofNat n).toNat = m := by
    rintro n _ rfl hlt
    exact UInt8.toNat_ofNat_of_lt' hlt
  unfold String.utf8EncodeChar at hcut ⊢
  dsimp only at hcut ⊢
  generalize ch.val.toNat = n at hvalid hcut
  -- a character of one octet cannot be cut, the others can after each octet but the last
  split_ifs at hcut ⊢ with hone htwo hthree
  · rw [List.length_singleton] at hcut
    omega
  · rw [List.length_cons, List.length_singleton] at hcut
    obtain rfl : count = 1 := by omega
    have ha : (UInt8.ofNat (n / 64 % 32 + 192)).toNat = n / 64 + 192 :=
      hoctet (by omega) (by omega)
    rw [List.take_succ_cons, List.take_zero, decodeFrom_cut_two ha (by omega) (by omega)]
  · rw [List.length_cons, List.length_cons, List.length_singleton] at hcut
    have hcount : count = 1 ∨ count = 2 := by omega
    have ha : (UInt8.ofNat (n / 4096 % 16 + 224)).toNat = n / 4096 + 224 :=
      hoctet (by omega) (by omega)
    obtain ⟨hfirst, hsecond⟩ := decodeFrom_cut_three ha (hoctet rfl (by omega)) (by omega)
      (by omega) (by omega)
    rcases hcount with rfl | rfl
    · rw [List.take_succ_cons, List.take_zero, hfirst]
    · rw [List.take_succ_cons, List.take_succ_cons, List.take_zero, hsecond]
  · rw [List.length_cons, List.length_cons, List.length_cons, List.length_singleton] at hcut
    have hcount : count = 1 ∨ count = 2 ∨ count = 3 := by omega
    have ha : (UInt8.ofNat (n / 262144 % 8 + 240)).toNat = n / 262144 + 240 :=
      hoctet (by omega) (by omega)
    obtain ⟨hfirst, hsecond, hthird⟩ := decodeFrom_cut_four ha (hoctet rfl (by omega))
      (hoctet rfl (by omega)) (by omega) (by omega)
    rcases hcount with rfl | rfl | rfl
    · rw [List.take_succ_cons, List.take_zero, hfirst]
    · rw [List.take_succ_cons, List.take_succ_cons, List.take_zero, hsecond]
    · rw [List.take_succ_cons, List.take_succ_cons, List.take_succ_cons, List.take_zero, hthird]

/-! ## A text that is cut -/

/-- Is a text cut between two characters, or not at all? -/
def CutClean (capacity : Nat) (text kept : List Char) : Prop :=
  kept = text ∨ (encode kept).length = capacity

/-- **What is read of a text that was cut**: the characters that fit, and one replacement if there
was a part of a character behind them. -/
theorem decode_take_encode (capacity : Nat) (text : List Char) :
    ∃ kept, LongestFit capacity text kept ∧
      (CutClean capacity text kept → decode ((encode text).take capacity) = kept) ∧
      (¬ CutClean capacity text kept →
        decode ((encode text).take capacity) = kept ++ [replacement]) := by
  refine ⟨wholePart capacity text, longestFit_wholePart capacity text, ?_⟩
  unfold decode
  induction text generalizing capacity with
  | nil =>
    refine ⟨fun _ => ?_, fun h => (h (Or.inl rfl)).elim⟩
    rw [encode, List.flatMap_nil, List.take_nil]
    rfl
  | cons ch rest ih =>
    have hclean := ih (capacity - (String.utf8EncodeChar ch).length)
    rw [encode_cons, List.take_append]
    unfold wholePart
    split_ifs with hfits
    · rw [List.take_of_length_le hfits, decodeFrom_utf8EncodeChar]
      have hsame : CutClean capacity (ch :: rest)
          (ch :: wholePart (capacity - (String.utf8EncodeChar ch).length) rest) ↔
          CutClean (capacity - (String.utf8EncodeChar ch).length) rest
            (wholePart (capacity - (String.utf8EncodeChar ch).length) rest) := by
        unfold CutClean
        rw [length_encode_cons, List.cons.injEq]
        refine or_congr (and_iff_right rfl) ?_
        omega
      rw [hsame]
      exact ⟨fun h => congrArg _ (hclean.1 h), fun h => congrArg _ (hclean.2 h)⟩
    · rw [Nat.sub_eq_zero_of_le (Nat.le_of_not_le hfits), List.take_zero, List.append_nil]
      rcases Nat.eq_zero_or_pos capacity with rfl | hpos
      · exact ⟨fun _ => rfl, fun h => (h (Or.inr rfl)).elim⟩
      · refine ⟨fun h => ?_, fun _ => decodeFrom_take_utf8EncodeChar hpos (by omega)⟩
        rcases h with h | h
        · cases h
        · exact absurd h (Nat.ne_of_lt hpos)

end PlcTags.Text.Utf8
