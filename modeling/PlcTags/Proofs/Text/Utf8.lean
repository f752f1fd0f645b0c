import Mathlib.Tactic.SplitIfs
import PlcTags.Text.Utf8

/-!
# Reading written text

The octets of a text are read as the text (`decode_encode`): reading puts no replacement character
where there is none.

* `exists_lead_three`, `exists_lead_four`: the bounds of the second octet let every character pass.
* `decodeFrom_utf8EncodeChar`: the octets of one character are read as that character, whatever
  follows.
* `zero_not_mem_encode`: the octets of a text without zeros have no zero among them.
-/

namespace PlcTags.Text.Utf8

variable {p : Pending} {a b c d octet : UInt8} {rest : List UInt8} {n : Nat}

/-! ## One octet after the other -/

theorem decodeFrom_lead (h : lead octet.toNat = .more p) :
    decodeFrom none (octet :: rest) = decodeFrom (some p) rest := by
  rw [decodeFrom, step, begin, h]
  rfl

/-- The last octet of a character finishes it. -/
theorem decodeFrom_last (howed : p.owed = 1) (hlow : p.low ≤ octet.toNat)
    (hhigh : octet.toNat ≤ p.high) : decodeFrom (some p) (octet :: rest) =
      Char.ofNat (64 * p.bits + (octet.toNat - 0x80)) :: decodeFrom none rest := by
  rw [decodeFrom, step]
  simp only [if_pos (And.intro hlow hhigh), if_pos howed]
  rfl

/-- Another octet of a character adds six bits. -/
theorem decodeFrom_more (howed : p.owed ≠ 1) (hlow : p.low ≤ octet.toNat)
    (hhigh : octet.toNat ≤ p.high) : decodeFrom (some p) (octet :: rest) =
      decodeFrom (some ⟨64 * p.bits + (octet.toNat - 0x80), p.owed - 1, 0x80, 0xBF⟩) rest := by
  rw [decodeFrom, step]
  simp only [if_pos (And.intro hlow hhigh), if_neg howed]
  rfl

/-! ## One character -/

theorem decodeFrom_two (ha : a.toNat = n / 64 + 192) (hb : b.toNat = n % 64 + 128)
    (hlow : 0x80 ≤ n) (hhigh : n < 0x800) :
    decodeFrom none (a :: b :: rest) = Char.ofNat n :: decodeFrom none rest := by
  have hlead : lead a.toNat = .more ⟨n / 64, 1, 0x80, 0xBF⟩ := by
    unfold lead
    rw [ha, if_neg (by omega), if_neg (by omega), if_pos (by omega), Nat.add_sub_cancel]
  have hbits : 64 * (n / 64) + (b.toNat - 0x80) = n := by omega
  rw [decodeFrom_lead hlead, decodeFrom_last rfl (by rw [hb]; exact Nat.le_add_left _ _)
    (by rw [hb]; show _ ≤ 191; omega), hbits]

/-- The first of three octets, for a number that is no surrogate. -/
theorem exists_lead_three (hlow : 0x800 ≤ n) (hhigh : n < 0x10000)
    (hvalid : n < 0xD800 ∨ 0xDFFF < n) : ∃ p, lead (n / 4096 + 224) = .more p ∧
      p.bits = n / 4096 ∧ p.owed = 2 ∧ p.low ≤ n / 64 % 64 + 128 ∧ n / 64 % 64 + 128 ≤ p.high := by
  unfold lead
  split_ifs <;> first
    | omega
    | exact ⟨_, rfl, by dsimp only; omega, rfl, by dsimp only; omega, by dsimp only; omega⟩

theorem decodeFrom_three (ha : a.toNat = n / 4096 + 224) (hb : b.toNat = n / 64 % 64 + 128)
    (hc : c.toNat = n % 64 + 128) (hlow : 0x800 ≤ n) (hhigh : n < 0x10000)
    (hvalid : n < 0xD800 ∨ 0xDFFF < n) :
    decodeFrom none (a :: b :: c :: rest) = Char.ofNat n :: decodeFrom none rest := by
  obtain ⟨p, hlead, hbits, howed, hfirst, hlast⟩ := exists_lead_three hlow hhigh hvalid
  have hread : 64 * (64 * p.bits + (b.toNat - 0x80)) + (c.toNat - 0x80) = n := by omega
  rw [decodeFrom_lead (ha ▸ hlead), decodeFrom_more (by omega) (by omega) (by omega), howed,
    decodeFrom_last rfl (by rw [hc]; exact Nat.le_add_left _ _) (by rw [hc]; show _ ≤ 191; omega),
    hread]

/-- The first of four octets, up to the last code point. -/
theorem exists_lead_four (hlow : 0x10000 ≤ n) (hhigh : n < 0x110000) :
    ∃ p, lead (n / 262144 + 240) = .more p ∧ p.bits = n / 262144 ∧ p.owed = 3 ∧
      p.low ≤ n / 4096 % 64 + 128 ∧ n / 4096 % 64 + 128 ≤ p.high := by
  unfold lead
  split_ifs <;> first
    | omega
    | exact ⟨_, rfl, by dsimp only; omega, rfl, by dsimp only; omega, by dsimp only; omega⟩

theorem decodeFrom_four (ha : a.toNat = n / 262144 + 240) (hb : b.toNat = n / 4096 % 64 + 128)
    (hc : c.toNat = n / 64 % 64 + 128) (hd : d.toNat = n % 64 + 128) (hlow : 0x10000 ≤ n)
    (hhigh : n < 0x110000) :
    decodeFrom none (a :: b :: c :: d :: rest) = Char.ofNat n :: decodeFrom none rest := by
  obtain ⟨p, hlead, hbits, howed, hfirst, hlast⟩ := exists_lead_four hlow hhigh
  have hread : 64 * (64 * (64 * p.bits + (b.toNat - 0x80)) + (c.toNat - 0x80)) +
      (d.toNat - 0x80) = n := by omega
  rw [decodeFrom_lead (ha ▸ hlead), decodeFrom_more (by omega) (by omega) (by omega), howed,
    decodeFrom_more (by show 2 ≠ 1; decide) (by rw [hc]; exact Nat.le_add_left _ _)
      (by rw [hc]; show _ ≤ 191; omega),
    decodeFrom_last rfl (by rw [hd]; exact Nat.le_add_left _ _) (by rw [hd]; show _ ≤ 191; omega),
    hread]

/-- **The octets of a character** are read as the character, whatever follows. -/
theorem decodeFrom_utf8EncodeChar (ch : Char) (rest : List UInt8) :
    decodeFrom none (String.utf8EncodeChar ch ++ rest) = ch :: decodeFrom none rest := by
  have hread : Char.ofNat ch.val.toNat = ch := Char.ofNat_toNat ch
  have hvalid : ch.val.toNat < 0xD800 ∨ 0xDFFF < ch.val.toNat ∧ ch.val.toNat < 0x110000 := ch.valid
  have hoctet : ∀ {n m : Nat}, n = m → m < 256 → (UInt8.ofNat n).toNat = m := by
    rintro n _ rfl hlt
    exact UInt8.toNat_ofNat_of_lt' hlt
  unfold String.utf8EncodeChar
  dsimp only
  generalize ch.val.toNat = n at hread hvalid
  rw [← hread]
  split_ifs with hone htwo hthree
  · have hfirst : (UInt8.ofNat n).toNat = n := hoctet rfl (by omega)
    have hlead : lead n = .char (Char.ofNat n) := if_pos (by omega)
    rw [List.singleton_append, decodeFrom, step, begin, hfirst, hlead]
    rfl
  · exact decodeFrom_two (hoctet (by omega) (by omega)) (hoctet rfl (by omega)) (by omega)
      (by omega)
  · exact decodeFrom_three (hoctet (by omega) (by omega)) (hoctet rfl (by omega))
      (hoctet rfl (by omega)) (by omega) (by omega) (by omega)
  · exact decodeFrom_four (hoctet (by omega) (by omega)) (hoctet rfl (by omega))
      (hoctet rfl (by omega)) (hoctet rfl (by omega)) (by omega) (by omega)

/-! ## Whole texts -/

/-- **The octets of a text are read as the text.** -/
theorem decode_encode (text : List Char) : decode (encode text) = text := by
  unfold decode
  induction text with
  | nil => rfl
  | cons ch rest ih =>
    show decodeFrom none (String.utf8EncodeChar ch ++ encode rest) = _
    rw [decodeFrom_utf8EncodeChar, ih]

/-! ## Zeros -/

/-- Only the character zero has an octet that is zero. -/
theorem zero_not_mem_utf8EncodeChar {ch : Char} (h : ch ≠ '\x00') :
    0 ∉ String.utf8EncodeChar ch := by
  have hvalid : ch.val.toNat < 0xD800 ∨ 0xDFFF < ch.val.toNat ∧ ch.val.toNat < 0x110000 := ch.valid
  have hpos : 0 < ch.val.toNat := by
    refine Nat.pos_of_ne_zero fun hzero => h ?_
    rw [← Char.ofNat_toNat ch, Char.toNat, hzero]
  have hoctet : ∀ {n : Nat}, 0 < n → n < 256 → (0 : UInt8) ≠ UInt8.ofNat n := by
    intro n hn hlt heq
    have htoNat := UInt8.toNat_ofNat_of_lt' hlt
    rw [← heq] at htoNat
    exact Nat.ne_of_lt hn htoNat
  unfold String.utf8EncodeChar
  dsimp only
  generalize ch.val.toNat = n at hvalid hpos
  split_ifs
  all_goals
    repeat refine List.not_mem_cons_of_ne_of_not_mem (hoctet (by omega) (by omega)) ?_
    exact List.not_mem_nil

/-- **A text without zeros** has no octet that is zero. -/
theorem zero_not_mem_encode {text : List Char} (h : '\x00' ∉ text) : 0 ∉ encode text := by
  unfold encode
  rw [List.mem_flatMap]
  rintro ⟨ch, hch, hzero⟩
  exact zero_not_mem_utf8EncodeChar (ne_of_mem_of_not_mem hch h) hzero

end PlcTags.Text.Utf8
