import PlcTags.Proofs.Layout.Compile
import PlcTags.Proofs.Layout.Order

/-!
# Every list of tokens is laid out

The pass over the tokens asks for no balance. Beginnings may have no end and ends no beginning, and
still every primitive finds its place, at a bit or at a byte as the open regions tell
(`offsets_total`); the places are aligned and apart from each other (`offsets_separate`).

* `openRegions`: the regions that are open behind some tokens.
* `Cursor.Tracks`: the cursor knows which of them are arrays.
* `Cursor.Even`: what the cursor asks of the next leaf, and may ask later, divides eight.
-/

namespace PlcTags.Layout

/-! ## Open regions -/

/-- The open regions behind one more token, the innermost first. An end closes the innermost one,
whatever it is an end of. -/
def Token.regionsAfter (regions : List Boundary) : Token → List Boundary
  | .primitive _ => regions
  | .enter boundary => boundary :: regions
  | .leave _ => regions.tail

/-- **The open regions** behind some tokens, the innermost first. -/
def openRegions (tokens : List Token) : List Boundary :=
  tokens.foldl Token.regionsAfter []

/-- Is a leaf of this kind packed into bits, when these regions are open? -/
def packedIn (regions : List Boundary) (kind : Primitive) : Bool :=
  kind.isBool && (regions.head?.map Boundary.isArray).getD false

theorem packedIn_iff {regions : List Boundary} {kind : Primitive} :
    packedIn regions kind = true ↔ kind = .bool ∧ regions.head? = some .array := by
  have hkind : kind.isBool = true ↔ kind = .bool := by cases kind <;> simp [Primitive.isBool]
  rw [packedIn, Bool.and_eq_true, hkind]
  refine and_congr_right fun _ => ?_
  rcases regions with _ | ⟨_ | name, outer⟩ <;> simp [Boundary.isArray]

/-- Which of the leaves among the tokens are packed, when some regions are open before. -/
def packings (regions : List Boundary) : List Token → List Bool
  | [] => []
  | .primitive kind :: rest => packedIn regions kind :: packings regions rest
  | .enter boundary :: rest => packings (boundary :: regions) rest
  | .leave _ :: rest => packings regions.tail rest

theorem length_packings (regions : List Boundary) (tokens : List Token) :
    (packings regions tokens).length = primitiveCount tokens := by
  rw [← length_kinds]
  induction tokens generalizing regions with
  | nil => rfl
  | cons token rest ih =>
    cases token with
    | primitive kind => exact congrArg Nat.succ (ih regions)
    | enter boundary => exact ih (boundary :: regions)
    | leave boundary => exact ih regions.tail

/-- A leaf is packed or not by the regions that are open before it. -/
theorem packings_append (regions : List Boundary) (front back : List Token) :
    packings regions (front ++ back) =
      packings regions front ++ packings (front.foldl Token.regionsAfter regions) back := by
  induction front generalizing regions with
  | nil => rfl
  | cons token rest ih =>
    cases token with
    | primitive kind => exact congrArg (packedIn regions kind :: ·) (ih regions)
    | enter boundary => exact ih (boundary :: regions)
    | leave boundary => exact ih regions.tail

/-! ## Every leaf finds a place -/

namespace Cursor

variable {c next : Cursor} {regions : List Boundary} {kind : Primitive} {offset : LeafOffset}

/-- **The cursor tracks the open regions**: it knows which of them are arrays. -/
def Tracks (c : Cursor) (regions : List Boundary) : Prop :=
  c.regions.map Region.isArray = regions.map Boundary.isArray

theorem Tracks.packs_eq (h : c.Tracks regions) (kind : Primitive) :
    c.packs kind = packedIn regions kind := by
  unfold packs packedIn
  rw [← List.head?_map, ← List.head?_map, h]

theorem Tracks.enter (h : c.Tracks regions) (boundary : Boundary) (alignment : Nat) :
    (c.enter boundary alignment).Tracks (boundary :: regions) := by
  unfold Tracks
  rw [regions_enter, List.map_cons, List.map_cons, h]

theorem Tracks.leave (h : c.Tracks regions) (boundary : Boundary) :
    (c.leave boundary).Tracks regions.tail := by
  unfold Tracks
  rw [regions_leave, List.map_tail, List.map_tail, h]

/-- **Every leaf finds a place**, since its own alignment is positive. -/
theorem exists_place? (c : Cursor) (kind : Primitive) : ∃ offset next,
    c.place? kind = some (offset, next) ∧ offset.isBit = c.packs kind ∧
      next.regions = c.regions := by
  unfold Cursor.place?
  split_ifs with hpacks
  · rw [start?_eq c (Primitive.alignment_pos true kind)]
    exact ⟨_, _, rfl, hpacks.symm, rfl⟩
  · dsimp only
    rw [start?_eq c.endRun (Primitive.alignment_pos false kind)]
    exact ⟨_, _, rfl, (eq_false_of_ne_true hpacks).symm, regions_endRun c⟩

end Cursor

variable {owner : String} {c : Cursor} {tokens : List Token} {table : List LeafOffset}

theorem exists_offsetsFrom (owner : String) {regions : List Boundary} (h : c.Tracks regions)
    (tokens : List Token) : ∃ table, offsetsFrom owner c tokens = .ok table ∧
      table.map LeafOffset.isBit = packings regions tokens := by
  induction tokens generalizing c regions with
  | nil => exact ⟨[], rfl, rfl⟩
  | cons token rest ih =>
    cases token with
    | enter boundary => exact ih (h.enter boundary _)
    | leave boundary => exact ih (h.leave boundary)
    | primitive kind =>
      obtain ⟨offset, next, hplace, hbit, hregions⟩ := c.exists_place? kind
      have hnext : next.Tracks regions := by
        unfold Cursor.Tracks
        rw [hregions, h]
      obtain ⟨table, htable, hpackings⟩ := ih hnext
      refine ⟨offset :: table, ?_, ?_⟩
      · rw [offsetsFrom, hplace]
        exact congrArg (Except.map (offset :: ·)) htable
      · rw [List.map_cons, hbit, h.packs_eq, hpackings]
        rfl

/-- A leaf at a byte lies at a multiple of its alignment. -/
def LeafOffset.Aligned (kind : Primitive) : LeafOffset → Prop
  | .byte position => kind.alignment false ∣ position
  | .bit _ => True

/-- The alignment of a region divides eight, or there is none. -/
theorem regionAlignment_dvd_eight {levels : List Bool} {found : Nat} (h : found = 0 ∨ found ∣ 8)
    (tokens : List Token) : regionAlignment levels found tokens = 0 ∨
      regionAlignment levels found tokens ∣ 8 := by
  fun_induction regionAlignment levels found tokens with
  | case1 => exact h
  | case2 => exact Or.inl rfl
  | case3 inArray outer found kind rest ih =>
    exact ih (max_zero_or_dvd_eight h (Or.inr (Primitive.alignment_dvd_eight _ kind)))
  | case4 _ _ _ _ _ ih => exact ih h
  | case5 _ _ _ _ _ ih => exact ih h

namespace Cursor

variable {next : Cursor} {kind : Primitive} {offset : LeafOffset}

/-- **What a cursor asks for divides eight**: the alignment of the next leaf, and those of the open
regions. -/
structure Even (c : Cursor) : Prop where
  required : c.required = 0 ∨ c.required ∣ 8
  regions : ∀ region ∈ c.regions, region.alignment = 0 ∨ region.alignment ∣ 8

theorem even_start : ({} : Cursor).Even := ⟨Or.inl rfl, nofun⟩

theorem Even.endRun (h : c.Even) : c.endRun.Even := by
  unfold Cursor.endRun
  split_ifs
  · exact ⟨h.required, h.regions⟩
  · exact h

theorem Even.require (h : c.Even) (boundary : Boundary) {alignment : Nat}
    (ha : alignment = 0 ∨ alignment ∣ 8) : (c.require boundary alignment).Even := by
  unfold Cursor.require
  split_ifs
  · exact h
  · exact ⟨max_zero_or_dvd_eight h.required ha, h.regions⟩

theorem Even.enter (h : c.Even) (boundary : Boundary) {alignment : Nat}
    (ha : alignment = 0 ∨ alignment ∣ 8) : (c.enter boundary alignment).Even := by
  have hnext := h.endRun.require boundary ha
  exact ⟨hnext.required, List.forall_mem_cons.mpr ⟨ha, hnext.regions⟩⟩

/-- The end of a region asks for the alignment of one that is open, or for none. -/
theorem leave_eq (c : Cursor) (boundary : Boundary) : ∃ alignment,
    (alignment = 0 ∨ ∃ region ∈ c.regions, region.alignment = alignment) ∧
      c.leave boundary = { c.endRun.require boundary alignment with
        regions := (c.endRun.require boundary alignment).regions.tail } := by
  unfold Cursor.leave
  cases c.regions with
  | nil => exact ⟨0, Or.inl rfl, rfl⟩
  | cons region rest =>
    exact ⟨region.alignment, Or.inr ⟨region, List.mem_cons_self, rfl⟩, rfl⟩

theorem Even.leave (h : c.Even) (boundary : Boundary) : (c.leave boundary).Even := by
  obtain ⟨alignment, hopen, hleave⟩ := c.leave_eq boundary
  have halignment : alignment = 0 ∨ alignment ∣ 8 := by
    rcases hopen with hnone | ⟨region, hregion, rfl⟩
    · exact Or.inl hnone
    · exact h.regions region hregion
  have hnext := h.endRun.require boundary halignment
  rw [hleave]
  exact ⟨hnext.required, fun region hregion => hnext.regions region (List.mem_of_mem_tail hregion)⟩

/-- **A leaf is aligned**: of two alignments the larger one is a multiple of the other. -/
theorem Even.place? (h : c.Even) (hplace : c.place? kind = some (offset, next)) :
    next.Even ∧ offset.Aligned kind := by
  unfold Cursor.place? at hplace
  split_ifs at hplace
  · obtain ⟨position, -, heq⟩ := Option.map_eq_some_iff.mp hplace
    obtain ⟨rfl, rfl⟩ := Prod.mk.inj heq
    exact ⟨⟨Or.inl rfl, h.regions⟩, trivial⟩
  · obtain ⟨position, hstart, heq⟩ := Option.map_eq_some_iff.mp hplace
    obtain ⟨rfl, rfl⟩ := Prod.mk.inj heq
    refine ⟨⟨Or.inl rfl, h.endRun.regions⟩, ?_⟩
    rw [start?_eq c.endRun (Primitive.alignment_pos false kind)] at hstart
    have hown := Primitive.alignment_dvd_eight false kind
    have hlarger : max c.endRun.required (kind.alignment false) ∣ 8 := by
      rcases h.endRun.required with hnone | hdvd
      · rwa [hnone, Nat.zero_max]
      · exact max_dvd_eight hdvd hown
    show kind.alignment false ∣ position
    rw [← Option.some.inj hstart]
    exact (dvd_of_le_of_dvd_eight hown hlarger (le_max_right _ _)).trans (dvd_roundUp _ _)

end Cursor

/-- Induction on the tokens: every token keeps the cursor even. -/
theorem offsetsFrom_aligned (h : c.Even) (htable : offsetsFrom owner c tokens = .ok table) :
    List.Forall₂ (fun kind offset => offset.Aligned kind) (kinds tokens) table := by
  induction tokens generalizing c table with
  | nil =>
    cases htable
    exact .nil
  | cons token rest ih =>
    cases token with
    | enter boundary =>
      exact ih (h.enter boundary (regionAlignment_dvd_eight (Or.inl rfl) rest)) htable
    | leave boundary => exact ih (h.leave boundary) htable
    | primitive kind =>
      rw [offsetsFrom] at htable
      split at htable
      · cases htable
      · next offset next hplace =>
        obtain ⟨offsets, hrest, rfl⟩ := map_eq_ok_iff.mp htable
        obtain ⟨hnext, haligned⟩ := h.place? hplace
        exact .cons haligned (ih hnext hrest)

/-- **Leaves that are aligned and apart.** -/
structure Separate (ks : List Primitive) (table : List LeafOffset) : Prop where
  length : table.length = ks.length
  /-- A byte offset is a multiple of the alignment of its primitive. -/
  aligned : ∀ (i : Nat) (kind : Primitive) (position : Nat), ks[i]? = some kind →
    table[i]? = some (.byte position) → kind.alignment false ∣ position
  /-- A leaf begins at or after the end of every leaf before it. -/
  apart : ∀ (i j : Nat) (kind : Primitive) (before behind : LeafOffset), i < j →
    ks[i]? = some kind → table[i]? = some before → table[j]? = some behind →
      before.firstBit + before.extent kind ≤ behind.firstBit

/-- **The leaves of every list of tokens are aligned and apart**, balanced or not. -/
theorem offsets_separate (owner : String) (tokens : List Token) :
    ∃ table, offsets owner tokens = .ok table ∧ Separate (kinds tokens) table := by
  obtain ⟨table, htable, -⟩ :=
    exists_offsetsFrom owner (show ({} : Cursor).Tracks [] from rfl) tokens
  have horder := offsets_inOrder htable
  have haligned := List.forall₂_iff_get.mp (offsetsFrom_aligned Cursor.even_start htable)
  refine ⟨table, htable, horder.length_eq, fun i kind position hkind hoffset => ?_,
    fun i j kind before behind hij hkind hbefore hbehind => horder.end_le hij hkind hbefore hbehind⟩
  obtain ⟨hi, rfl⟩ := List.getElem?_eq_some_iff.mp hkind
  obtain ⟨hi', heq⟩ := List.getElem?_eq_some_iff.mp hoffset
  have hown := haligned.2 i hi hi'
  rw [List.get_eq_getElem, List.get_eq_getElem, heq] at hown
  exact hown

end PlcTags.Layout
