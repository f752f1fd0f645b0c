import PlcTags.Proofs.Layout.Natural

/-!
# Compiled offsets are natural

The pass over the tokens of a structure finds the natural layout of its member tree
(`offsets_tokensOf`). The cursor is behind: it passes the bytes of a leaf, and the padding that the
ends and beginnings of structures ask for, only when the next leaf comes. Where the natural layout
has come to is the byte at which the cursor *rests* (`Cursor.RestsAt`), with that padding taken.

* `Passes`: the tokens take the cursor from one state to another and give some leaves, whatever
  tokens follow.
* `Follows`: the tokens of a tree give its natural leaves, and the cursor rests behind the tree.
* `Cursor.FlagsAt`: inside an array of truth values, `count` bits after the start of the array.
-/

namespace PlcTags.Layout

open Node

/-! ## The alignment of a region -/

theorem Primitive.alignment_packed (kind : Primitive) (inArray : Bool) :
    kind.alignment (kind.isBool && inArray) = kind.alignment inArray := by
  cases kind <;> rfl

theorem foldl_max_eq_of_le {b : Nat} {ns : List Nat} (h : ∀ a ∈ ns, a ≤ b) : ns.foldl max b = b :=
  Nat.le_antisymm (foldl_max_le h le_rfl) (init_le_foldl_max b ns)

theorem foldl_max_foldl_max (b : Nat) (ns : List Nat) :
    ns.foldl max (ns.foldl max b) = ns.foldl max b :=
  foldl_max_eq_of_le fun _ ha => le_foldl_max ha b

/-- Passing the tokens raises the alignment of the innermost open region by the given ones. -/
def Raises (inArray : Bool) (tokens : List Token) (alignments : List Nat) : Prop :=
  ∀ outer found rest, regionAlignment (inArray :: outer) found (tokens ++ rest) =
    regionAlignment (inArray :: outer) (alignments.foldl max found) rest

theorem Raises.append {inArray : Bool} {front back : List Token} {low high : List Nat}
    (h₁ : Raises inArray front low) (h₂ : Raises inArray back high) :
    Raises inArray (front ++ back) (low ++ high) := by
  intro outer found rest
  rw [List.append_assoc, h₁, h₂, List.foldl_append]

theorem raises_replicate {element : Node}
    (h : Raises true element.tokens (element.alignments true)) (count : Nat) :
    Raises true (tokensOf (List.replicate (count + 1) element)) (element.alignments true) := by
  intro outer found rest
  induction count generalizing found with
  | zero => simpa [tokensOf] using h outer found rest
  | succ count ih =>
    -- one more copy raises nothing more
    rw [List.replicate_succ, tokensOf, List.append_assoc, h, ih, foldl_max_foldl_max]

theorem raises_tokensOf {members : List Node}
    (h : ∀ member ∈ members, Raises false member.tokens (member.alignments false)) :
    Raises false (tokensOf members) (alignmentsOf members) := by
  induction members with
  | nil => exact fun _ _ _ => rfl
  | cons node members ih =>
    exact (h node List.mem_cons_self).append
      (ih fun member hm => h member (List.mem_cons_of_mem _ hm))

theorem raises_tokens (node : Node) :
    ∀ inArray, Raises inArray node.tokens (node.alignments inArray) := by
  induction node using Node.induct with
  | primitive kind =>
    intro inArray outer found rest
    simp only [tokens, List.cons_append, List.nil_append, regionAlignment, alignments,
      List.foldl_cons, List.foldl_nil, Primitive.alignment_packed]
  | array count element ih =>
    intro inArray outer found rest
    simp only [tokens_array, List.cons_append, List.append_assoc, List.nil_append,
      regionAlignment, Boundary.isArray]
    cases count with
    | zero => rfl
    | succ count => rw [raises_replicate (ih true), regionAlignment, alignments]
  | struct name members ih =>
    intro inArray outer found rest
    simp only [tokens, List.cons_append, List.append_assoc, List.nil_append, regionAlignment,
      Boundary.isArray, alignments]
    rw [raises_tokensOf fun member hm => ih member hm false, regionAlignment]

/-- The alignment that the beginning of a structure asks for. -/
theorem regionAlignment_members (members : List Node) (boundary : Boundary) (rest : List Token) :
    regionAlignment [false] 0 (tokensOf members ++ .leave boundary :: rest) =
      (alignmentsOf members).foldl max 0 := by
  rw [raises_tokensOf fun member _ => raises_tokens member false, regionAlignment, regionAlignment]

namespace Cursor

/-! ## The cursor at rest -/

/-- Is the innermost open region an array? -/
def inArray (c : Cursor) : Bool :=
  (c.regions.head?.map Region.isArray).getD false

/-- The first byte behind the last leaf. -/
def free (c : Cursor) : Nat := c.position + c.pending

theorem start?_eq (c : Cursor) {alignment : Nat} (h : 0 < alignment) :
    c.start? alignment = some (roundUp c.free (max c.required alignment)) := by
  have hpos : 0 < max c.required alignment := lt_max_of_lt_right h
  show (if c.free = 0 then some 0 else roundUp? c.free (max c.required alignment)) = _
  split_ifs with hzero
  · rw [hzero, roundUp_of_dvd hpos (dvd_zero _)]
  · exact roundUp?_eq hpos

/-- **The cursor rests at a byte**: no shared byte is open, and a leaf that need not be aligned
would start there. -/
structure RestsAt (c : Cursor) (place : Nat) : Prop where
  bit : c.bit = 0
  required : c.required = 0 ∨ c.required ∣ 8
  free : roundUp c.free (max c.required 1) = place

variable {c : Cursor} {place alignment : Nat}

theorem max_one_dvd_eight {n : Nat} (h : n = 0 ∨ n ∣ 8) : max n 1 ∣ 8 := by
  rcases h with rfl | h
  · decide
  · exact max_dvd_eight h (one_dvd _)

theorem RestsAt.start? (h : c.RestsAt place) (ha : alignment ∣ 8) :
    c.start? alignment = some (roundUp place alignment) := by
  have hpos : 0 < alignment := Nat.pos_of_dvd_of_pos ha (by decide)
  rw [start?_eq c hpos, ← h.free, roundUp_roundUp (max_one_dvd_eight h.required) ha, Nat.max_assoc,
    Nat.max_eq_right (show 1 ≤ alignment from hpos)]

theorem RestsAt.endRun (h : c.RestsAt place) : c.endRun = c := by
  unfold Cursor.endRun
  rw [if_neg (by rw [h.bit]; exact lt_irrefl 0)]

/-- A boundary of a structure takes the padding that it asks for, one of an array takes none. -/
theorem RestsAt.require (h : c.RestsAt place) (boundary : Boundary)
    (ha : alignment = 0 ∨ alignment ∣ 8) : (c.require boundary alignment).RestsAt
      (if boundary.isArray then place else roundUp place (max alignment 1)) := by
  unfold Cursor.require
  split_ifs with hb
  · exact h
  · refine ⟨h.bit, ?_, ?_⟩
    · exact max_zero_or_dvd_eight h.required ha
    · rw [← h.free, roundUp_roundUp (max_one_dvd_eight h.required) (max_one_dvd_eight ha)]
      exact congrArg (roundUp c.free) (by show max (max c.required alignment) 1 = _; omega)

theorem RestsAt.enter (h : c.RestsAt place) (boundary : Boundary)
    (ha : alignment = 0 ∨ alignment ∣ 8) : (c.enter boundary alignment).RestsAt
      (if boundary.isArray then place else roundUp place (max alignment 1)) := by
  have hr := h.require boundary ha
  unfold Cursor.enter
  rw [h.endRun]
  exact ⟨hr.bit, hr.required, hr.free⟩

theorem RestsAt.leave (h : c.RestsAt place) (boundary : Boundary) {region : Region}
    {outer : List Region} (hregions : c.regions = region :: outer)
    (ha : region.alignment = 0 ∨ region.alignment ∣ 8) : (c.leave boundary).RestsAt
      (if boundary.isArray then place else roundUp place (max region.alignment 1)) := by
  have hr := h.require boundary ha
  unfold Cursor.leave
  rw [h.endRun, hregions]
  exact ⟨hr.bit, hr.required, hr.free⟩

@[simp] theorem regions_require (c : Cursor) (boundary : Boundary) (alignment : Nat) :
    (c.require boundary alignment).regions = c.regions := by
  unfold Cursor.require
  split_ifs <;> rfl

@[simp] theorem regions_endRun (c : Cursor) : c.endRun.regions = c.regions := by
  unfold Cursor.endRun
  split_ifs <;> rfl

@[simp] theorem regions_enter (c : Cursor) (boundary : Boundary) (alignment : Nat) :
    (c.enter boundary alignment).regions = ⟨boundary.isArray, alignment⟩ :: c.regions := by
  simp [Cursor.enter]

@[simp] theorem regions_leave (c : Cursor) (boundary : Boundary) :
    (c.leave boundary).regions = c.regions.tail := by
  simp [Cursor.leave]

/-- A leaf of its own starts at the next multiple of its alignment, and the cursor rests behind
it. -/
theorem RestsAt.place? (h : c.RestsAt place) {kind : Primitive} (hpacks : c.packs kind = false) :
    ∃ next, c.place? kind = some (.byte (roundUp place (kind.alignment false)), next) ∧
      next.RestsAt (roundUp place (kind.alignment false) + kind.width) ∧
      next.regions = c.regions := by
  refine ⟨c.afterBytes (roundUp place (kind.alignment false)) kind.width, ?_,
    ⟨h.bit, Or.inl rfl, roundUp_one _⟩, rfl⟩
  unfold Cursor.place?
  simp only [hpacks, Bool.false_eq_true, ↓reduceIte, h.endRun,
    h.start? (Primitive.alignment_dvd_eight _ _), Option.map_some]

/-! ## Truth values in an array -/

/-- **The cursor inside an array of truth values**, `count` bits after the byte `start`. -/
structure FlagsAt (c : Cursor) (start count : Nat) : Prop where
  bit : c.bit = count % 8
  required : c.required = 0 ∨ c.required ∣ 8
  free : roundUp c.free (max c.required 1) = start + count / 8
  shared : 0 < c.bit → c.pending = 0 ∧ c.required = 0

variable {start count : Nat}

theorem RestsAt.flagsAt (h : c.RestsAt place) : c.FlagsAt place 0 :=
  ⟨h.bit, h.required, h.free, fun hbit => absurd h.bit hbit.ne'⟩

theorem FlagsAt.place? (h : c.FlagsAt start count) (harray : c.inArray = true) :
    ∃ next, c.place? .bool = some (.bit (8 * start + count), next) ∧
      next.FlagsAt start (count + 1) ∧ next.regions = c.regions := by
  have hbit := h.bit
  have hpacks : c.packs .bool = true := harray
  have hstart : c.start? 1 = some (start + count / 8) := by
    rw [start?_eq c Nat.one_pos, h.free]
  refine ⟨c.afterBit (start + count / 8), ?_, ⟨?_, Or.inl rfl, ?_, ?_⟩, rfl⟩
  · unfold Cursor.place?
    simp only [hpacks, ↓reduceIte, Primitive.alignment, hstart, Option.map_some]
    rw [show 8 * (start + count / 8) + c.bit = 8 * start + count by omega]
  · show (if c.bit = 7 then 0 else c.bit + 1) = _
    split_ifs <;> omega
  · show roundUp (start + count / 8 + if c.bit = 7 then 1 else 0) 1 = _
    rw [roundUp_one]
    split_ifs <;> omega
  · show 0 < (if c.bit = 7 then 0 else c.bit + 1) → (if c.bit = 7 then 1 else 0) = 0 ∧ 0 = 0
    split_ifs <;> omega

/-- Behind an array of truth values the last byte begun counts whole. -/
theorem FlagsAt.leave (h : c.FlagsAt start count) :
    (c.leave .array).RestsAt (start + (count + 7) / 8) := by
  have hbit := h.bit
  have hfree := h.free
  show RestsAt { c.endRun with regions := c.endRun.regions.tail } _
  unfold Cursor.endRun
  split_ifs with hopen
  · -- a byte is open, and nothing was asked for since it began
    obtain ⟨hpending, hrequired⟩ := h.shared hopen
    rw [hrequired] at hfree
    have hposition : c.position = start + count / 8 := by
      rw [← hfree]
      exact ((roundUp_one _).trans (show c.position + c.pending = _ by omega)).symm
    refine ⟨rfl, h.required, ?_⟩
    show roundUp (c.position + 1) (max c.required 1) = _
    rw [hrequired, hposition]
    exact (roundUp_one _).trans (by omega)
  · exact ⟨Nat.eq_zero_of_not_pos hopen, h.required, hfree.trans (by omega)⟩

end Cursor

/-! ## Passing tokens -/

variable (owner : String)

/-- **The tokens take one state to another and give some leaves**, whatever follows them. -/
def Passes (c : Cursor) (tokens : List Token) (leaves : List LeafOffset) (next : Cursor) : Prop :=
  ∀ rest, offsetsFrom owner c (tokens ++ rest) = (offsetsFrom owner next rest).map (leaves ++ ·)

variable {owner} {c next last : Cursor} {front back : List Token} {low high : List LeafOffset}

theorem map_append_nil (x : Except DefinitionError (List LeafOffset)) : x.map ([] ++ ·) = x := by
  cases x <;> rfl

theorem map_append_append (x : Except DefinitionError (List LeafOffset)) :
    (x.map (high ++ ·)).map (low ++ ·) = x.map (low ++ high ++ ·) := by
  cases x with
  | error cause => rfl
  | ok leaves => exact congrArg Except.ok (List.append_assoc low high leaves).symm

theorem Passes.nil : Passes owner c [] [] c :=
  fun _ => (map_append_nil _).symm

theorem Passes.append (h₁ : Passes owner c front low next) (h₂ : Passes owner next back high last) :
    Passes owner c (front ++ back) (low ++ high) last := by
  intro rest
  rw [List.append_assoc, h₁, h₂, map_append_append]

theorem Passes.leaf {kind : Primitive} {offset : LeafOffset}
    (h : c.place? kind = some (offset, next)) :
    Passes owner c [.primitive kind] [offset] next := by
  intro rest
  rw [List.singleton_append, offsetsFrom, h]
  rfl

/-- A region between two marks, when the beginning asks for a known alignment. -/
theorem Passes.region {boundary : Boundary} {inner : List Token} {alignment : Nat}
    (halign : ∀ rest, regionAlignment [boundary.isArray] 0 (inner ++ .leave boundary :: rest) =
      alignment)
    (h : Passes owner (c.enter boundary alignment) inner low next) :
    Passes owner c (.enter boundary :: (inner ++ [.leave boundary])) low (next.leave boundary) := by
  intro rest
  rw [List.cons_append, List.append_assoc, List.singleton_append, offsetsFrom, halign, h]
  rfl

theorem passes_flags {start : Nat} (hc : c.FlagsAt start 0) (harray : c.inArray = true)
    (count : Nat) : ∃ next,
      Passes owner c (tokensOf (List.replicate count (.primitive .bool)))
        ((List.range count).map fun i => .bit (8 * start + i)) next ∧
      next.FlagsAt start count ∧ next.regions = c.regions := by
  induction count with
  | zero => exact ⟨c, Passes.nil, hc, rfl⟩
  | succ count ih =>
    obtain ⟨mid, hpass, hmid, hregions⟩ := ih
    have hmidarray : mid.inArray = true := by
      rw [Cursor.inArray, hregions]
      exact harray
    obtain ⟨next, hplace, hnext, hregions'⟩ := hmid.place? hmidarray
    refine ⟨next, ?_, hnext, hregions'.trans hregions⟩
    rw [List.replicate_succ', tokensOf_append, List.range_succ, List.map_append]
    exact hpass.append (.leaf hplace)

/-! ## Trees -/

variable (owner) in
/-- **The tokens of a tree give its natural leaves**: from wherever the cursor rests, and it rests
behind the tree afterwards. -/
def Follows (inArray : Bool) (node : Node) : Prop :=
  ∀ c place, c.RestsAt place → c.inArray = inArray → ∃ next,
    Passes owner c node.tokens (node.leavesAt (roundUp place (node.alignment inArray))) next ∧
    next.RestsAt (roundUp place (node.alignment inArray) + node.size) ∧ next.regions = c.regions

theorem follows_members {members : List Node} (ih : ∀ member ∈ members, Follows owner false member)
    {start position : Nat} (hdvd : ∀ member ∈ members, member.alignment false ∣ start)
    (hc : c.RestsAt (start + position)) (harray : c.inArray = false) : ∃ next,
      Passes owner c (tokensOf members) (leavesOf start position members) next ∧
      next.RestsAt (start + endOf position members) ∧ next.regions = c.regions := by
  induction members generalizing c position with
  | nil => exact ⟨c, Passes.nil, hc, rfl⟩
  | cons node rest ihrest =>
    obtain ⟨mid, hpass, hmid, hregions⟩ := ih node List.mem_cons_self c _ hc harray
    have hplace : roundUp (start + position) (node.alignment false) =
        start + roundUp position (node.alignment false) :=
      roundUp_add (alignment_pos node false) (hdvd node List.mem_cons_self)
    rw [hplace] at hpass hmid
    rw [Nat.add_assoc] at hmid
    obtain ⟨next, hpass', hnext, hregions'⟩ := ihrest
      (fun member hm => ih member (List.mem_cons_of_mem _ hm))
      (fun member hm => hdvd member (List.mem_cons_of_mem _ hm)) hmid
      (by rw [Cursor.inArray, hregions]; exact harray)
    exact ⟨next, hpass.append hpass', hnext, hregions'.trans hregions⟩

/-- The first element of an array takes the padding, the others follow at its size. -/
theorem follows_elements {element : Node} (ih : Follows owner true element) {place : Nat}
    (hc : c.RestsAt place) (harray : c.inArray = true) (count : Nat) : ∃ next,
      Passes owner c (tokensOf (List.replicate (count + 1) element))
        ((List.range (count + 1)).flatMap fun i =>
          element.leavesAt (roundUp place (element.alignment true) + i * element.size)) next ∧
      next.RestsAt (roundUp place (element.alignment true) + (count + 1) * element.size) ∧
      next.regions = c.regions := by
  induction count with
  | zero =>
    obtain ⟨next, hpass, hnext, hregions⟩ := ih c place hc harray
    refine ⟨next, ?_, by rwa [Nat.zero_add, Nat.one_mul], hregions⟩
    simpa [tokensOf] using hpass
  | succ count ihcount =>
    obtain ⟨mid, hpass, hmid, hregions⟩ := ihcount
    obtain ⟨next, hpass', hnext, hregions'⟩ := ih mid _ hmid
      (by rw [Cursor.inArray, hregions]; exact harray)
    -- behind whole elements nothing has to be rounded up
    rw [roundUp_of_dvd (alignment_pos element true) (Nat.dvd_add (dvd_roundUp _ _)
      (Dvd.dvd.mul_left (alignment_dvd_size element) (count + 1)))] at hpass' hnext
    refine ⟨next, ?_, ?_, hregions'.trans hregions⟩
    · rw [List.replicate_succ', tokensOf_append, List.range_succ, List.flatMap_append,
        List.flatMap_singleton, tokensOf, tokensOf, List.append_nil]
      exact hpass.append hpass'
    · rwa [Nat.succ_mul, ← Nat.add_assoc]

/-- A leaf of its own: it stands in no array, or it is no truth value. -/
theorem follows_primitive {kind : Primitive} {inArray : Bool}
    (h : kind.isBool = true → inArray = false) : Follows owner inArray (.primitive kind) := by
  intro c place hc harray
  have hpacks : c.packs kind = false := by
    show (kind.isBool && c.inArray) = false
    rw [harray]
    cases hbool : kind.isBool with
    | false => rfl
    | true => exact h hbool
  -- an array matters to the alignment of truth values only
  have halign : kind.alignment inArray = kind.alignment false := by
    rw [← Primitive.alignment_packed kind inArray, ← harray]
    exact congrArg kind.alignment hpacks
  obtain ⟨next, hplace, hnext, hregions⟩ := hc.place? hpacks
  rw [alignment, halign]
  exact ⟨next, .leaf hplace, hnext, hregions⟩

theorem foldl_max_zero {ns : List Nat} (h : ∀ n ∈ ns, n ∣ 8) :
    ns.foldl max 0 = 0 ∨ ns.foldl max 0 ∣ 8 := by
  cases ns with
  | nil => exact Or.inl rfl
  | cons n ns =>
    rw [List.foldl_cons, Nat.zero_max]
    exact Or.inr (foldl_max_dvd_eight (fun m hm => h m (List.mem_cons_of_mem _ hm))
      (h n List.mem_cons_self))

/-- An array asks for no alignment of its own: its first element does. -/
theorem regionAlignment_array (count : Nat) (element : Node) :
    ∃ found, (found = 0 ∨ found ∣ 8) ∧ ∀ rest, regionAlignment [true] 0
      (tokensOf (List.replicate count element) ++ .leave .array :: rest) = found := by
  cases count with
  | zero =>
    refine ⟨0, Or.inl rfl, fun rest => ?_⟩
    rw [List.replicate_zero, tokensOf, List.nil_append, regionAlignment, regionAlignment]
  | succ count =>
    refine ⟨_, ?_, fun rest => by
      rw [raises_replicate (raises_tokens element true), regionAlignment, regionAlignment]⟩
    exact foldl_max_zero (alignments_dvd_eight element true)

theorem follows_array {element : Node} (count : Nat)
    (ih : element.isFlag = false → Follows owner true element) (inArray : Bool) :
    Follows owner inArray (.array count element) := by
  intro c place hc _
  obtain ⟨found, hfound, hregion⟩ := regionAlignment_array count element
  have henter : (c.enter .array found).RestsAt place := hc.enter .array hfound
  have hregions := Cursor.regions_enter c .array found
  have harray : (c.enter .array found).inArray = true := by rw [Cursor.inArray, hregions]; rfl
  have hleave : ∀ {next : Cursor}, next.regions = (c.enter .array found).regions →
      (next.leave .array).regions = c.regions := by
    intro next hnext
    rw [Cursor.regions_leave, hnext, hregions, List.tail_cons]
  rw [tokens_array, leavesAt, size]
  cases hflag : element.isFlag with
  | true =>
    obtain rfl := eq_bool_of_isFlag hflag
    obtain ⟨next, hpass, hnext, hregions'⟩ := passes_flags henter.flagsAt harray count
    rw [alignment_flags, if_pos rfl, if_pos rfl, roundUp_one]
    exact ⟨_, .region hregion hpass, hnext.leave, hleave hregions'⟩
  | false =>
    rw [if_neg Bool.false_ne_true, if_neg Bool.false_ne_true]
    cases count with
    | zero =>
      -- without elements the two marks are all, and nothing is taken
      rw [alignment, roundUp_one, Nat.zero_mul]
      exact ⟨_, .region hregion .nil, henter.leave .array hregions hfound, hleave rfl⟩
    | succ count =>
      rw [alignment]
      obtain ⟨next, hpass, hnext, hregions'⟩ := follows_elements (ih hflag) henter harray count
      exact ⟨_, .region hregion hpass, hnext.leave .array (hregions'.trans hregions) hfound,
        hleave hregions'⟩

theorem follows_struct {name : String} {members : List Node}
    (ih : ∀ member ∈ members, Follows owner false member) (inArray : Bool) :
    Follows owner inArray (.struct name members) := by
  intro c place hc _
  have hfound := foldl_max_zero (alignmentsOf_dvd_eight members)
  -- the pass counts no primitive as zero, the natural layout as one
  have hlargest : max ((alignmentsOf members).foldl max 0) 1 = largest (alignmentsOf members) := by
    rw [Nat.max_comm, ← foldl_max_max]
    rfl
  have henter := hc.enter (.struct name) hfound
  have hregions := Cursor.regions_enter c (.struct name) ((alignmentsOf members).foldl max 0)
  rw [if_neg (by simp [Boundary.isArray]), hlargest, ← Nat.add_zero (roundUp _ _)] at henter
  obtain ⟨next, hpass, hnext, hregions'⟩ := follows_members ih
    (fun member hm => (alignment_dvd_largest hm).trans (dvd_roundUp place _)) henter
    (by rw [Cursor.inArray, hregions]; rfl)
  have hrest := hnext.leave (.struct name) (hregions'.trans hregions) hfound
  rw [if_neg (by simp [Boundary.isArray]), hlargest, roundUp_add
    (Nat.pos_of_dvd_of_pos (largest_dvd_eight members) (by decide)) (dvd_roundUp _ _)] at hrest
  refine ⟨_, .region (regionAlignment_members members (.struct name)) hpass, hrest, ?_⟩
  rw [Cursor.regions_leave, hregions', hregions, List.tail_cons]

theorem follows (node : Node) :
    ∀ inArray, (node.isFlag = true → inArray = false) → Follows owner inArray node := by
  induction node using Node.induct with
  | primitive kind => exact fun _ hflag => follows_primitive hflag
  | array count element ih =>
    exact fun inArray _ => follows_array count
      (fun hflag => ih true fun hyes => absurd (hflag.symm.trans hyes) Bool.false_ne_true) inArray
  | struct name members ih =>
    exact fun inArray _ =>
      follows_struct (fun member hm => ih member hm false fun _ => rfl) inArray

/-- The pass over the tokens of trees succeeds, with their natural layout. -/
theorem offsets_tokensOf (owner : String) (members : List Node) :
    offsets owner (tokensOf members) = .ok (naturalOffsets members) := by
  have hstart : ({} : Cursor).RestsAt (0 + 0) := ⟨rfl, Or.inl rfl, roundUp_one 0⟩
  have hfollows : ∀ member ∈ members, Follows owner false member :=
    fun member _ => follows member false fun _ => rfl
  obtain ⟨next, hpass, -, -⟩ := follows_members hfollows (fun member _ => dvd_zero _) hstart rfl
  have htokens := hpass []
  rw [List.append_nil, offsetsFrom] at htokens
  exact htokens.trans (congrArg Except.ok (List.append_nil _))

/-- A structure that compiles expands, and its table is natural. -/
theorem exists_of_compile {defs : Definitions} {name : String} {compiled : Compiled}
    (h : defs.compile name = .ok compiled) : ∃ members, defs.expand name = .ok members ∧
      compiled = ⟨tokensOf members, naturalOffsets members⟩ := by
  unfold Definitions.compile Definitions.layout at h
  obtain ⟨tokens, htokens, h⟩ := bind_eq_ok_iff.mp h
  obtain ⟨members, hexpand, rfl⟩ := map_eq_ok_iff.mp htokens
  rw [offsets_tokensOf name members] at h
  exact ⟨members, hexpand, (Except.ok.inj h).symm⟩

/-- **Compiled offsets are natural.** The outcome for a structure is that of its expansion: the same
error, or the tokens of its member tree and, leaf by leaf, the offsets of the natural layout. -/
theorem compile_eq_natural (defs : Definitions) (name : String) :
    defs.compile name = (defs.expand name).map fun members =>
      ⟨tokensOf members, naturalOffsets members⟩ := by
  unfold Definitions.compile Definitions.layout
  cases hexpand : defs.expand name with
  | error cause => rfl
  | ok members =>
    show (offsets name (tokensOf members)).bind _ = _
    rw [offsets_tokensOf name members]
    rfl

end PlcTags.Layout
