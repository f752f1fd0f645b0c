import Mathlib.Data.List.TakeWhile
import PlcTags.Proofs.Plan.Families
import PlcTags.Proofs.Plan.Slices

/-!
# The planner on machine words

`Family.ofGroups` and `Family.slices` say what is planned. On a machine it is planned by two loops:
one puts groups into families by an index of their places, the other carries a slice that is being
filled. Here the loops are written out with every subtraction and every place checked.

* `Family.planned?_eq`: the loop over the groups never fails, and finds the families.
* `Family.sliced?_eq`: the loop over the elements of an ascending family never fails, and finds its
  slices.
-/

namespace PlcTags

/-- A difference of machine words; there is none below zero. -/
def minus? (a b : Nat) : Option Nat :=
  if b ≤ a then some (a - b) else none

theorem minus?_eq_some {a b : Nat} (h : b ≤ a) : minus? a b = some (a - b) :=
  if_pos h

/-! ## Families -/

/-- Rows with a key each, in the order in which the keys come, and the place of every key. -/
structure Rows (κ α : Type) where
  place? : κ → Option Nat
  rows : List (κ × List α)

namespace Rows

variable {κ α : Type} [BEq κ] [LawfulBEq κ]

def empty : Rows κ α :=
  ⟨fun _ => none, []⟩

/-- One more element in the row at a place. -/
def put? (rows : List (κ × List α)) (place : Nat) (x : α) : Option (List (κ × List α)) :=
  if place < rows.length then some (rows.modify place fun row => (row.1, row.2 ++ [x])) else none

/-- An element goes to the row of its key; a key that has none gets a row at the end. -/
def add? (table : Rows κ α) (pair : κ × α) : Option (Rows κ α) :=
  match table.place? pair.1 with
  | some place => (put? table.rows place pair.2).map fun rows => { table with rows }
  | none => do
    let rows := table.rows ++ [(pair.1, [])]
    let place ← minus? rows.length 1
    (put? rows place pair.2).map fun rows =>
      ⟨fun key => if key == pair.1 then some place else table.place? key, rows⟩

/-- The keys of the pairs, in the order in which they come. -/
def keysOf (pairs : List (κ × α)) : List κ :=
  (pairs.map Prod.fst).eraseDups

/-- The row that pairs make up under a key. -/
def rowOf (pairs : List (κ × α)) (key : κ) : κ × List α :=
  (key, (pairs.filter fun pair => pair.1 == key).map Prod.snd)

/-- **The rows hold what was added**, and every key has its place. -/
structure Holds (table : Rows κ α) (pairs : List (κ × α)) : Prop where
  rows : table.rows = (keysOf pairs).map (rowOf pairs)
  place : ∀ key place, table.place? key = some place ↔ (keysOf pairs)[place]? = some key

variable {pairs : List (κ × α)} {pair : κ × α} {table : Rows κ α}

theorem nodup_keysOf (pairs : List (κ × α)) : (keysOf pairs).Nodup :=
  nodup_eraseDups _

theorem keysOf_append_of_mem (h : pair.1 ∈ keysOf pairs) :
    keysOf (pairs ++ [pair]) = keysOf pairs := by
  have hmem : pair.1 ∈ pairs.map Prod.fst := List.mem_eraseDups.mp h
  simp [keysOf, List.eraseDups_append, List.removeAll, hmem]

theorem keysOf_append_of_not_mem (h : pair.1 ∉ keysOf pairs) :
    keysOf (pairs ++ [pair]) = keysOf pairs ++ [pair.1] := by
  have hnot : pair.1 ∉ pairs.map Prod.fst := fun hmem => h (List.mem_eraseDups.mpr hmem)
  simp [keysOf, List.eraseDups_append, List.removeAll, hnot, List.eraseDups_cons]

theorem rowOf_append_self (pairs : List (κ × α)) (pair : κ × α) :
    rowOf (pairs ++ [pair]) pair.1 = (pair.1, (rowOf pairs pair.1).2 ++ [pair.2]) := by
  simp [rowOf]

theorem rowOf_append_of_ne {key : κ} (h : key ≠ pair.1) :
    rowOf (pairs ++ [pair]) key = rowOf pairs key := by
  simp [rowOf, h.symm]

theorem rowOf_of_not_mem {key : κ} (h : key ∉ keysOf pairs) : rowOf pairs key = (key, []) := by
  have hnone : (pairs.filter fun pair => pair.1 == key) = [] := by
    refine List.filter_eq_nil_iff.mpr fun pair hpair heq => h ?_
    rw [← eq_of_beq heq]
    exact List.mem_eraseDups.mpr (List.mem_map_of_mem hpair)
  rw [rowOf, hnone, List.map_nil]

/-- Putting an element into the row of its key. -/
theorem put?_rowOf {keys : List κ} {place : Nat} (hkeys : keys.Nodup)
    (hplace : keys[place]? = some pair.1) :
    put? (keys.map (rowOf pairs)) place pair.2 = some (keys.map (rowOf (pairs ++ [pair]))) := by
  obtain ⟨hlt, hkey⟩ := List.getElem?_eq_some_iff.mp hplace
  unfold put?
  rw [if_pos (by rwa [List.length_map])]
  refine congrArg some (List.ext_getElem (by simp) fun i hi _ => ?_)
  have hi : i < keys.length := by simpa using hi
  rw [List.getElem_modify, List.getElem_map, List.getElem_map]
  split
  · next heq =>
    subst heq
    rw [hkey, rowOf_append_self]
    rfl
  · next hne =>
    refine (rowOf_append_of_ne fun heq => hne ?_).symm
    exact hkeys.getElem_inj_iff.mp (hkey.trans heq.symm)

/-- A new key is the last one, and the other keys keep their places. -/
theorem getElem?_keysOf_append (hnew : pair.1 ∉ keysOf pairs) (key : κ) (place : Nat) :
    (keysOf (pairs ++ [pair]))[place]? = some key ↔
      (if key == pair.1 then some (keysOf pairs).length = some place
        else (keysOf pairs)[place]? = some key) := by
  rw [keysOf_append_of_not_mem hnew]
  rcases Nat.lt_trichotomy place (keysOf pairs).length with hlt | rfl | hgt
  · rw [List.getElem?_append_left hlt]
    split
    · next heq =>
      obtain rfl := eq_of_beq heq
      exact iff_of_false (fun hfound => hnew (List.mem_of_getElem? hfound)) (by simp; omega)
    · rfl
  · rw [List.getElem?_concat_length, List.getElem?_eq_none le_rfl]
    split
    · next heq => exact iff_of_true (congrArg some (eq_of_beq heq).symm) rfl
    · next hne =>
      refine iff_of_false (fun heq => hne ?_) (fun h => nomatch h)
      rw [Option.some.inj heq]
      exact BEq.rfl
  · have hnone : (keysOf pairs ++ [pair.1])[place]? = none :=
      List.getElem?_eq_none (by simp; omega)
    rw [hnone, List.getElem?_eq_none hgt.le]
    split
    · exact iff_of_false (fun h => nomatch h) (by simp; omega)
    · rfl

/-- Adding under a key that has a row. -/
theorem Holds.add?_of_mem (h : table.Holds pairs) {place : Nat}
    (hplace : table.place? pair.1 = some place) :
    ∃ table', table.add? pair = some table' ∧ table'.Holds (pairs ++ [pair]) := by
  have hkey := (h.place pair.1 place).mp hplace
  have hkeys := keysOf_append_of_mem (List.mem_of_getElem? hkey)
  refine ⟨{ table with rows := (keysOf pairs).map (rowOf (pairs ++ [pair])) }, ?_, ?_, ?_⟩
  · simp only [Rows.add?, hplace]
    rw [h.rows, put?_rowOf (nodup_keysOf _) hkey]
    rfl
  · rw [hkeys]
  · rw [hkeys]
    exact h.place

/-- Adding under a new key: its row goes behind the others. -/
theorem Holds.add?_of_not_mem (h : table.Holds pairs) (hplace : table.place? pair.1 = none) :
    ∃ table', table.add? pair = some table' ∧ table'.Holds (pairs ++ [pair]) := by
  have hnew : pair.1 ∉ keysOf pairs := by
    intro hmem
    obtain ⟨place, hkey⟩ := List.mem_iff_getElem?.mp hmem
    rw [← h.place, hplace] at hkey
    cases hkey
  have hkeys := keysOf_append_of_not_mem hnew
  have hrows : table.rows ++ [(pair.1, [])] = (keysOf (pairs ++ [pair])).map (rowOf pairs) := by
    rw [hkeys, List.map_append, h.rows, List.map_singleton, rowOf_of_not_mem hnew]
  have hplaces : minus? ((keysOf (pairs ++ [pair])).map (rowOf pairs)).length 1 =
      some (keysOf pairs).length := by
    rw [hkeys, List.length_map, List.length_append, List.length_singleton]
    exact minus?_eq_some (Nat.le_add_left _ _)
  have hlast : (keysOf (pairs ++ [pair]))[(keysOf pairs).length]? = some pair.1 := by
    rw [hkeys, List.getElem?_concat_length]
  refine ⟨⟨fun key => if key == pair.1 then some (keysOf pairs).length else table.place? key,
    (keysOf (pairs ++ [pair])).map (rowOf (pairs ++ [pair]))⟩, ?_, rfl, fun key place => ?_⟩
  · simp only [Rows.add?, hplace]
    rw [hrows, hplaces, Option.bind_eq_bind, Option.bind_some,
      put?_rowOf (nodup_keysOf _) hlast]
    rfl
  · rw [getElem?_keysOf_append hnew, ← h.place]
    dsimp only
    split <;> rfl

/-- Adding keeps the rows, and never fails. -/
theorem Holds.add? (h : table.Holds pairs) (pair : κ × α) :
    ∃ table', table.add? pair = some table' ∧ table'.Holds (pairs ++ [pair]) := by
  cases hplace : table.place? pair.1 with
  | some place => exact h.add?_of_mem hplace
  | none => exact h.add?_of_not_mem hplace

/-- **The loop over pairs** never fails. Induction on the pairs that are left. -/
theorem Holds.foldlM (h : table.Holds pairs) (rest : List (κ × α)) :
    ∃ table', rest.foldlM Rows.add? table = some table' ∧ table'.Holds (pairs ++ rest) := by
  induction rest generalizing table pairs with
  | nil => exact ⟨table, rfl, by rwa [List.append_nil]⟩
  | cons pair rest ih =>
    obtain ⟨next, hnext, hholds⟩ := h.add? pair
    obtain ⟨last, hlast, hholds⟩ := ih hholds
    refine ⟨last, ?_, by rwa [List.append_assoc] at hholds⟩
    rw [List.foldlM_cons, hnext]
    exact hlast

omit [LawfulBEq κ] in
theorem holds_empty : (empty : Rows κ α).Holds [] :=
  ⟨rfl, fun _ _ => by simp [empty, keysOf]⟩

end Rows

namespace Family

variable {groups : List Group} {family : Family} {size : Nat}

/-- The families of groups by the loop over their elements: those with fewer than two are dropped,
then the elements of the others are sorted. -/
def planned? (groups : List Group) : Option (List Family) :=
  (((arrayMembers groups).map fun m => (m.key, m.element)).foldlM Rows.add? Rows.empty).map
    fun table => (table.rows.filter fun row => 1 < row.2.length).map fun row =>
      ⟨row.1.1, row.1.2, row.2.mergeSort before⟩

theorem rowOf_arrayMembers (members : List ArrayMember) (key : String × String) :
    Rows.rowOf (members.map fun m => (m.key, m.element)) key =
      (key, (members.filter fun m => m.key == key).map ArrayMember.element) := by
  simp [Rows.rowOf, List.filter_map, Function.comp_def]

/-- **The loop over the groups finds the families**, and never fails. -/
theorem planned?_eq (groups : List Group) : planned? groups = some (ofGroups groups) := by
  obtain ⟨table, htable, hholds⟩ := Rows.holds_empty.foldlM
    ((arrayMembers groups).map fun m => (m.key, m.element))
  have hkeys : Rows.keysOf ((arrayMembers groups).map fun m => (m.key, m.element)) =
      ((arrayMembers groups).map ArrayMember.key).eraseDups := by
    simp [Rows.keysOf, Function.comp_def]
  have hrows : table.rows = ((arrayMembers groups).map ArrayMember.key).eraseDups.map fun key =>
      (key, ((arrayMembers groups).filter fun m => m.key == key).map ArrayMember.element) := by
    rw [hholds.rows, List.nil_append, hkeys]
    exact List.map_congr_left fun key _ => rowOf_arrayMembers _ key
  have hofGroups : ofGroups groups = (((arrayMembers groups).map ArrayMember.key).eraseDups.map
      (ofKey (arrayMembers groups))).filter fun family => 1 < family.elements.length := rfl
  rw [hofGroups, planned?, htable, Option.map_some, hrows, List.filter_map, List.filter_map,
    List.map_map]
  -- sorting keeps the number of elements
  have hlength : ∀ key, (ofKey (arrayMembers groups) key).elements.length =
      (((arrayMembers groups).filter fun m => m.key == key).map ArrayMember.element).length :=
    fun key => List.length_mergeSort _
  simp only [Function.comp_def, hlength]
  rfl

end Family

/-! ## Slices -/

namespace Slice

variable {reach : Nat} {first : Nat × Nat} {taken rest elements : List (Nat × Nat)}

/-- The loop over the elements, with the slice that is being filled. -/
def fill? (reach : Nat) : Option Slice → List (Nat × Nat) → Option (List Slice)
  | current, [] => some current.toList
  | none, element :: rest => fill? reach (some ⟨element.1, 1, [element]⟩) rest
  | some slice, element :: rest => do
    let step ← minus? element.1 slice.start
    if step < reach then
      fill? reach (some ⟨slice.start, step + 1, slice.elements ++ [element]⟩) rest
    else
      (fill? reach (some ⟨element.1, 1, [element]⟩) rest).map fun slices => slice :: slices

/-- The slice that is being filled takes what follows it within reach. Induction on the elements
that are left. -/
theorem fill?_ofElements (h : (first :: rest).Pairwise fun a b => a.1 ≤ b.1) :
    fill? reach (some (ofElements first taken)) rest =
      some (ofElements first
          (taken ++ rest.takeWhile fun element => element.1 - first.1 < reach) ::
        cover reach (rest.dropWhile fun element => element.1 - first.1 < reach)) := by
  induction rest generalizing first taken with
  | nil => simp [fill?, cover]
  | cons element rest ih =>
    obtain ⟨hfirst, hrest⟩ := List.pairwise_cons.mp h
    have hle : first.1 ≤ element.1 := hfirst element List.mem_cons_self
    rw [fill?, show (ofElements first taken).start = first.1 from rfl, minus?_eq_some hle]
    dsimp only [Option.bind_eq_bind, Option.bind_some]
    split
    · next hfits =>
      have hnext : (⟨first.1, element.1 - first.1 + 1, (ofElements first taken).elements ++
          [element]⟩ : Slice) = ofElements first (taken ++ [element]) := by
        simp [ofElements]
      have hpairwise : (first :: rest).Pairwise fun a b => a.1 ≤ b.1 :=
        h.sublist ((List.sublist_cons_self element rest).cons_cons first)
      rw [hnext, ih hpairwise, List.takeWhile_cons_of_pos (by simpa using hfits),
        List.dropWhile_cons_of_pos (by simpa using hfits), List.append_assoc]
      rfl
    · next hbeyond =>
      have hnext : (⟨element.1, 1, [element]⟩ : Slice) = ofElements element [] := by
        simp [ofElements]
      rw [hnext, ih hrest, List.takeWhile_cons_of_neg (by simpa using hbeyond),
        List.dropWhile_cons_of_neg (by simpa using hbeyond), List.append_nil, cover]
      rfl

theorem fill?_eq (h : elements.Pairwise fun a b => a.1 ≤ b.1) :
    fill? reach none elements = some (cover reach elements) := by
  cases elements with
  | nil => simp [fill?, cover]
  | cons first rest =>
    have hfirst : (⟨first.1, 1, [first]⟩ : Slice) = ofElements first [] := by simp [ofElements]
    rw [fill?, hfirst, fill?_ofElements h, cover]
    rfl

end Slice

namespace Family

variable {family : Family} {size : Nat}

/-- The slices of a family by the loop over its elements. -/
def sliced? (family : Family) (size : Nat) : Option (List Slice) :=
  if size = 0 ∨ perSlice size < 2 then some []
  else (Slice.fill? (perSlice size) none family.elements).map fun slices =>
    slices.filter fun slice => 1 < slice.elements.length

/-- **The loop over the elements finds the slices**, and no difference falls below zero. -/
theorem sliced?_eq (h : family.Ascending) (size : Nat) :
    family.sliced? size = some (family.slices size) := by
  unfold sliced? slices
  split
  · rfl
  · rw [Slice.fill?_eq h]
    rfl

end Family

end PlcTags
