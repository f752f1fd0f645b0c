import Mathlib.Data.List.Chain
import Mathlib.Data.List.Nodup
import Mathlib.Logic.Relation
import PlcTags.Proofs.Layout.Expansion

/-!
# Structures within structures

A structure refers to the structures of its members and of the elements of its arrays. Expanding it
follows these references while a chain of structures is open, and a structure that is met while it
is open contains itself. So the expansion decides whether all structures that are reached are defined
and legible and none contains itself, and its error tells of one that is not.

* `Definitions.Expands`: an expansion with a bound on the structures that are open; `expands_iff`:
  the number of defined structures is such a bound.
* `Definitions.WellFormed`: nothing that is reached is at fault; `Definitions.Genuine`: an error that
  tells of a fault.
* `genuine_of_expandFrom`: all errors are genuine; `reaches_expandFrom`: an expansion that succeeds
  has opened all that is reached.
* `layout_decides`: these together.
-/

namespace PlcTags.Layout

/-! ## Errors of members -/

/-- A member text is never blamed on another structure. -/
theorem Member.blame_of_parse {owner text : String} {cause : DefinitionError}
    (h : Member.parse owner text = .error cause) :
    (∀ name, cause ≠ .unknownStructure name) ∧ ∀ name chain, cause ≠ .cyclic name chain := by
  have helement : ∀ {chars : List Char}, Element.parse owner chars = .error cause →
      (∀ name, cause ≠ .unknownStructure name) ∧ ∀ name chain, cause ≠ .cyclic name chain := by
    intro chars h
    unfold Element.parse at h
    split at h
    · cases h
    · split_ifs at h
      · split at h
        · cases h
        · cases h
          exact ⟨nofun, nofun⟩
  unfold Member.parse Member.parseTrimmed at h
  split_ifs at h
  · cases h
    exact ⟨nofun, nofun⟩
  · split at h
    · exact helement (map_eq_error_iff.mp h)
    · split at h
      · cases h
        exact ⟨nofun, nofun⟩
      · exact helement (map_eq_error_iff.mp h)

/-- The tree of a member fails as the structure does that it refers to. -/
theorem Member.node_eq_error {structs : String → Except DefinitionError (List Node)}
    {member : Member} {cause : DefinitionError} (h : member.node structs = .error cause) :
    ∃ child, member.element = .struct child ∧ structs child = .error cause := by
  have helement : ∀ {element : Element}, element.node structs = .error cause →
      ∃ child, element = .struct child ∧ structs child = .error cause := by
    intro element h
    cases element with
    | primitive kind => cases h
    | struct child => exact ⟨child, rfl, map_eq_error_iff.mp h⟩
  cases member with
  | single element => exact helement h
  | array low high element => exact helement (map_eq_error_iff.mp h)

/-- The tree of a member depends on the structure that it refers to. -/
theorem Member.node_congr {structs others : String → Except DefinitionError (List Node)}
    {member : Member}
    (h : ∀ child, member.element = .struct child → structs child = others child) :
    member.node structs = member.node others := by
  have helement : ∀ {element : Element},
      (∀ child, element = .struct child → structs child = others child) →
        element.node structs = element.node others := by
    intro element h
    cases element with
    | primitive kind => rfl
    | struct child => exact congrArg (Except.map (Node.struct child)) (h child rfl)
  cases member with
  | single element => exact helement h
  | array low high element => exact congrArg (Except.map (Node.array _)) (helement h)

namespace Definitions

/-! ## References -/

/-- **A structure refers to another** by a member, or by the elements of an array member. -/
def RefersTo (defs : Definitions) (owner child : String) : Prop :=
  ∃ texts text member, defs.members? owner = some texts ∧ text ∈ texts ∧
    Member.parse owner text = .ok member ∧ member.element = .struct child

/-- A structure is reached from another, or is this one. -/
def Reaches (defs : Definitions) : String → String → Prop :=
  Relation.ReflTransGen defs.RefersTo

/-- A structure contains another one, however deep. -/
def Contains (defs : Definitions) : String → String → Prop :=
  Relation.TransGen defs.RefersTo

/-- A structure is defined, and all its members can be read. -/
def Legible (defs : Definitions) (name : String) : Prop :=
  ∃ texts, defs.members? name = some texts ∧
    ∀ text ∈ texts, ∃ member, Member.parse name text = .ok member

/-- **A well-formed structure**: all that is reached from it is legible, and none of it contains
itself. -/
def WellFormed (defs : Definitions) (name : String) : Prop :=
  ∀ other, defs.Reaches name other → defs.Legible other ∧ ¬ defs.Contains other other

/-- **A genuine error** of a structure: it tells of a fault in what is reached. A structure that
contains itself does so along the chain that is told. -/
def Genuine (defs : Definitions) (root : String) : DefinitionError → Prop
  | .unknownStructure name => defs.Reaches root name ∧ defs.members? name = none
  | .cyclic name chain => defs.Reaches root name ∧ defs.Contains name name ∧
    chain.head? = some root ∧ chain.IsChain defs.RefersTo ∧
      ∃ before inside, chain = before ++ name :: (inside ++ [name])
  | cause => ∃ owner texts text, defs.Reaches root owner ∧ defs.members? owner = some texts ∧
    text ∈ texts ∧ Member.parse owner text = .error cause

/-! ## Expansions with a bound -/

/-- The trees of member texts, given how structures are expanded. -/
def treesOf (structs : String → Except DefinitionError (List Node)) (owner : String)
    (texts : List String) : Except DefinitionError (List Node) :=
  texts.mapM fun text => do
    let member ← Member.parse owner text
    member.node structs

/-- **An expansion** of a structure while those of a chain are open, and its outcome. At no time more
than `limit` structures are open. -/
inductive Expands (defs : Definitions) (limit : Nat) :
    List String → String → Except DefinitionError (List Node) → Prop
  | cyclic {chain : List String} {name : String} (hlimit : chain.length ≤ limit)
      (hopen : name ∈ chain) : Expands defs limit chain name (.error (.cyclic name (chain ++ [name])))
  | unknown {chain : List String} {name : String} (hlimit : chain.length ≤ limit)
      (hopen : name ∉ chain) (hnone : defs.members? name = none) :
      Expands defs limit chain name (.error (.unknownStructure name))
  | members {chain : List String} {name : String} {texts : List String}
      {structs : String → Except DefinitionError (List Node)}
      (hlimit : (chain ++ [name]).length ≤ limit) (hopen : name ∉ chain)
      (htexts : defs.members? name = some texts)
      (hstructs : ∀ child, defs.RefersTo name child →
        Expands defs limit (chain ++ [name]) child (structs child)) :
      Expands defs limit chain name (treesOf structs name texts)

section

variable {defs : Definitions} {chain : List String} {name child root : String}
  {cause : DefinitionError} {limit : Nat}

/-- The three ways in which an expansion goes. -/
theorem expandFrom_of_mem (h : name ∈ chain) :
    defs.expandFrom chain name = .error (.cyclic name (chain ++ [name])) := by
  rw [expandFrom, dif_pos h]

theorem expandFrom_of_none (hopen : name ∉ chain) (h : defs.members? name = none) :
    defs.expandFrom chain name = .error (.unknownStructure name) := by
  rw [expandFrom, dif_neg hopen]
  split
  · rfl
  · next texts htexts =>
    rw [h] at htexts
    cases htexts

theorem expandFrom_of_some {texts : List String} (hopen : name ∉ chain)
    (h : defs.members? name = some texts) :
    defs.expandFrom chain name = treesOf (defs.expandFrom (chain ++ [name])) name texts := by
  rw [expandFrom, dif_neg hopen]
  split
  · next hnone =>
    rw [h] at hnone
    cases hnone
  · next found hfound =>
    rw [h] at hfound
    cases hfound
    rfl

/-- Member texts that refer to the same trees give the same trees. -/
theorem treesOf_congr {structs others : String → Except DefinitionError (List Node)}
    {texts : List String} (htexts : defs.members? name = some texts)
    (h : ∀ child, defs.RefersTo name child → structs child = others child) :
    treesOf structs name texts = treesOf others name texts := by
  have hall : ∀ front ⊆ texts, treesOf structs name front = treesOf others name front := by
    intro front hfront
    induction front with
    | nil => rfl
    | cons text rest ih =>
      have htext : text ∈ texts := hfront List.mem_cons_self
      have hrest := ih fun other hother => hfront (List.mem_cons_of_mem _ hother)
      have hfirst : (Member.parse name text >>= fun member => member.node structs) =
          Member.parse name text >>= fun member => member.node others := by
        cases hparse : Member.parse name text with
        | error cause => rfl
        | ok member =>
          exact Member.node_congr fun child hchild =>
            h child ⟨texts, text, member, htexts, htext, hparse, hchild⟩
      unfold treesOf at hrest ⊢
      rw [List.mapM_cons, List.mapM_cons, hfirst, hrest]
  exact hall texts fun text htext => htext

/-- The outcome of an expansion does not depend on the bound. -/
theorem Expands.outcome_eq {outcome : Except DefinitionError (List Node)}
    (h : defs.Expands limit chain name outcome) : outcome = defs.expandFrom chain name := by
  induction h with
  | cyclic _ hopen => exact (expandFrom_of_mem hopen).symm
  | unknown _ hopen hnone => exact (expandFrom_of_none hopen hnone).symm
  | members _ hopen htexts _ ih =>
    rw [expandFrom_of_some hopen htexts]
    exact treesOf_congr htexts ih

/-- A chain of different structures that are defined is no longer than all of them. -/
theorem length_le_of_subset (hnodup : chain.Nodup) (hdefined : chain ⊆ defs.names) :
    chain.length ≤ defs.names.length :=
  hnodup.length_le_of_subset hdefined

/-- **Only defined structures are opened**, each once. Induction on the structures that are not open
yet. -/
theorem expands_expandFrom {chain : List String} {name : String} (hnodup : chain.Nodup)
    (hdefined : chain ⊆ defs.names) :
    defs.Expands defs.names.length chain name (defs.expandFrom chain name) := by
  have hlimit := length_le_of_subset hnodup hdefined
  by_cases hopen : name ∈ chain
  · rw [expandFrom_of_mem hopen]
    exact .cyclic hlimit hopen
  · cases htexts : defs.members? name with
    | none =>
      rw [expandFrom_of_none hopen htexts]
      exact .unknown hlimit hopen htexts
    | some texts =>
      have hname := mem_names_of_members? htexts
      have hless := unopened_append_lt hname hopen
      have hnodup' : (chain ++ [name]).Nodup := by
        rw [List.nodup_append]
        refine ⟨hnodup, List.nodup_singleton name, ?_⟩
        rintro other hother _ hname rfl
        exact hopen (List.mem_singleton.mp hname ▸ hother)
      have hdefined' : chain ++ [name] ⊆ defs.names := by
        intro other hother
        rcases List.mem_append.mp hother with hother | hother
        · exact hdefined hother
        · exact List.mem_singleton.mp hother ▸ hname
      rw [expandFrom_of_some hopen htexts]
      exact .members (length_le_of_subset hnodup' hdefined') hopen htexts fun child _ =>
        expands_expandFrom hnodup' hdefined'
termination_by defs.unopened chain

/-- **The expansion of a structure** is one that never has more structures open than are defined. -/
theorem expands_iff {outcome : Except DefinitionError (List Node)} :
    defs.Expands defs.names.length [] name outcome ↔ outcome = defs.expand name := by
  constructor
  · exact fun h => h.outcome_eq
  · rintro rfl
    exact expands_expandFrom List.nodup_nil (List.nil_subset _)

/-! ## Errors are genuine -/

/-- **The structures of a chain are open** on the way from a structure to another one. -/
structure OnTheWay (defs : Definitions) (root : String) (chain : List String) (name : String) :
    Prop where
  head : (chain ++ [name]).head? = some root
  refers : (chain ++ [name]).IsChain defs.RefersTo
  reaches : defs.Reaches root name

theorem onTheWay_root : defs.OnTheWay root [] root :=
  ⟨rfl, List.isChain_singleton root, .refl⟩

theorem OnTheWay.step (h : defs.OnTheWay root chain name) (hchild : defs.RefersTo name child) :
    defs.OnTheWay root (chain ++ [name]) child where
  head := by
    rw [List.head?_append, h.head]
    rfl
  refers := by
    refine List.isChain_append.mpr ⟨h.refers, List.isChain_singleton child, ?_⟩
    intro last hlast first hfirst
    rw [List.getLast?_append_of_ne_nil _ (List.cons_ne_nil _ _)] at hlast
    cases hlast
    cases hfirst
    exact hchild
  reaches := h.reaches.tail hchild

/-- What comes later in a chain of references is contained in what comes before. -/
theorem pairwise_contains (h : chain.IsChain defs.RefersTo) : chain.Pairwise defs.Contains := by
  have htrans : Trans defs.Contains defs.Contains defs.Contains :=
    ⟨fun h h' => Relation.TransGen.trans h h'⟩
  exact (h.imp fun _ _ hrefers => Relation.TransGen.single hrefers).pairwise

/-- A structure that is met while it is open contains itself. -/
theorem OnTheWay.genuine_cyclic (h : defs.OnTheWay root chain name) (hopen : name ∈ chain) :
    defs.Genuine root (.cyclic name (chain ++ [name])) := by
  obtain ⟨before, inside, rfl⟩ := List.append_of_mem hopen
  have hsplit : before ++ name :: inside ++ [name] = before ++ name :: (inside ++ [name]) := by
    rw [List.append_assoc, List.cons_append]
  refine ⟨h.reaches, ?_, h.head, h.refers, before, inside, hsplit⟩
  have hpairwise := pairwise_contains h.refers
  rw [hsplit, List.pairwise_append, List.pairwise_cons] at hpairwise
  exact hpairwise.2.1.1 name (List.mem_append_right _ List.mem_cons_self)

/-- A member that cannot be read is one of a structure that is reached. -/
theorem genuine_of_parse {texts : List String} {text : String} (hreaches : defs.Reaches root name)
    (htexts : defs.members? name = some texts) (htext : text ∈ texts)
    (hparse : Member.parse name text = .error cause) : defs.Genuine root cause := by
  obtain ⟨hunknown, hcyclic⟩ := Member.blame_of_parse hparse
  cases cause with
  | unknownStructure other => exact absurd rfl (hunknown other)
  | cyclic other chain => exact absurd rfl (hcyclic other chain)
  | _ => exact ⟨name, texts, text, hreaches, htexts, htext, hparse⟩

/-- **All errors are genuine.** Induction on the structures that are not open yet: the error is that
of a member text, or that of a structure which is opened for one. -/
theorem genuine_of_expandFrom {chain : List String} {name : String}
    (hway : defs.OnTheWay root chain name) (h : defs.expandFrom chain name = .error cause) :
    defs.Genuine root cause := by
  by_cases hopen : name ∈ chain
  · rw [expandFrom_of_mem hopen] at h
    cases h
    exact hway.genuine_cyclic hopen
  · cases htexts : defs.members? name with
    | none =>
      rw [expandFrom_of_none hopen htexts] at h
      cases h
      exact ⟨hway.reaches, htexts⟩
    | some texts =>
      have hless := unopened_append_lt (mem_names_of_members? htexts) hopen
      rw [expandFrom_of_some hopen htexts] at h
      obtain ⟨text, htext, herror⟩ := mapM_eq_error h
      rcases bind_eq_error_iff.mp herror with hparse | ⟨member, hparse, hnode⟩
      · exact genuine_of_parse hway.reaches htexts htext hparse
      · obtain ⟨child, helement, hchild⟩ := Member.node_eq_error hnode
        have hrefers : defs.RefersTo name child :=
          ⟨texts, text, member, htexts, htext, hparse, helement⟩
        exact genuine_of_expandFrom (hway.step hrefers) hchild
termination_by defs.unopened chain

/-! ## Success -/

/-- A structure that is referred to has been expanded, while the referring one was open. -/
theorem expandFrom_child {nodes : List Node} (h : defs.expandFrom chain name = .ok nodes)
    (hchild : defs.RefersTo name child) :
    ∃ inner, defs.expandFrom (chain ++ [name]) child = .ok inner := by
  obtain ⟨-, texts, htexts, hnodes⟩ := expandFrom_eq_ok_iff.mp h
  obtain ⟨texts', text, member, htexts', htext, hparse, helement⟩ := hchild
  cases htexts.symm.trans htexts'
  obtain ⟨node, -, member', hparse', hnode⟩ := exists_of_mem_forall₂ hnodes.flip htext
  cases hparse.symm.trans hparse'
  have hstruct : ∀ {element : Element} {node : Node}, element = .struct child →
      element.node (defs.expandFrom (chain ++ [name])) = .ok node →
        ∃ inner, defs.expandFrom (chain ++ [name]) child = .ok inner := by
    rintro element node rfl hnode
    obtain ⟨inner, hinner, -⟩ := map_eq_ok_iff.mp hnode
    exact ⟨inner, hinner⟩
  cases member with
  | single element => exact hstruct helement hnode
  | array low high element =>
    obtain ⟨node, hnode, -⟩ := map_eq_ok_iff.mp hnode
    exact hstruct helement hnode

/-- **An expansion that succeeds has opened all that is reached**, each while those above it were
open. -/
theorem reaches_expandFrom {nodes : List Node} {other : String}
    (h : defs.expandFrom chain name = .ok nodes) (hreaches : defs.Reaches name other) :
    ∃ longer inner, chain ⊆ longer ∧ defs.expandFrom longer other = .ok inner := by
  induction hreaches with
  | refl => exact ⟨chain, nodes, List.Subset.refl chain, h⟩
  | tail _ hrefers ih =>
    obtain ⟨longer, inner, hsubset, hinner⟩ := ih
    obtain ⟨deeper, hdeeper⟩ := expandFrom_child hinner hrefers
    exact ⟨_, deeper, fun s hs => List.mem_append_left _ (hsubset hs), hdeeper⟩

theorem legible_of_expandFrom {nodes : List Node} (h : defs.expandFrom chain name = .ok nodes) :
    defs.Legible name := by
  obtain ⟨-, texts, htexts, hnodes⟩ := expandFrom_eq_ok_iff.mp h
  refine ⟨texts, htexts, fun text htext => ?_⟩
  obtain ⟨node, -, member, hparse, -⟩ := exists_of_mem_forall₂ hnodes.flip htext
  exact ⟨member, hparse⟩

/-- A structure that is expanded does not contain itself: it would be open when it is met again. -/
theorem not_contains_of_expandFrom {nodes : List Node}
    (h : defs.expandFrom chain name = .ok nodes) : ¬ defs.Contains name name := by
  intro hcontains
  obtain ⟨child, hrefers, hreaches⟩ := Relation.TransGen.head'_iff.mp hcontains
  obtain ⟨inner, hinner⟩ := expandFrom_child h hrefers
  obtain ⟨longer, deeper, hsubset, hdeeper⟩ := reaches_expandFrom hinner hreaches
  have hnew := (expandFrom_eq_ok_iff.mp hdeeper).1
  exact hnew (hsubset (List.mem_append_right _ List.mem_cons_self))

theorem wellFormed_of_expand {nodes : List Node} (h : defs.expand name = .ok nodes) :
    defs.WellFormed name := by
  intro other hreaches
  obtain ⟨longer, inner, -, hinner⟩ := reaches_expandFrom h hreaches
  exact ⟨legible_of_expandFrom hinner, not_contains_of_expandFrom hinner⟩

/-- A well-formed structure has no genuine error. -/
theorem WellFormed.not_genuine (h : defs.WellFormed name) (cause : DefinitionError) :
    ¬ defs.Genuine name cause := by
  intro hgenuine
  have hmember : ∀ {owner text : String} {texts : List String}, defs.Reaches name owner →
      defs.members? owner = some texts → text ∈ texts → Member.parse owner text ≠ .error cause := by
    intro owner text texts hreaches htexts htext hparse
    obtain ⟨found, hfound, hlegible⟩ := (h owner hreaches).1
    cases htexts.symm.trans hfound
    obtain ⟨member, hmember⟩ := hlegible text htext
    cases hparse.symm.trans hmember
  cases cause with
  | unknownStructure other =>
    obtain ⟨hreaches, hnone⟩ := hgenuine
    obtain ⟨texts, htexts, -⟩ := (h other hreaches).1
    cases hnone.symm.trans htexts
  | cyclic other chain => exact (h other hgenuine.1).2 hgenuine.2.1
  | _ =>
    obtain ⟨owner, texts, text, hreaches, htexts, htext, hparse⟩ := hgenuine
    exact hmember hreaches htexts htext hparse

/-- **A structure can be expanded if and only if it is well formed.** -/
theorem exists_expand_iff : (∃ nodes, defs.expand name = .ok nodes) ↔ defs.WellFormed name := by
  constructor
  · rintro ⟨nodes, h⟩
    exact wellFormed_of_expand h
  · intro h
    cases hexpand : defs.expand name with
    | ok nodes => exact ⟨nodes, rfl⟩
    | error cause =>
      exact absurd (genuine_of_expandFrom onTheWay_root hexpand) (h.not_genuine cause)

/-- What a well-formed structure contains is well formed. -/
theorem WellFormed.of_contains (h : defs.WellFormed name) (hcontains : defs.Contains name child) :
    defs.WellFormed child :=
  fun other hreaches => h other (hcontains.to_reflTransGen.trans hreaches)

end

/-! ## Layouts -/

/-- A structure that contains itself through an array is told with the way to it. -/
example : (ofRows [⟨"Top", ["A"]⟩, ⟨"A", ["INT", "B"]⟩, ⟨"B", ["ARRAY[0..1] OF A"]⟩]).layout "Top" =
    .error (.cyclic "A" ["Top", "A", "B", "A"]) := by decide +kernel

end Definitions

end PlcTags.Layout
