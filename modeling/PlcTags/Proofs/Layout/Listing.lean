import PlcTags.Layout.Definitions
import PlcTags.Proofs.Text.Blank

/-!
# Definitions files

The files that list given rows, and what is read from them: each name once, where it first came,
with the members of its last row.

* `IsField`, `Definition.Writable`: what can stand in such a file.
* `Definitions.Field`, `Line`, `Listing`: fields with blanks and quotes around them, lines with
  empty fields among the members, files with blank lines and comments among the rows.
* `Definitions.names_ofRows`, `members?_ofRows`: the table of rows inserted one after the other.
* `Definitions.write`: the plainest such file, with every field in quotes.
* `Definitions.ofText_of_listing`: the main statement.
-/

namespace PlcTags.Layout

open PlcTags.Text

/-- A text without a blank or a quote at its ends. -/
structure Bare (content : List Char) : Prop where
  first : ∀ c ∈ content.head?, isBlank c = false ∧ c ≠ '"'
  last : ∀ c ∈ content.getLast?, isBlank c = false ∧ c ≠ '"'

-- Not by the quantifiers over characters, which would be decided by trying all of them.
instance : DecidablePred Bare := fun content =>
  decidable_of_iff (content.head?.all (fun c => !isBlank c && c != '"') = true ∧
      content.getLast?.all (fun c => !isBlank c && c != '"') = true)
    ⟨fun ⟨hfirst, hlast⟩ => ⟨by simpa [Option.all_eq_true] using hfirst,
        by simpa [Option.all_eq_true] using hlast⟩,
      fun h => ⟨by simpa [Option.all_eq_true] using h.first,
        by simpa [Option.all_eq_true] using h.last⟩⟩

/-- **What can be a field** of a definitions file: not empty, without a comma or a line feed, and
without a blank or a quote at its ends. -/
structure IsField (content : String) : Prop extends Bare content.toList where
  nonempty : content ≠ ""
  noComma : ',' ∉ content.toList
  noLineFeed : '\n' ∉ content.toList

instance : DecidablePred IsField := fun content =>
  decidable_of_iff (Bare content.toList ∧ content ≠ "" ∧ ',' ∉ content.toList ∧
      '\n' ∉ content.toList)
    ⟨fun ⟨hbare, hne, hcomma, hfeed⟩ => ⟨hbare, hne, hcomma, hfeed⟩,
      fun h => ⟨h.toBare, h.nonempty, h.noComma, h.noLineFeed⟩⟩

/-- A row whose name and members can be fields. -/
structure Definition.Writable (row : Definition) : Prop where
  name : IsField row.name
  members : ∀ member ∈ row.members, IsField member

instance : DecidablePred Definition.Writable := fun row =>
  decidable_of_iff (IsField row.name ∧ ∀ member ∈ row.members, IsField member)
    ⟨fun h => ⟨h.1, h.2⟩, fun h => ⟨h.name, h.members⟩⟩

namespace Definitions

variable {row? : Option Definition} {rows : List Definition} {quoted : Bool}
  {content line text : List Char}

/-! ## Fields -/

/-- **A field as it is written**: in quotes or not, with blanks around it and inside the quotes. -/
inductive Field (content : List Char) : Bool → List Char → Prop
  | plain {text : List Char} (h : Padded content text) : Field content false text
  | quoted {inner text : List Char} (hinner : Padded content inner)
      (h : Padded ('"' :: (inner ++ ['"'])) text) : Field content true text

theorem Bare.nil : Bare [] :=
  ⟨nofun, nofun⟩

theorem trim_of_bare (h : Bare content) : trim content = content :=
  trim_eq_self (fun c hc => (h.first c hc).1) fun c hc => (h.last c hc).1

/-- Blanks around a text without quotes at its ends put none there. -/
theorem dropEnds_quoted (h : Bare content) {inner : List Char} (hinner : Padded content inner) :
    dropEnds (· == '"') ('"' :: (inner ++ ['"'])) = inner := by
  have hblank : ∀ c, isBlank c = true → (c == '"') = false := by
    refine fun c hc => beq_eq_false_iff_ne.mpr fun hquote => ?_
    rw [hquote] at hc
    exact absurd hc (by decide)
  have hfirst : ∀ c ∈ inner.head?, (c == '"') = false := fun c hc =>
    (hinner.head? hc).elim (fun hc => beq_eq_false_iff_ne.mpr (h.first c hc).2) (hblank c)
  have hlast : ∀ c ∈ inner.getLast?, (c == '"') = false := fun c hc =>
    (hinner.getLast? hc).elim (fun hc => beq_eq_false_iff_ne.mpr (h.last c hc).2) (hblank c)
  exact dropEnds_cons_concat (by decide) hfirst hlast

namespace Field

/-- **A field is cleaned to what it holds.** -/
theorem cleanField_eq (hcontent : Bare content) (h : Field content quoted text) :
    cleanField text = content := by
  unfold cleanField
  cases h with
  | plain h =>
    rw [h.trim_eq, trim_of_bare hcontent, dropEnds,
      dropWhile_eq_of_head fun c hc => beq_eq_false_iff_ne.mpr (hcontent.first c hc).2,
      dropEnd_eq_of_last fun c hc => beq_eq_false_iff_ne.mpr (hcontent.last c hc).2,
      trim_of_bare hcontent]
  | @quoted inner _ hinner h =>
    have htrim : trim ('"' :: (inner ++ ['"'])) = '"' :: (inner ++ ['"']) := by
      refine trim_eq_self (fun c hc => ?_) fun c hc => ?_
      · obtain rfl : '"' = c := Option.some.inj hc
        decide
      · rw [← List.cons_append, List.getLast?_concat] at hc
        obtain rfl : '"' = c := Option.some.inj hc
        decide
    rw [h.trim_eq, htrim, dropEnds_quoted hcontent hinner, hinner.trim_eq, trim_of_bare hcontent]

/-- Blanks and quotes bring no comma. -/
theorem noComma (hcontent : ',' ∉ content) (h : Field content quoted text) : ',' ∉ text := by
  cases h with
  | plain h => exact h.notMem (by decide) hcontent
  | quoted hinner h =>
    refine h.notMem (by decide) ?_
    simp only [List.mem_cons, List.mem_append, List.not_mem_nil, or_false, not_or]
    exact ⟨by decide, hinner.notMem (by decide) hcontent, by decide⟩

/-- A line that begins with a field is a comment only if the field does so without quotes. -/
theorem head?_trim (hcontent : Bare content) (hne : content ≠ []) (h : Field content quoted text)
    (hquoted : content.head? = some '#' → quoted = true) (rest : List Char) :
    ∃ c, c ≠ '#' ∧ (trim (text ++ rest)).head? = some c := by
  cases h with
  | plain h =>
    obtain ⟨c, others, rfl⟩ := List.exists_cons_of_ne_nil hne
    refine ⟨c, ?_, h.head?_trim_append (hcontent.first c rfl).1 rest⟩
    rintro rfl
    exact Bool.false_ne_true (hquoted rfl)
  | quoted hinner h => exact ⟨'"', by decide, h.head?_trim_append (by decide) rest⟩

end Field

/-! ## Lines -/

/-- **The fields behind a name**: those of its members, and empty ones among them. -/
inductive MemberFields : List String → List (List Char) → Prop
  | nil : MemberFields [] []
  | empty {members : List String} {fields : List (List Char)} {quoted : Bool} {text : List Char}
      (h : Field [] quoted text) (hrest : MemberFields members fields) :
      MemberFields members (text :: fields)
  | member {member : String} {members : List String} {fields : List (List Char)} {quoted : Bool}
      {text : List Char} (h : Field member.toList quoted text)
      (hrest : MemberFields members fields) : MemberFields (member :: members) (text :: fields)

/-- **A line of a definitions file**: blanks, a comment, or the fields of a row between commas. A
name that begins like a comment is in quotes. -/
inductive Line : Option Definition → List Char → Prop
  | blank {text : List Char} (h : Blank text) : Line none text
  | comment {before : List Char} (hbefore : Blank before) (rest : List Char) :
      Line none (before ++ '#' :: rest)
  | row {row : Definition} {first : List Char} {fields : List (List Char)} {quoted : Bool}
      (hname : Field row.name.toList quoted first)
      (hquoted : row.name.toList.head? = some '#' → quoted = true)
      (hmembers : MemberFields row.members fields) :
      Line (some row) ([','].intercalate (first :: fields))

/-- Every field behind the first stands behind a comma. -/
theorem intercalate_comma (first : List Char) (fields : List (List Char)) :
    [','].intercalate (first :: fields) = first ++ fields.flatMap fun field => ',' :: field := by
  induction fields generalizing first with
  | nil => rw [List.intercalate_singleton, List.flatMap_nil, List.append_nil]
  | cons second others ih =>
    rw [List.intercalate_cons_cons, ih, List.flatMap_cons, List.append_assoc]
    rfl

/-- What stands between the commas of a line. -/
def cells (line : List Char) : List (List Char) :=
  (line.splitOn ',').map cleanField

theorem cells_of_notMem (h : ',' ∉ line) : cells line = [cleanField line] := by
  rw [cells, List.splitOn_eq_singleton h, List.map_singleton]

theorem cells_append_cons (before after : List Char) :
    cells (before ++ ',' :: after) = cells before ++ cells after := by
  rw [cells, List.splitOn_append_cons_self, List.map_append, cells, cells]

theorem Blank.noComma (h : Blank text) : ',' ∉ text :=
  fun hmem => absurd (h _ hmem) (by decide)

theorem cleanField_blank_append {before : List Char} (h : Blank before) :
    cleanField (before ++ text) = cleanField text := by
  rw [cleanField, trim_blank_append h, cleanField]

theorem cleanField_append_blank {after : List Char} (h : Blank after) :
    cleanField (text ++ after) = cleanField text := by
  rw [cleanField, trim_append_blank h, cleanField]

/-- Blanks in front of a line are around its first cell. -/
theorem cells_blank_append {before : List Char} (h : Blank before) :
    cells (before ++ line) = cells line := by
  have hbefore := Blank.noComma h
  by_cases hmem : ',' ∈ line
  · obtain ⟨first, rest, rfl, hfirst⟩ := List.eq_append_cons_of_mem hmem
    rw [← List.append_assoc, cells_append_cons, cells_append_cons, cells_of_notMem hfirst,
      cells_of_notMem (List.not_mem_append hbefore hfirst), cleanField_blank_append h]
  · rw [cells_of_notMem hmem, cells_of_notMem (List.not_mem_append hbefore hmem),
      cleanField_blank_append h]

/-- Blanks behind a line are around its last cell. -/
theorem cells_append_blank {after : List Char} (h : Blank after) :
    cells (line ++ after) = cells line := by
  have hafter := Blank.noComma h
  by_cases hmem : ',' ∈ line
  · obtain ⟨last, front, hline, hlast⟩ := List.eq_append_cons_of_mem (List.mem_reverse.mpr hmem)
    obtain rfl : line = front.reverse ++ ',' :: last.reverse := by
      rw [← List.reverse_reverse line, hline]
      simp
    rw [← List.mem_reverse] at hlast
    rw [List.append_assoc, List.cons_append, cells_append_cons, cells_append_cons,
      cells_of_notMem hlast, cells_of_notMem (List.not_mem_append hlast hafter),
      cleanField_append_blank h]
  · rw [cells_of_notMem hmem, cells_of_notMem (List.not_mem_append hmem hafter),
      cleanField_append_blank h]

theorem cells_trim (line : List Char) : cells (trim line) = cells line := by
  have h := padded_trim line
  generalize trim line = core at h
  obtain ⟨hbefore, hafter⟩ := h
  rw [cells_blank_append hbefore, cells_append_blank hafter]

namespace MemberFields

variable {members : List String} {fields : List (List Char)}

theorem noComma (hmembers : ∀ member ∈ members, IsField member) (h : MemberFields members fields) :
    ∀ field ∈ fields, ',' ∉ field := by
  induction h with
  | nil => exact nofun
  | empty h _ ih =>
    exact List.forall_mem_cons.mpr ⟨h.noComma List.not_mem_nil, ih hmembers⟩
  | member h _ ih =>
    obtain ⟨hmember, hrest⟩ := List.forall_mem_cons.mp hmembers
    exact List.forall_mem_cons.mpr ⟨h.noComma hmember.noComma, ih hrest⟩

/-- Without the empty ones, the fields hold the members. -/
theorem filter_cleanField (hmembers : ∀ member ∈ members, IsField member)
    (h : MemberFields members fields) :
    (((fields.map cleanField).filter fun field => !field.isEmpty).map String.ofList) = members := by
  induction h with
  | nil => rfl
  | empty h _ ih =>
    rw [List.map_cons, h.cleanField_eq Bare.nil]
    exact ih hmembers
  | @member member _ _ _ _ h _ ih =>
    obtain ⟨hmember, hrest⟩ := List.forall_mem_cons.mp hmembers
    have hkept : (!member.toList.isEmpty) = true := by
      rw [Bool.not_eq_true', List.isEmpty_eq_false_iff]
      exact fun hempty => hmember.nonempty (String.toList_eq_nil_iff.mp hempty)
    rw [List.map_cons, h.cleanField_eq hmember.toBare, List.filter_cons, if_pos hkept, List.map_cons,
      String.ofList_toList, ih hrest]

end MemberFields

/-- **A line is read as what it holds.** -/
theorem ofLine?_of_line (hrow : ∀ row ∈ row?, row.Writable) (h : Line row? line) :
    ofLine? line = row? := by
  unfold ofLine?
  dsimp only
  cases h with
  | blank h =>
    rw [trim_eq_nil_iff.mpr h]
    rfl
  | @comment before hbefore rest =>
    have htrim : trim (before ++ '#' :: rest) = '#' :: dropEnd isBlank rest := by
      rw [trim_blank_append hbefore, ← List.nil_append ('#' :: rest), trim_append_cons (by decide)]
      rfl
    rw [htrim]
    rfl
  | @row row first fields quoted hname hquoted hmembers =>
    obtain ⟨hfield, hfields⟩ := hrow row rfl
    have hne : row.name.toList ≠ [] :=
      fun hempty => hfield.nonempty (String.toList_eq_nil_iff.mp hempty)
    obtain ⟨c, hc, hhead⟩ := hname.head?_trim hfield.toBare hne hquoted
      (fields.flatMap fun field => ',' :: field)
    rw [← intercalate_comma] at hhead
    have hcomma : ∀ field ∈ first :: fields, ',' ∉ field :=
      List.forall_mem_cons.mpr ⟨hname.noComma hfield.noComma, hmembers.noComma hfields⟩
    have hcells : cells (trim ([','].intercalate (first :: fields))) =
        row.name.toList :: fields.map cleanField := by
      rw [cells_trim, cells, List.splitOn_intercalate ',' hcomma (List.cons_ne_nil _ _),
        List.map_cons, hname.cleanField_eq hfield.toBare]
    obtain ⟨others, hothers⟩ := List.head?_eq_some_iff.mp hhead
    have hkept : ¬ ((trim ([','].intercalate (first :: fields))).isEmpty ||
        (trim ([','].intercalate (first :: fields))).head? == some '#') = true := by
      rw [hothers]
      simpa using hc
    rw [if_neg hkept]
    unfold cells at hcells
    rw [hcells]
    dsimp only
    rw [if_neg (by simpa using hne), String.ofList_toList, hmembers.filter_cleanField hfields]

theorem ofLine?_append_blank {after : List Char} (h : Blank after) :
    ofLine? (line ++ after) = ofLine? line := by
  unfold ofLine?
  rw [trim_append_blank h]

/-! ## Files -/

/-- **A definitions file that lists rows**, one a line, among lines without a row. A line ends with
a line feed, or with a carriage return and a line feed; the last one need not. -/
inductive Listing : List Definition → List Char → Prop
  | last {row? : Option Definition} {line : List Char} (h : Line row? line) (hline : '\n' ∉ line) :
      Listing row?.toList line
  | cons {row? : Option Definition} {rows : List Definition} {line ending rest : List Char}
      (h : Line row? line) (hline : '\n' ∉ line) (hending : ending = [] ∨ ending = ['\r'])
      (hrest : Listing rows rest) : Listing (row?.toList ++ rows) (line ++ (ending ++ '\n' :: rest))

/-- The rows that are read are the rows that are listed. -/
theorem filterMap_ofLine? (hrows : ∀ row ∈ rows, row.Writable) (h : Listing rows text) :
    (text.splitOn '\n').filterMap ofLine? = rows := by
  induction h with
  | @last row? line h hline =>
    have hread := ofLine?_of_line (fun row hrow => hrows row (Option.mem_toList.mpr hrow)) h
    rw [List.splitOn_eq_singleton hline]
    cases row? with
    | none => exact List.filterMap_cons_none hread
    | some row => exact List.filterMap_cons_some hread
  | @cons row? rows line ending rest h hline hending _ ih =>
    obtain ⟨hfirst, hothers⟩ := List.forall_mem_append.mp hrows
    have hread := ofLine?_of_line (fun row hrow => hfirst row (Option.mem_toList.mpr hrow)) h
    have hblank : Blank ending := by
      rcases hending with rfl | rfl
      · exact .nil
      · exact fun c hc => List.mem_singleton.mp hc ▸ rfl
    have hfeed : '\n' ∉ line ++ ending := by
      rw [List.mem_append, not_or]
      rcases hending with rfl | rfl
      · exact ⟨hline, List.not_mem_nil⟩
      · exact ⟨hline, by decide⟩
    rw [← ofLine?_append_blank hblank] at hread
    rw [← List.append_assoc, List.splitOn_append_cons_self_of_not_mem hfeed]
    cases row? with
    | none => rw [List.filterMap_cons_none hread, ih hothers]; rfl
    | some row => rw [List.filterMap_cons_some hread, ih hothers]; rfl

/-- A text in quotes. -/
def quote (content : String) : List Char :=
  '"' :: (content.toList ++ ['"'])

/-- A row in one line, its fields in quotes. -/
def writeRow (row : Definition) : List Char :=
  [','].intercalate ((row.name :: row.members).map quote)

/-- **The rows one a line.** -/
def write (rows : List Definition) : List Char :=
  rows.flatMap fun row => writeRow row ++ ['\n']

theorem field_quote (content : String) : Field content.toList true (quote content) :=
  .quoted (.refl _) (.refl _)

theorem memberFields_quote (members : List String) : MemberFields members (members.map quote) := by
  induction members with
  | nil => exact .nil
  | cons member members ih => exact .member (field_quote member) ih

theorem line_writeRow (row : Definition) : Line (some row) (writeRow row) :=
  .row (field_quote row.name) (fun _ => rfl) (memberFields_quote row.members)

theorem quote_noLineFeed {content : String} (h : IsField content) : '\n' ∉ quote content := by
  simp [quote, h.noLineFeed]

theorem writeRow_noLineFeed {row : Definition} (h : row.Writable) : '\n' ∉ writeRow row := by
  rw [writeRow, List.map_cons, intercalate_comma, List.mem_append, not_or]
  refine ⟨quote_noLineFeed h.name, fun hmem => ?_⟩
  obtain ⟨field, hfield, hfeed⟩ := List.mem_flatMap.mp hmem
  obtain ⟨member, hmember, rfl⟩ := List.mem_map.mp hfield
  rcases List.mem_cons.mp hfeed with hcomma | hfeed
  · exact absurd hcomma (by decide)
  · exact quote_noLineFeed (h.members member hmember) hfeed

/-- The rows one a line are a file that lists them. -/
theorem listing_write (hrows : ∀ row ∈ rows, row.Writable) : Listing rows (write rows) := by
  induction rows with
  | nil => exact .last (.blank .nil) List.not_mem_nil
  | cons row rows ih =>
    obtain ⟨hrow, hrest⟩ := List.forall_mem_cons.mp hrows
    rw [write, List.flatMap_cons, List.append_assoc]
    exact .cons (line_writeRow row) (writeRow_noLineFeed hrow) (.inl rfl) (ih hrest)

/-! ## The table of the rows -/

theorem ofRows_concat (rows : List Definition) (row : Definition) :
    ofRows (rows ++ [row]) = (ofRows rows).insert row.name row.members := by
  rw [ofRows, List.foldl_concat, ofRows]

theorem names_insert (defs : Definitions) (name : String) (members : List String) :
    (defs.insert name members).names =
      if name ∈ defs.names then defs.names else defs.names ++ [name] := by
  unfold insert names
  by_cases h : name ∈ defs.rows.map Definition.name
  · simp only [h, ↓reduceDIte, ↓reduceIte]
    exact map_name_replaceRow name members defs.rows
  · simp only [h, ↓reduceDIte, ↓reduceIte]
    rw [List.map_append, List.map_singleton]

/-- Each name stands in the table once, in the order in which the names first came. -/
theorem names_ofRows (rows : List Definition) :
    (ofRows rows).names = (rows.map Definition.name).eraseDups := by
  induction rows using List.reverseRecOn with
  | nil => rfl
  | append_singleton rows row ih =>
    rw [ofRows_concat, names_insert, ih, List.map_append, List.map_singleton, List.eraseDups_append]
    generalize rows.map Definition.name = names
    by_cases h : row.name ∈ names
    · rw [if_pos (List.mem_eraseDups.mpr h)]
      simp [List.removeAll, h]
    · rw [if_neg (List.mem_eraseDups.not.mpr h)]
      simp [List.removeAll, h, List.eraseDups_cons]

/-- A name has the members of its last row. -/
theorem members?_ofRows (rows : List Definition) (name : String) :
    (ofRows rows).members? name =
      (rows.reverse.find? fun row => row.name == name).map Definition.members := by
  induction rows using List.reverseRecOn with
  | nil => rfl
  | append_singleton rows row ih =>
    rw [ofRows_concat, members?_insert, ih, List.reverse_concat, List.find?_cons]
    by_cases h : row.name = name
    · rw [if_pos h.symm, beq_iff_eq.mpr h]
      rfl
    · rw [if_neg (Ne.symm h), beq_eq_false_iff_ne.mpr h]

/-- **A definitions file is read as the table of the rows that it lists**: each name once, where it
first came, with the members of its last row. The rows written one a line are such a file. -/
theorem ofText_of_listing (hrows : ∀ row ∈ rows, row.Writable) :
    Listing rows (write rows) ∧ ∀ text : String, Listing rows text.toList →
      (ofText text).names = (rows.map Definition.name).eraseDups ∧
        ∀ name, (ofText text).members? name =
          (rows.reverse.find? fun row => row.name == name).map Definition.members := by
  refine ⟨listing_write hrows, fun text h => ?_⟩
  unfold ofText
  rw [filterMap_ofLine? hrows h]
  exact ⟨names_ofRows rows, members?_ofRows rows⟩

/-- A name that begins like a comment, and a later row for an earlier name. -/
def pumpRows : List Definition :=
  [⟨"Pump", ["DINT", "INT"]⟩, ⟨"#1", ["REAL"]⟩, ⟨"Pump", ["LREAL"]⟩]

/-- The rows below a comment and an empty line, with blanks, quotes and an empty field. -/
def pumpText : String :=
  "# pumps\r\n\nPump ,\"\", DINT,\"INT \"\n \"#1\",REAL\r\nPump,LREAL"

theorem listing_pumpText : Listing pumpRows pumpText.toList := by
  have hspace : Blank [' '] := by decide
  have hpump : Line (some ⟨"Pump", ["DINT", "INT"]⟩)
      ([','].intercalate ["Pump ".toList, "\"\"".toList, " DINT".toList, "\"INT \"".toList]) :=
    .row (.plain (.blank_after _ hspace)) (by decide)
      (.empty (.quoted (.refl []) (.refl _))
        (.member (.plain (@Padded.mk "DINT".toList [' '] [] hspace .nil))
          (.member (.quoted (.blank_after "INT".toList hspace) (.refl _)) .nil)))
  have hname : Line (some ⟨"#1", ["REAL"]⟩) ([','].intercalate [" \"#1\"".toList, "REAL".toList]) :=
    .row (.quoted (.refl _) (@Padded.mk "\"#1\"".toList [' '] [] hspace .nil)) (fun _ => rfl)
      (.member (.plain (.refl _)) .nil)
  have hlater : Line (some ⟨"Pump", ["LREAL"]⟩) ([','].intercalate ["Pump".toList, "LREAL".toList]) :=
    .row (.plain (.refl _)) (by decide) (.member (.plain (.refl _)) .nil)
  exact .cons (.comment .nil " pumps".toList) (by decide) (.inr rfl)
    (.cons (.blank .nil) (by decide) (.inl rfl)
      (.cons hpump (by decide) (.inl rfl) (.cons hname (by decide) (.inr rfl)
        (.last hlater (by decide)))))

theorem ofText_of_listing_pumpRows : (ofText pumpText).names = ["Pump", "#1"] ∧
    (ofText pumpText).members? "Pump" = some ["LREAL"] := by
  obtain ⟨hnames, hmembers⟩ := (@ofText_of_listing pumpRows (by decide)).2 pumpText listing_pumpText
  exact ⟨hnames, hmembers "Pump"⟩

end Definitions

end PlcTags.Layout
