import PhpStyle.Output.Mark
import PhpStyle.Proofs.TextReading

/-!
# Reading marks back

A workflow log is read line by line. A command starts with two colons and its level; up to the
next two colons there are properties, separated by commas, and all that follows is the message,
in which codes stand for percent signs and ends of lines.

The message of a mark is written in these codes, so it is always read back. Path and title are
written as they are. They are read back as long as nothing in them looks like the end of a
property, of the properties or of the line; a title is followed by two colons, so it must not end
with a colon either. Otherwise the mark that is read is another one.
-/

namespace PhpStyle.Mark

open List

/-- The characters behind a percent sign, and the character that they stand for. -/
def codes : List (List Char × Char) :=
  [(['2', '5'], '%'), (['0', 'D'], '\r'), (['0', 'A'], '\n')]

/-- What the codes in a message stand for. -/
def decode : List Char → List Char
  | '%' :: high :: low :: rest =>
    match codes.lookup [high, low] with
    | some c => c :: decode rest
    | none => '%' :: decode (high :: low :: rest)
  | c :: rest => c :: decode rest
  | [] => []

/-- The value of a property. If it is written more than once, the last one counts. -/
def value? (properties : List (List Char × List Char)) (name : String) : Option (List Char) :=
  properties.reverse.lookup name.toList

/-- The mark with some properties. -/
def ofProperties? (severity : Severity) (properties : List (List Char × List Char))
    (message : List Char) : Option Mark := do
  let path ← value? properties "file"
  let line ← (value? properties "line").bind number?
  let column ← (value? properties "col").bind number?
  let title ← value? properties "title"
  return {
    severity, line, column
    path := String.ofList path
    title := String.ofList title
    message := String.ofList message }

/-- The mark that a command stands for. -/
def read? : List Char → Option Mark
  | ':' :: ':' :: text => do
    let (level, text) ← cutAt? [' '] text
    let (list, data) ← cutAt? [':', ':'] text
    let severity ← Severity.ofName? (String.ofList level)
    ofProperties? severity ((list.splitOn ',').filterMap (cutAt? ['='])) (decode data)
  | _ => none

/-! ## Messages -/

theorem decode_cons {c : Char} (plain : c ≠ '%') (rest : List Char) :
    decode (c :: rest) = c :: decode rest := by
  rw [decode]
  simp [plain]

theorem decode_escape_append (c : Char) (rest : List Char) :
    decode (escape c ++ rest) = c :: decode rest := by
  rw [escape]
  split
  · next percent => rw [percent]; rfl
  · next plain =>
      split
      · next carriage => rw [carriage]; rfl
      · split
        · next feed => rw [feed]; rfl
        · exact decode_cons plain rest

theorem decode_flatMap_escape (message : List Char) : decode (message.flatMap escape) = message := by
  induction message with
  | nil => rfl
  | cons c rest ih => rw [flatMap_cons, decode_escape_append, ih]

theorem not_break_of_mem_escape {c d : Char} (written : d ∈ escape c) : d ≠ '\n' ∧ d ≠ '\r' := by
  rw [escape] at written
  split at written
  · simp at written
    rcases written with rfl | rfl | rfl <;> decide
  · split at written
    · simp at written
      rcases written with rfl | rfl | rfl <;> decide
    · split at written
      · simp at written
        rcases written with rfl | rfl | rfl <;> decide
      · simp at written
        subst written
        constructor <;> assumption

/-! ## Commands -/

/-- A property as it is written. -/
def field (property : List Char × List Char) : List Char :=
  property.1 ++ ['='] ++ property.2

/-- The properties of a command. -/
def properties (path : List Char) (line column : Nat) (title : List Char) :
    List (List Char × List Char) :=
  [("file".toList, path), ("line".toList, (toString line).toList),
    ("col".toList, (toString column).toList), ("title".toList, title)]

/-- The properties of a command as they are written. -/
def list (path : List Char) (line column : Nat) (title : List Char) : List Char :=
  [','].intercalate ((properties path line column title).map field)

/-- A command with a message that is written already. -/
def command (severity : Severity) (path : List Char) (line column : Nat)
    (title data : List Char) : List Char :=
  ':' :: ':' :: (severity.toName.toList ++ [' '] ++
    (list path line column title ++ [':', ':'] ++ data))

theorem list_eq (path : List Char) (line column : Nat) (title : List Char) :
    list path line column title =
      field ("file".toList, path) ++ ',' :: (field ("line".toList, (toString line).toList) ++
        ',' :: (field ("col".toList, (toString column).toList) ++
          ',' :: field ("title".toList, title))) := by
  simp [List.intercalate, list, properties]

theorem toList_render (mark : Mark) :
    mark.render.toList = command mark.severity mark.path.toList mark.line mark.column
      mark.title.toList (mark.message.toList.flatMap escape) := by
  unfold render
  simp only [String.toList_append, escapeText, toString, String.toList_ofList, command, list_eq,
    field]
  simp

/-- A text in which nothing looks like the end of a property or of the properties. -/
structure IsValue (text : List Char) : Prop where
  commas : ',' ∉ text
  colons : ¬[':', ':'] <:+: text

theorem IsValue.of_infix {part text : List Char} (isValue : IsValue text) (inside : part <:+: text) :
    IsValue part :=
  ⟨fun comma => isValue.commas (inside.subset comma), fun pair => isValue.colons (pair.trans inside)⟩

theorem isValue_toString (number : Nat) : IsValue (toString number).toList := by
  constructor
  · intro written
    have := isDigit_of_mem_toString written
    cases this
  · intro inside
    have := isDigit_of_mem_toString (inside.subset (mem_cons_self (a := ':')))
    cases this

theorem IsValue.field {value : List Char} (isValue : IsValue value) {name : List Char}
    (commas : ',' ∉ name) (colons : ':' ∉ name) : IsValue (field (name, value)) := by
  constructor
  · simp [Mark.field, commas, isValue.commas]
  · rw [Mark.field, List.append_assoc, singleton_append, infix_append_cons_iff (by decide)]
    rintro (inside | inside)
    · exact colons (inside.subset (by simp))
    · exact isValue.colons inside

section Written

variable {path title : List Char} (path_value : IsValue path) (title_value : IsValue title)
  (line column : Nat)

include path_value title_value

theorem isValue_field {property : List Char × List Char}
    (listed : property ∈ properties path line column title) : IsValue (field property) := by
  simp only [properties, mem_cons, not_mem_nil, or_false] at listed
  rcases listed with rfl | rfl | rfl | rfl
  · exact path_value.field (by decide) (by decide)
  · exact (isValue_toString line).field (by decide) (by decide)
  · exact (isValue_toString column).field (by decide) (by decide)
  · exact title_value.field (by decide) (by decide)

theorem colons_list : ¬[':', ':'] <:+: list path line column title := by
  have values (property : List Char × List Char)
      (listed : property ∈ properties path line column title) :=
    (isValue_field path_value title_value line column listed).colons
  simp only [properties, forall_mem_cons] at values
  rw [list_eq]
  simp only [infix_append_cons_iff (show ',' ∉ [':', ':'] by decide), not_or]
  exact ⟨values.1, values.2.1, values.2.2.1, values.2.2.2.1⟩

/-- The properties are found again in what is written of them. -/
theorem properties_of_list :
    ((list path line column title).splitOn ',').filterMap (cutAt? ['=']) =
      properties path line column title := by
  have pieces : (list path line column title).splitOn ',' =
      (properties path line column title).map field := by
    apply splitOn_intercalate
    · intro text listed
      rcases List.mem_map.mp listed with ⟨property, inside, rfl⟩
      exact (isValue_field path_value title_value line column inside).commas
    · simp [properties]
  have cut {name : List Char} (plain : '=' ∉ name) (value : List Char) :
      cutAt? ['='] (field (name, value)) = some (name, value) := cutAt?_of_not_mem plain
  have file : '=' ∉ "file".toList := by decide
  have line : '=' ∉ "line".toList := by decide
  have col : '=' ∉ "col".toList := by decide
  have title : '=' ∉ "title".toList := by decide
  rw [pieces]
  simp only [properties, map_cons, map_nil, filterMap_cons, filterMap_nil,
    cut file, cut line, cut col, cut title]

end Written

theorem exists_list_eq (path : List Char) (line column : Nat) :
    ∃ front, ∀ title, list path line column title = front ++ '=' :: title := by
  refine ⟨field ("file".toList, path) ++ ',' :: (field ("line".toList, (toString line).toList) ++
    ',' :: (field ("col".toList, (toString column).toList) ++ ',' :: "title".toList)), ?_⟩
  intro title
  simp [list_eq, field]

theorem ofProperties?_properties (severity : Severity) (path : List Char) (line column : Nat)
    (title message : List Char) :
    ofProperties? severity (properties path line column title) message =
      some { severity, line, column
             path := String.ofList path
             title := String.ofList title
             message := String.ofList message } := by
  have file : value? (properties path line column title) "file" = some path := rfl
  have line_value : value? (properties path line column title) "line" =
    some (toString line).toList := rfl
  have column_value : value? (properties path line column title) "col" =
    some (toString column).toList := rfl
  have title_value : value? (properties path line column title) "title" = some title := rfl
  simp only [ofProperties?, file, line_value, column_value, title_value, number?_toString,
    Option.bind_eq_bind, Option.bind_some, Option.pure_def]

theorem read?_command (severity : Severity) {path title : List Char} (line column : Nat)
    (data : List Char) (path_value : IsValue path) (title_value : IsValue title)
    (title_end : title.getLast? ≠ some ':') :
    read? (command severity path line column title data) =
      some { severity, line, column
             path := String.ofList path
             title := String.ofList title
             message := String.ofList (decode data) } := by
  have level (text : List Char) : cutAt? [' '] (severity.toName.toList ++ [' '] ++ text) =
      some (severity.toName.toList, text) := by
    apply cutAt?_of_not_mem
    cases severity <;> decide
  have colons : cutAt? [':', ':'] (list path line column title ++ [':', ':'] ++ data) =
      some (list path line column title, data) := by
    apply cutAt?_pair (colons_list path_value title_value line column)
    rcases exists_list_eq path line column with ⟨front, list_eq⟩
    rw [list_eq, getLast?_append, getLast?_cons, Option.some_or, ne_eq, Option.some.injEq]
    cases last : title.getLast? with
    | none => decide
    | some c =>
      rw [last, ne_eq, Option.some.injEq] at title_end
      exact title_end
  have name : Severity.ofName? (String.ofList severity.toName.toList) = some severity := by
    rw [String.ofList_toList]
    cases severity <;> rfl
  simp only [command, read?, level, colons, name, Option.bind_eq_bind, Option.bind_some,
    properties_of_list path_value title_value, ofProperties?_properties]

/-- Whatever is read as a property looks like no end of one. -/
theorem isValue_of_value? {text value : List Char} {name : String} (colons : ¬[':', ':'] <:+: text)
    (found : value? ((text.splitOn ',').filterMap (cutAt? ['='])) name = some value) :
    IsValue value := by
  rcases List.lookup_eq_some_iff.mp found with ⟨front, back, split, -⟩
  have listed : (name.toList, value) ∈ (text.splitOn ',').filterMap (cutAt? ['=']) := by
    rw [← mem_reverse, split]
    simp
  rcases List.mem_filterMap.mp listed with ⟨piece, listed, cut⟩
  rcases piece_of_mem_splitOn listed with ⟨commas, inside⟩
  apply IsValue.of_infix ⟨commas, fun pair => colons (pair.trans inside)⟩
  rw [eq_append_of_cutAt? cut]
  exact (suffix_append _ _).isInfix

theorem isValue_of_read? {text : List Char} {mark : Mark} (found : read? text = some mark) :
    IsValue mark.path.toList ∧ IsValue mark.title.toList := by
  rw [read?.eq_def] at found
  split at found
  · next text =>
      simp only [Option.bind_eq_bind, Option.bind_eq_some_iff, ofProperties?, Option.pure_def,
        Option.some.injEq] at found
      rcases found with ⟨⟨level, text⟩, -, ⟨list, data⟩, cut, severity, -, path, path_found, -, -, -,
        -, title, title_found, rfl⟩
      have colons := not_infix_of_cutAt? (by simp) cut
      rw [String.toList_ofList, String.toList_ofList]
      exact ⟨isValue_of_value? colons path_found, isValue_of_value? colons title_found⟩
  · cases found

/-- A colon at the end of a title is read with the two that follow it, and goes to the message. -/
theorem command_append_colon (severity : Severity) (path : List Char) (line column : Nat)
    (title data : List Char) :
    command severity path line column (title ++ [':']) data =
      command severity path line column title (':' :: data) := by
  rcases exists_list_eq path line column with ⟨front, list_eq⟩
  simp [command, list_eq]

theorem title_end_of_read? {mark : Mark} (found : read? mark.render.toList = some mark) :
    mark.title.toList.getLast? ≠ some ':' := by
  intro last
  rcases List.getLast?_eq_some_iff.mp last with ⟨title, title_eq⟩
  rcases isValue_of_read? found with ⟨path_value, title_value⟩
  have shorter_value : IsValue title := by
    apply title_value.of_infix
    rw [title_eq]
    exact (prefix_append _ _).isInfix
  have shorter_end : title.getLast? ≠ some ':' := by
    intro last
    rcases List.getLast?_eq_some_iff.mp last with ⟨front, rfl⟩
    apply title_value.colons
    rw [title_eq]
    exact ⟨front, [], by simp⟩
  rw [toList_render, title_eq, command_append_colon,
    read?_command _ _ _ _ path_value shorter_value shorter_end, Option.some.injEq] at found
  have same := congrArg (fun mark => mark.title.toList.length) found
  simp [title_eq] at same

/-! ## Lines -/

theorem isUnbroken_escape (message : List Char) : IsUnbroken (message.flatMap escape) := by
  intro c written
  rcases List.mem_flatMap.mp written with ⟨d, -, written⟩
  exact not_break_of_mem_escape written

theorem isUnbroken_render_iff (mark : Mark) :
    IsUnbroken mark.render.toList ↔
      IsUnbroken mark.path.toList ∧ IsUnbroken mark.title.toList := by
  have level : IsUnbroken mark.severity.toName.toList := by
    cases mark.severity <;> decide
  have names : IsUnbroken "file".toList ∧ IsUnbroken "line".toList ∧ IsUnbroken "col".toList ∧
      IsUnbroken "title".toList := by
    decide
  rw [toList_render, command, list_eq]
  simp only [field, isUnbroken_append, isUnbroken_cons, isUnbroken_nil, names, level,
    isUnbroken_toString, isUnbroken_escape]
  simp

/-- A mark is written in one line and read back from it as it was, whatever its place and its
message, if and only if there is no comma, no pair of colons and no end of a line in its path and
in its title, and the title does not end with a colon. -/
theorem marks_read_back_iff (mark : Mark) :
    (IsUnbroken mark.render.toList ∧ read? mark.render.toList = some mark) ↔
      (∀ text ∈ [mark.path.toList, mark.title.toList], IsUnbroken text ∧ IsValue text) ∧
        mark.title.toList.getLast? ≠ some ':' := by
  rw [isUnbroken_render_iff, forall_mem_cons, forall_mem_singleton]
  constructor
  · rintro ⟨⟨path_line, title_line⟩, found⟩
    rcases isValue_of_read? found with ⟨path_value, title_value⟩
    exact ⟨⟨⟨path_line, path_value⟩, title_line, title_value⟩, title_end_of_read? found⟩
  · rintro ⟨⟨⟨path_line, path_value⟩, title_line, title_value⟩, title_end⟩
    refine ⟨⟨path_line, title_line⟩, ?_⟩
    rw [toList_render, read?_command _ _ _ _ path_value title_value title_end,
      decode_flatMap_escape]
    simp only [String.ofList_toList]

/-- A path with a comma is cut off there. A longer one makes a mark of another place: the same
line stands for two marks, so that no reader can tell them apart. -/
theorem comma_in_path_not_read_back :
    read? (render ⟨.error, "a,b.php", 1, 2, "C", "m"⟩).toList =
        some ⟨.error, "a", 1, 2, "C", "m"⟩ ∧
      render ⟨.error, "a,line=1,col=2,title=C::m", 3, 4, "D", "n"⟩ =
        render ⟨.error, "a", 1, 2, "C", "m,line=3,col=4,title=D::n"⟩ := by
  constructor
  · decide +kernel
  · decide +kernel

end PhpStyle.Mark
