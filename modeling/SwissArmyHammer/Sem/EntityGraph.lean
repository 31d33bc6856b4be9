import SwissArmyHammer.Common.IndexMap
import SwissArmyHammer.Text.Lines
import SwissArmyHammer.Text.Search

/-! The names that the text of an entity refers to, and how it refers to them. -/

namespace SwissArmyHammer.Sem

open Text

/-- `char::is_alphabetic`, `char::is_lowercase` and `char::is_alphanumeric`. -/
structure CharTables where
  isAlphabetic : Char → Bool
  isLowercase : Char → Bool
  isAlphanumeric : Char → Bool

inductive RefType where
  | calls
  | typeRef
  | imports
  deriving DecidableEq

def keywords : List String :=
  ["if", "else", "for", "while", "do", "switch", "case", "break", "continue", "return", "try",
    "catch", "finally", "throw", "new", "delete", "typeof", "instanceof", "in", "of", "true",
    "false", "null", "undefined", "void", "this", "super", "class", "extends", "implements",
    "interface", "enum", "const", "let", "var", "function", "async", "await", "yield", "import",
    "export", "default", "from", "as", "static", "public", "private", "protected", "abstract",
    "final", "override", "fn", "pub", "mod", "use", "struct", "impl", "trait", "where", "type",
    "self", "Self", "mut", "ref", "match", "loop", "move", "unsafe", "extern", "crate", "dyn",
    "def", "elif", "except", "raise", "with", "pass", "lambda", "nonlocal", "global", "assert",
    "True", "False", "and", "or", "not", "is", "func", "package", "range", "select", "chan", "go",
    "defer", "map", "make", "append", "len", "cap", "auto", "register", "volatile", "sizeof",
    "typedef", "template", "typename", "namespace", "virtual", "inline", "constexpr", "nullptr",
    "noexcept", "explicit", "friend", "operator", "using", "cout", "endl", "cerr", "cin",
    "printf", "scanf", "malloc", "free", "NULL", "include", "ifdef", "ifndef", "endif", "define",
    "pragma", "end", "then", "elsif", "unless", "until", "begin", "rescue", "ensure", "when",
    "require", "attr_accessor", "attr_reader", "attr_writer", "puts", "nil", "module", "defined",
    "internal", "sealed", "readonly", "partial", "delegate", "event", "params", "out", "object",
    "decimal", "sbyte", "ushort", "uint", "ulong", "nint", "nuint", "dynamic", "get", "set",
    "value", "init", "record", "string", "number", "boolean", "int", "float", "double", "bool",
    "char", "byte", "i8", "i16", "i32", "i64", "u8", "u16", "u32", "u64", "f32", "f64", "usize",
    "isize", "str", "String", "Vec", "Option", "Result", "Box", "Arc", "Rc", "HashMap", "HashSet",
    "Some", "Ok", "Err"]

def isKeyword (word : List Char) : Bool := String.ofList word ∈ keywords

def commonLocalNames : List String :=
  ["result", "results", "data", "config", "value", "values", "item", "items", "input", "output",
    "args", "opts", "name", "path", "file", "line", "count", "index", "temp", "prev", "next",
    "curr", "current", "node", "left", "right", "root", "head", "tail", "body", "text", "content",
    "source", "target", "entry", "error", "errors", "message", "response", "request", "context",
    "state", "props", "event", "handler", "callback", "options", "params", "query", "list",
    "base", "info", "meta", "kind", "mode", "flag", "size", "length", "width", "height", "start",
    "stop", "begin", "done", "found", "status", "code", "test"]

def isCommonLocalName (word : List Char) : Bool := String.ofList word ∈ commonLocalNames

def byteLen (word : List Char) : Nat := (word.flatMap String.utf8EncodeChar).length

section

variable (T : CharTables)

def startsWith (test : Char → Bool) (word : List Char) : Bool := (word.head?.map test).getD false

def isReference (ownName word : List Char) : Bool :=
  if word = [] || word = ownName then false
  else if isKeyword word || byteLen word < 2 then false
  else if startsWith T.isLowercase word && byteLen word < 3 then false
  else if !startsWith (fun c => T.isAlphabetic c || c = '_') word then false
  else !isCommonLocalName word

def words (content : List Char) : List (List Char) :=
  content.splitOnP fun c => !T.isAlphanumeric c && c ≠ '_'

def extractReferencesFromContent (content ownName : List Char) : List (List Char) :=
  ((words T content).filter (isReference T ownName)).eraseDups

end

def isWordBoundary : Option Char → Bool
  | none => true
  | some prev => !prev.isAlphanum && prev ≠ '_'

/-- Whether the name stands before a parenthesis, with a word boundary before it. After a match
that is no call the search goes on one byte further, and panics where that is inside the first
character of the name. -/
def findsCall (refName : List Char) : Option Char → List Char → Option Bool
  | _, [] => some false
  | prev, c :: rest =>
    if refName.isPrefixOf (c :: rest) then
      if ((c :: rest).drop refName.length).head? = some '(' && isWordBoundary prev then some true
      else if c.utf8Size = 1 then findsCall refName (some c) rest
      else none
    else findsCall refName (some c) rest

def isImportLine (refName line : List Char) : Bool :=
  (["import ", "use ", "from ", "require("].any fun start =>
    start.toList.isPrefixOf (trim line)) && (findFirst refName (trim line)).isSome

def inferRefType (content refName : List Char) : Option RefType :=
  (findsCall refName none content).map fun call =>
    if call then .calls
    else if (lines content).any (isImportLine refName) then .imports
    else .typeRef

theorem ne_ownName_of_mem {T : CharTables} {content ownName word : List Char}
    (h : word ∈ extractReferencesFromContent T content ownName) : word ≠ ownName := by
  have hmem := (List.mem_filter.mp (List.mem_eraseDups.mp h)).2
  rintro rfl
  simp [isReference] at hmem

end SwissArmyHammer.Sem

/-! The entity graph: which entity of a project refers to which, built from the files or brought
up to date from a list of changed files. -/

namespace SwissArmyHammer.Sem

structure SemanticEntity where
  id : String
  filePath : String
  entityType : String
  name : List Char
  content : List Char
  startLine : Nat
  endLine : Nat
  deriving DecidableEq

structure EntityInfo where
  id : String
  name : List Char
  entityType : String
  filePath : String
  startLine : Nat
  endLine : Nat
  deriving DecidableEq

structure EntityRef where
  fromEntity : String
  toEntity : String
  refType : RefType
  deriving DecidableEq

structure EntityGraph where
  entities : IndexMap String EntityInfo
  edges : List EntityRef
  dependents : IndexMap String (List String)
  dependencies : IndexMap String (List String)

/-- `get_plugin`, and `extract_entities` of the plugin, as functions of the path. -/
abbrev ParserRegistry := String → Option (List Char → List SemanticEntity)

/-- `read_to_string(root.join(path))`. -/
abbrev Disk := String → Option (List Char)

structure HashOrder where
  values : List EntityInfo → List EntityInfo
  perm : ∀ infos, (values infos).Perm infos

inductive FileStatus where
  | added
  | modified
  | deleted
  | renamed
  deriving DecidableEq

structure FileChange where
  filePath : String
  status : FileStatus
  oldFilePath : Option String
  afterContent : Option (List Char)

abbrev SymbolTable := IndexMap (List Char) (List String)

def SemanticEntity.info (e : SemanticEntity) : EntityInfo :=
  ⟨e.id, e.name, e.entityType, e.filePath, e.startLine, e.endLine⟩

section

variable (T : CharTables)

def findTarget (entities : IndexMap String EntityInfo) (entity : SemanticEntity)
    (targetIds : List String) : Option String :=
  (targetIds.find? fun id => id ≠ entity.id &&
      (entities.get? id).any fun e => e.filePath = entity.filePath).or
    (targetIds.find? fun id => id ≠ entity.id)

def resolveRef (entities : IndexMap String EntityInfo) (table : SymbolTable)
    (entity : SemanticEntity) (refName : List Char) : Option (Option EntityRef) :=
  match (table.get? refName).bind (findTarget entities entity) with
  | none => some none
  | some target =>
    (inferRefType entity.content refName).map fun refType => some ⟨entity.id, target, refType⟩

def resolveRefs (entities : IndexMap String EntityInfo) (table : SymbolTable)
    (entity : SemanticEntity) : Option (List EntityRef) :=
  ((extractReferencesFromContent T entity.content entity.name).mapM
    (resolveRef entities table entity)).map List.reduceOption

end

def EntityGraph.pushEdge (g : EntityGraph) (e : EntityRef) : EntityGraph where
  entities := g.entities
  edges := g.edges ++ [e]
  dependents := g.dependents.push e.toEntity e.fromEntity
  dependencies := g.dependencies.push e.fromEntity e.toEntity

def insertEntity (entities : IndexMap String EntityInfo) (e : SemanticEntity) :
    IndexMap String EntityInfo := entities.insert e.id e.info

def extractFileEntities (registry : ParserRegistry) (disk : Disk) (filePath : String)
    (content : Option (List Char)) : Option (List SemanticEntity) :=
  (registry filePath).bind fun extract => (content.or (disk filePath)).map extract

def allEntities (registry : ParserRegistry) (disk : Disk) (filePaths : List String) :
    List SemanticEntity :=
  (filePaths.filterMap fun path => extractFileEntities registry disk path none).flatten

def EntityGraph.build (T : CharTables) (registry : ParserRegistry) (disk : Disk)
    (filePaths : List String) : Option EntityGraph :=
  let all := allEntities registry disk filePaths
  let table : SymbolTable := all.foldl (fun table e => table.push e.name e.id) .empty
  let entities := all.foldl insertEntity .empty
  (all.mapM (resolveRefs T entities table)).map fun resolved =>
    resolved.flatten.foldl EntityGraph.pushEdge ⟨entities, [], .empty, .empty⟩

def dropKey (m other : IndexMap String (List String)) (id : String) :
    IndexMap String (List String) × IndexMap String (List String) :=
  match m.get? id with
  | some deps => (m.shiftRemove id, other.pullFrom deps id)
  | none => (m, other)

def dropId (maps : IndexMap String (List String) × IndexMap String (List String)) (id : String) :
    IndexMap String (List String) × IndexMap String (List String) :=
  let (dependencies, dependents) := dropKey maps.2 maps.1 id
  dropKey dependents dependencies id

def EntityGraph.idsOfFile (order : HashOrder) (g : EntityGraph) (filePath : String) :
    List String :=
  ((order.values (g.entities.entries.map Prod.snd)).filter (·.filePath = filePath)).map (·.id)

def EntityGraph.removeEntitiesForFile (order : HashOrder) (g : EntityGraph) (filePath : String) :
    EntityGraph :=
  let ids := g.idsOfFile order filePath
  let maps := ids.foldl dropId (g.dependents, g.dependencies)
  { entities := ids.foldl IndexMap.shiftRemove g.entities
    edges := g.edges.filter fun e => e.fromEntity ∉ ids && e.toEntity ∉ ids
    dependents := maps.1
    dependencies := maps.2 }

def EntityGraph.buildSymbolTable (order : HashOrder) (g : EntityGraph) : SymbolTable :=
  (order.values (g.entities.entries.map Prod.snd)).foldl (fun table e => table.push e.name e.id)
    .empty

def EntityGraph.resolveEntityReferences (T : CharTables) (table : SymbolTable) (g : EntityGraph)
    (entity : SemanticEntity) : Option EntityGraph :=
  (resolveRefs T g.entities table entity).map fun refs => refs.foldl EntityGraph.pushEdge g

section

variable (registry : ParserRegistry) (disk : Disk)

def newEntities (change : FileChange) : List SemanticEntity :=
  (extractFileEntities registry disk change.filePath change.afterContent).getD []

def applyChange (order : HashOrder) (s : EntityGraph × List SemanticEntity)
    (change : FileChange) : EntityGraph × List SemanticEntity :=
  match change.status with
  | .deleted => (s.1.removeEntitiesForFile order change.filePath, s.2)
  | .renamed =>
    let g := match change.oldFilePath with
      | some oldPath => s.1.removeEntitiesForFile order oldPath
      | none => s.1
    (g, s.2 ++ newEntities registry disk change)
  | .added | .modified =>
    (s.1.removeEntitiesForFile order change.filePath, s.2 ++ newEntities registry disk change)

def EntityGraph.insertEntities (g : EntityGraph) (new : List SemanticEntity) : EntityGraph :=
  { g with entities := new.foldl insertEntity g.entities }

def EntityGraph.updateFromChanges (T : CharTables) (order : HashOrder) (g : EntityGraph)
    (changes : List FileChange) : Option EntityGraph :=
  let (removed, new) := changes.foldl (applyChange registry disk order) (g, [])
  let inserted := removed.insertEntities new
  new.foldlM (EntityGraph.resolveEntityReferences T (inserted.buildSymbolTable order)) inserted

end

/-! Two small files for the examples: a file declares one entity, named by its first word. -/

def asciiTables : CharTables := ⟨Char.isAlpha, Char.isLower, Char.isAlphanum⟩

def firstWord : ParserRegistry := fun path => some fun content =>
  [⟨path, path, "function", content.takeWhile (· ≠ ' '), content, 1, 1⟩]

def callDisk : Disk := fun path =>
  if path = "a.rs" then some ['r', 'u', 'n', ' ', 's', 't', 'e', 'p', '(', ')']
  else if path = "b.rs" then some ['s', 't', 'e', 'p', ' ', '1']
  else none

def callPaths : List String := ["a.rs", "b.rs"]

def listOrder : HashOrder := ⟨fun infos => infos, fun _ => .refl _⟩

def callGraph : EntityGraph :=
  (EntityGraph.build asciiTables firstWord callDisk callPaths).getD
    ⟨.empty, [], .empty, .empty⟩

theorem build_callGraph :
    EntityGraph.build asciiTables firstWord callDisk callPaths = some callGraph := rfl

end SwissArmyHammer.Sem
