import AfyxGraph.Core.TextParts
import AfyxGraph.Extraction.Types
import AfyxGraph.Runtime.Utf16

/-! # Field-qualified search queries

A raw query is read as filters and free text. A field that is unknown, has a value that is no
kind or language, or has no value is free text.
-/

namespace AfyxGraph.Search

open AfyxGraph.Core AfyxGraph.Extraction Text

def NODE_KINDS : List (String × NodeKind) :=
  [("file", .file), ("module", .module), ("class", .class), ("struct", .struct),
    ("interface", .interface), ("trait", .trait), ("protocol", .protocol),
    ("function", .function), ("method", .method), ("property", .property), ("field", .field),
    ("variable", .variable), ("constant", .constant), ("enum", .enum),
    ("enum_member", .enumMember), ("type_alias", .typeAlias), ("namespace", .namespace),
    ("parameter", .parameter), ("import", .import), ("export", .export), ("route", .route),
    ("component", .component), ("union", .union)]

def LANGUAGES : List (String × Language) :=
  [("typescript", .typescript), ("javascript", .javascript), ("tsx", .tsx), ("jsx", .jsx),
    ("arkts", .arkts), ("python", .python), ("go", .go), ("rust", .rust), ("java", .java),
    ("c", .c), ("cpp", .cpp), ("csharp", .csharp), ("razor", .razor), ("php", .php),
    ("ruby", .ruby), ("swift", .swift), ("kotlin", .kotlin), ("dart", .dart),
    ("svelte", .svelte), ("vue", .vue), ("astro", .astro), ("liquid", .liquid),
    ("pascal", .pascal), ("scala", .scala), ("lua", .lua), ("luau", .luau), ("objc", .objc),
    ("r", .r), ("solidity", .solidity), ("nix", .nix), ("yaml", .yaml), ("twig", .twig),
    ("xml", .xml), ("properties", .properties), ("cfml", .cfml), ("cfscript", .cfscript),
    ("cfquery", .cfquery), ("cobol", .cobol), ("vbnet", .vbnet), ("erlang", .erlang),
    ("terraform", .terraform), ("unknown", .unknown)]

/-- The value a table has for a word. -/
def named {α : Type} (table : List (String × α)) (word : Text) : Option α :=
  (table.find? fun entry => entry.1.toList = word).map Prod.snd

/-- `text.length` -/
def length16 (t : Text) : Nat := (Runtime.codeUnits t).length

/-- `text.split(/\s+/)` without empty parts -/
def words (t : Text) : List Text := (t.splitOnP isBlank).filter (· ≠ [])

structure ParsedQuery where
  text : Text := []
  kinds : List NodeKind := []
  languages : List Language := []
  pathFilters : List Text := []
  nameFilters : List Text := []
  deriving DecidableEq, Repr

/-- Split at blanks except while a double-quoted span is open. `token` is the one that has
been begun. -/
def queryTokens (token : Option Text) (quoted : Bool) : Text → List Text
  | [] => token.toList
  | c :: rest =>
      let quoted := if c = '"' then !quoted else quoted
      if isBlank c && !quoted then token.toList ++ queryTokens none quoted rest
      else queryTokens (some (token.getD [] ++ [c])) quoted rest

/-- Quotes around the whole value are taken off. -/
def fieldValue (value : Text) : Text :=
  if 2 ≤ value.length && value.head? = some '"' && value.getLast? = some '"' then
    (value.drop 1).dropLast
  else value

variable (toLowerCase : Text → Text)

def consumeField (field value : Text) (parsed : ParsedQuery) : Option ParsedQuery :=
  if field = "kind".toList then
    (named NODE_KINDS value).map fun kind => { parsed with kinds := parsed.kinds ++ [kind] }
  else if field = "lang".toList || field = "language".toList then
    (named LANGUAGES (toLowerCase value)).map fun language =>
      { parsed with languages := parsed.languages ++ [language] }
  else if field = "path".toList then
    some { parsed with pathFilters := parsed.pathFilters ++ [value] }
  else if field = "name".toList then
    some { parsed with nameFilters := parsed.nameFilters ++ [value] }
  else none

/-- What a token is as a field, if it is one. -/
def field? (token : Text) (parsed : ParsedQuery) : Option ParsedQuery :=
  match cut ':' token with
  | none => none
  | some (field, rest) =>
      if field = [] || rest = [] || fieldValue rest = [] then none
      else consumeField toLowerCase (toLowerCase field) (fieldValue rest) parsed

/-- The fields, and the tokens that are free text. -/
def readTokens (parsed : ParsedQuery) : List Text → ParsedQuery × List Text
  | [] => (parsed, [])
  | token :: rest =>
      match field? toLowerCase token parsed with
      | some parsed => readTokens parsed rest
      | none => ((readTokens parsed rest).1, token :: (readTokens parsed rest).2)

def parseQuery (raw : Text) : ParsedQuery :=
  let read := readTokens toLowerCase {} (queryTokens none false raw)
  { read.1 with text := trim (joinWith ' ' read.2) }

theorem parseQuery_nil : parseQuery toLowerCase [] = {} := rfl

example : parseQuery id "kind:function lang:go  \"load data\" name:x ab:c".toList =
    { text := "\"load data\" ab:c".toList
      kinds := [.function]
      languages := [.go]
      nameFilters := [['x']] } := by decide

end AfyxGraph.Search
