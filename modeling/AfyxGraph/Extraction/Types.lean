import Mathlib.Data.List.Basic

/-! # Extraction results

The records that pass between extraction, the bulk index and the store. Of a
node and of an edge only what these read is kept; positions inside a line,
documentation and modifiers are carried by the program and looked at by none of
the modelled functions.
-/

namespace AfyxGraph.Extraction

inductive NodeKind where
  | file | module | «class» | struct | interface | trait | protocol | function | method | property
  | field | variable | constant | enum | enumMember | typeAlias | namespace | parameter | import
  | export | route | component | union
  deriving DecidableEq, Repr

inductive EdgeKind where
  | contains | calls | imports | exports | extends | implements | references | typeOf | returns
  | instantiates | overrides | decorates | navigates
  deriving DecidableEq, Repr

inductive Language where
  | typescript | javascript | tsx | jsx | arkts | python | go | rust | java | c | cpp | csharp
  | razor | php | ruby | swift | kotlin | dart | svelte | vue | astro | liquid | pascal | scala
  | lua | luau | objc | r | solidity | nix | yaml | twig | xml | properties | cfml | cfscript
  | cfquery | cobol | vbnet | erlang | terraform | unknown
  deriving DecidableEq, Repr

/-- Languages tracked at file level only: no symbols are expected of them. -/
def isFileLevelOnlyLanguage : Language → Bool
  | .yaml | .twig | .properties => true
  | _ => false

structure Node where
  id : String
  kind : NodeKind
  name : String
  qualifiedName : String
  filePath : String
  language : Language
  startLine : Nat
  deriving DecidableEq, Repr

/-- The two stamps a resolved edge carries of the reference it came from; a
value that is not a string is absent here, and `rest` is all other metadata. -/
structure EdgeMetadata where
  refName : Option String
  refKind : Option String
  rest : String
  deriving DecidableEq, Repr

structure Edge where
  source : String
  target : String
  kind : EdgeKind
  metadata : Option EdgeMetadata
  line : Option Nat
  column : Option Nat
  provenance : Option String
  deriving DecidableEq, Repr

structure UnresolvedReference where
  fromNodeId : String
  referenceName : String
  referenceKind : String
  line : Nat
  column : Nat
  filePath : Option String
  language : Option Language
  deriving DecidableEq, Repr

inductive Severity where
  | error
  | warning
  deriving DecidableEq, Repr

structure ExtractionError where
  message : String
  filePath : Option String
  severity : Severity
  code : Option String
  deriving DecidableEq, Repr

/-- `kernelCounts` are the table sizes of a result whose tables are still encoded. -/
structure ExtractionResult where
  nodes : List Node
  edges : List Edge
  unresolvedReferences : List UnresolvedReference
  errors : List ExtractionError
  kernelCounts : Option (Nat × Nat) := none
  deriving DecidableEq, Repr

namespace ExtractionResult

def nodeCount (r : ExtractionResult) : Nat := (r.kernelCounts.map Prod.fst).getD r.nodes.length

def edgeCount (r : ExtractionResult) : Nat := (r.kernelCounts.map Prod.snd).getD r.edges.length

/-- A result that holds nothing but one error. -/
def ofError (error : ExtractionError) : ExtractionResult where
  nodes := []
  edges := []
  unresolvedReferences := []
  errors := [error]

@[simp] theorem nodeCount_ofError (error : ExtractionError) : (ofError error).nodeCount = 0 := rfl

end ExtractionResult

end AfyxGraph.Extraction
