import AfyxGraph.Db.NodeTable
import AfyxGraph.Search.Filters
import Mathlib.Algebra.Order.Ring.Rat

/-! # Candidates of a search

The statements of `SearchCandidateReader` over the stored rows. Rows that a statement leaves
unordered come in the order of the table. The full-text index is known by what it answers to
an expression: which rows match, and how they score.
-/

namespace AfyxGraph.Db.Search

open AfyxGraph.Core AfyxGraph.Extraction AfyxGraph.Search

/-! ## Functions of SQL -/

/-- `lower(text)` folds ASCII only. -/
def lower (t : Text) : Text := t.map Char.toLower

/-- `text LIKE pattern` -/
def like : (pattern text : Text) → Bool
  | [], t => t = []
  | c :: p, t =>
      if c = '%' then t.tails.any (like p)
      else
        match t with
        | [] => false
        | d :: rest => (c = '_' || c.toLower = d.toLower) && like p rest

/-! ## The stored graph -/

/-- `fts expression` is `none` when the statement throws, and says of each row otherwise
whether it matches, and its `bm25` score. -/
structure SearchIndex where
  table : NodeTable
  ftsAvailable : Bool
  fts : Text → Option (Node → Option Rat)

structure CandidateFilters where
  kinds : Option (List NodeKind)
  languages : Option (List Language)
  deriving DecidableEq, Repr

structure SearchResult where
  node : Node
  score : Rat

/-- An empty list does not filter. -/
def listed {α : Type} [DecidableEq α] (given : Option (List α)) (x : α) : Bool :=
  match given with
  | none => true
  | some xs => xs.isEmpty || x ∈ xs

def filterClause (filters : CandidateFilters) (node : Node) : Bool :=
  listed filters.kinds node.kind && listed filters.languages node.language

/-! ## The full-text expression -/

/-- `query.replace(/::/g, ' ')` -/
def spaceQualifiers : Text → Text
  | ':' :: ':' :: rest => ' ' :: spaceQualifiers rest
  | c :: rest => c :: spaceQualifiers rest
  | [] => []

/-- `/^(AND|OR|NOT|NEAR)$/i` -/
def isOperator (term : Text) : Bool :=
  term.map Char.toUpper ∈ ["AND".toList, "OR".toList, "NOT".toList, "NEAR".toList]

def isStripped (c : Char) : Bool := c ∈ ['\'', '"', '*', '(', ')', ':', '^']

/-- The terms that the expression joins. -/
def ftsTerms (query : Text) : List Text :=
  (words ((spaceQualifiers query).filter (!isStripped ·))).filter (!isOperator ·)

def ftsExpression (query : Text) : Text :=
  " OR ".toList.intercalate ((ftsTerms query).map fun term => '"' :: term ++ ['"', '*'])

namespace SearchIndex

variable (index : SearchIndex) (filters : CandidateFilters)

def all (limit : Nat) : List SearchResult :=
  (((index.table.rows.filter (filterClause filters)).mergeSort fun a b => a.name ≤ b.name).take
    limit).map fun node => ⟨node, 1⟩

def exactTerm (term : Text) (limit : Nat) : List Node :=
  (index.table.rows.filter fun node =>
    lower node.name.toList = lower term && filterClause filters node).take limit

def exactSpelling (name : String) (limit : Nat) : List Node :=
  (index.table.rows.filter fun node => node.name = name && filterClause filters node).take limit

def prefixText (query : Text) (limit offset : Nat) : List SearchResult :=
  let expression := ftsExpression query
  if expression = [] then []
  else
    match index.fts expression with
    | none => []
    | some bm25 =>
        let rows := (index.table.rows.filter fun node =>
          (bm25 node).isSome && filterClause filters node).map fun node =>
            SearchResult.mk node ((bm25 node).getD 0)
        (((rows.mergeSort fun a b => a.score ≤ b.score).drop offset).take limit).map fun r =>
          { r with score := |r.score| }

/-- The score of a row that `LIKE` has found. -/
def substringScore (query : Text) (node : Node) : Rat :=
  let contains := '%' :: query ++ ['%']
  if node.name.toList = query then 1
  else if like (query ++ ['%']) node.name.toList then 9 / 10
  else if like contains node.name.toList then 8 / 10
  else if like contains node.qualifiedName.toList then 7 / 10
  else 5 / 10

def substringText (query : Text) (limit offset : Nat) : List SearchResult :=
  let contains := '%' :: query ++ ['%']
  let rows := (index.table.rows.filter fun node =>
    (like contains node.name.toList || like contains node.qualifiedName.toList ||
      like (query ++ ['%']) node.name.toList) && filterClause filters node).map fun node =>
        SearchResult.mk node (substringScore query node)
  ((rows.mergeSort fun a b => b.score < a.score ||
    (a.score = b.score && a.node.name.length ≤ b.node.name.length)).drop offset).take limit

/-- `SELECT DISTINCT name` -/
def allNodeNames : List String := (index.table.rows.map (·.name)).dedup

end SearchIndex

end AfyxGraph.Db.Search
