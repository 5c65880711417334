import AfyxGraph.Db.SearchCandidateReader
import AfyxGraph.Search.EditDistance
import Mathlib.Data.List.Infix

/-! # Name search

`SearchReader.searchNodes`: full text first, substrings next, near spellings last, each only
where the one before found nothing; then the names that are terms of the query, the ranking,
the limit, and the filters on paths and names.
-/

namespace AfyxGraph.Db.Search

open AfyxGraph.Core AfyxGraph.Extraction AfyxGraph.Search

structure SearchOptions where
  kinds : Option (List NodeKind) := none
  languages : Option (List Language) := none
  limit : Option Nat := none
  offset : Option Nat := none
  deriving DecidableEq, Repr

namespace SearchOptions

variable (options : SearchOptions)

def limitOf : Nat := options.limit.getD 100

def offsetOf : Nat := options.offset.getD 0

end SearchOptions

/-- `toLowerCase` of the runtime, and what the ranking signals add to the score of a node under
a query: its kind, its path and its name. -/
structure Platform where
  toLowerCase : Text → Text
  bonus : Node → Text → Rat

/-- `text.includes(part)` -/
def includes (text part : Text) : Bool := part <:+: text

variable (platform : Platform) (index : SearchIndex)

/-- Both lists at once where the query names any. -/
def merged {α : Type} [DecidableEq α] (given : Option (List α)) (asked : List α) :
    Option (List α) :=
  if asked ≠ [] then some (given.getD [] ++ asked).dedup else given

def combinedFilters (parsed : ParsedQuery) (options : SearchOptions) : CandidateFilters where
  kinds := merged options.kinds parsed.kinds
  languages := merged options.languages parsed.languages

/-! ## Near spellings -/

/-- The rows of a name are added until there are enough. -/
def pushSpelled (limit : Nat) (score : Rat) (results : List SearchResult) :
    List Node → List SearchResult
  | [] => results
  | node :: nodes =>
      if node.id ∈ results.map (·.node.id) then pushSpelled limit score results nodes
      else if limit ≤ results.length + 1 then results ++ [⟨node, score⟩]
      else pushSpelled limit score (results ++ [⟨node, score⟩]) nodes

def collectSpelled (filters : CandidateFilters) (limit : Nat) (results : List SearchResult) :
    List (String × Nat) → List SearchResult
  | [] => results
  | (name, dist) :: candidates =>
      if limit ≤ results.length then results
      else
        collectSpelled filters limit (pushSpelled limit (1 / (1 + dist)) results
          (index.exactSpelling filters name 5)) candidates

def searchNodesFuzzy (text : Text) (filters : CandidateFilters) (limit : Nat) :
    List SearchResult :=
  let lowered := Runtime.codeUnits (platform.toLowerCase text)
  let maxDist := if lowered.length ≤ 4 then 1 else 2
  let candidates := (index.allNodeNames.map fun name =>
    (name, boundedEditDistance (Runtime.codeUnits (platform.toLowerCase name.toList)) lowered
      maxDist)).filter (·.2 ≤ maxDist)
  let capped := (candidates.mergeSort fun a b => a.2 ≤ b.2).take (max (limit * 2) 50)
  collectSpelled index filters limit [] capped

/-! ## Exact names -/

def pushExact (score : Rat) (results : List SearchResult) : List Node → List SearchResult
  | [] => results
  | node :: nodes =>
      if node.id ∈ results.map (·.node.id) then pushExact score results nodes
      else pushExact score (results ++ [⟨node, score⟩]) nodes

def maxScore (results : List SearchResult) : Rat :=
  match results with
  | [] => 0
  | r :: rest => rest.foldl (fun score r => max score r.score) r.score

/-- Whole-name matches of the terms of the raw query join the candidates. -/
def foldInExactNames (results : List SearchResult) (query : Text) (filters : CandidateFilters) :
    List SearchResult :=
  let terms := (words query).filter (2 ≤ length16 ·)
  terms.foldl (fun found term =>
    pushExact (maxScore results) found (index.exactTerm filters term 20)) results

/-! ## Ranking -/

def rescore (results : List SearchResult) (scoringQuery : Text) (limit : Nat) :
    List SearchResult :=
  let rescored := results.map fun r => { r with score := r.score + platform.bonus r.node scoringQuery }
  (rescored.mergeSort fun a b => b.score ≤ a.score).take limit

/-! ## `searchNodes` -/

def searchNodesFTS (text : Text) (filters : CandidateFilters) (limit offset : Nat) :
    List SearchResult :=
  index.prefixText filters text (max (limit * 5) 100) offset

/-- The first source that finds anything. -/
def candidates (text : Text) (filters : CandidateFilters) (limit offset : Nat) :
    List SearchResult :=
  let results :=
    if text = [] then index.all filters (limit * 5)
    else if index.ftsAvailable then searchNodesFTS index text filters limit offset
    else []
  let results :=
    if results.isEmpty && 2 ≤ length16 text then index.substringText filters text limit offset
    else results
  if results.isEmpty && 3 ≤ length16 text then searchNodesFuzzy platform index text filters limit
  else results

/-- Some filter is part of the text, when there are any. -/
def containsAny (filters : List Text) (text : String) : Bool :=
  filters.isEmpty || filters.any fun part =>
    includes (platform.toLowerCase text.toList) (platform.toLowerCase part)

def searchNodes (query : Text) (options : SearchOptions) : List SearchResult :=
  let parsed := parseQuery platform.toLowerCase query
  let filters := combinedFilters parsed options
  let results := candidates platform index parsed.text filters options.limitOf options.offsetOf
  let results :=
    if results ≠ [] ∧ query ≠ [] then foldInExactNames index results query filters else results
  let results :=
    if results ≠ [] ∧ (parsed.text ≠ [] ∨ query ≠ []) then
      rescore platform results (if parsed.text ≠ [] then parsed.text else query) options.limitOf
    else results
  let results := results.filter fun r => containsAny platform parsed.pathFilters r.node.filePath
  results.filter fun r => containsAny platform parsed.nameFilters r.node.name

end AfyxGraph.Db.Search
