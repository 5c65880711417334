import AfyxGraph.Extraction.Types
import Mathlib.Algebra.Ring.Int.Defs

/-! # What a bulk index counts

Counters and errors of one `indexAll` run. `ledger` is not part of the program:
it repeats every change of a file counter together with the file it was made
for, so that "each file is counted once" can be said.
-/

namespace AfyxGraph.Bulk

open Extraction

def MAX_FILE_SIZE : Nat := 1024 * 1024

inductive Category where
  | indexed
  | skipped
  | errored
  deriving DecidableEq, Repr

/-- `path` was counted `change` times more in `category`. -/
structure LedgerEntry where
  path : String
  category : Category
  change : Int
  deriving DecidableEq, Repr

/-- An error object; `id` is its identity. -/
structure ErrorEntry where
  id : Nat
  error : ExtractionError
  deriving DecidableEq, Repr

structure Tally where
  processed : Nat := 0
  filesIndexed : Int := 0
  filesSkipped : Int := 0
  filesErrored : Int := 0
  totalNodes : Nat := 0
  totalEdges : Nat := 0
  errors : List ErrorEntry := []
  nextErrorId : Nat := 0
  ledger : List LedgerEntry := []
  deriving DecidableEq, Repr

namespace Tally

/-- One file counted. -/
def count (t : Tally) (path : String) : Category → Tally
  | .indexed =>
      { t with filesIndexed := t.filesIndexed + 1, ledger := t.ledger ++ [⟨path, .indexed, 1⟩] }
  | .skipped =>
      { t with filesSkipped := t.filesSkipped + 1, ledger := t.ledger ++ [⟨path, .skipped, 1⟩] }
  | .errored =>
      { t with filesErrored := t.filesErrored + 1, ledger := t.ledger ++ [⟨path, .errored, 1⟩] }

def pushError (t : Tally) (error : ExtractionError) : Tally :=
  { t with errors := t.errors ++ [⟨t.nextErrorId, error⟩], nextErrorId := t.nextErrorId + 1 }

/-- `errors.push(...errors)`. -/
def pushErrors (t : Tally) (errors : List ExtractionError) : Tally := errors.foldl pushError t

/-- An error that names no file is given the path of the file it came from. -/
def fillPath (path : String) (error : ExtractionError) : ExtractionError :=
  if error.filePath.getD "" = "" then { error with filePath := some path } else error

/-- How `storeResult` counts a stored file. -/
def categoryOf (language : Language) (result : ExtractionResult) : Category :=
  if 0 < result.nodeCount then .indexed
  else if result.errors.any (fun e => e.severity == .error) then .errored
  else if isFileLevelOnlyLanguage language then .indexed
  else .skipped

/-- `storeResult` once the store has accepted the file. -/
def stored (t : Tally) (path : String) (language : Language) (result : ExtractionResult) : Tally :=
  let t := (t.pushErrors (result.errors.map (fillPath path))).count path (categoryOf language result)
  if 0 < result.nodeCount then
    { t with
      totalNodes := t.totalNodes + result.nodeCount
      totalEdges := t.totalEdges + result.edgeCount }
  else t

/-- The branch of the dispatch loop for a file that could not be read. -/
def readFailed (t : Tally) (path message : String) : Tally :=
  let t := { t with processed := t.processed + 1 }
  (t.count path .errored).pushError
    ⟨"Failed to read file: " ++ message, some path, .error, some "read_error"⟩

/-- The counter of a category. -/
def counter (t : Tally) : Category → Int
  | .indexed => t.filesIndexed
  | .skipped => t.filesSkipped
  | .errored => t.filesErrored

/-- What the ledger says of a category. -/
def total (t : Tally) (category : Category) : Int :=
  ((t.ledger.filter fun e => e.category = category).map (·.change)).sum

/-- What the ledger says of one path and one category. -/
def net (t : Tally) (path : String) (category : Category) : Int :=
  ((t.ledger.filter fun e => e.path = path ∧ e.category = category).map (·.change)).sum

/-- The counters are those of the ledger. -/
def Balanced (t : Tally) : Prop := ∀ category, t.counter category = t.total category

/-! ## What the operations change -/

theorem pushErrors_frame (t : Tally) (errors : List ExtractionError) :
    (t.pushErrors errors).ledger = t.ledger ∧
      (∀ category, (t.pushErrors errors).counter category = t.counter category) ∧
      (t.pushErrors errors).errors.map (·.error) = t.errors.map (·.error) ++ errors := by
  unfold pushErrors
  induction errors generalizing t with
  | nil => simp
  | cons error errors ih =>
      obtain ⟨hledger, hcounter, herrors⟩ := ih (t.pushError error)
      refine ⟨hledger, fun category => (hcounter category).trans ?_, ?_⟩
      · cases category <;> rfl
      · rw [List.foldl_cons, herrors]
        simp [pushError]

theorem count_frame (t : Tally) (path : String) (category : Category) :
    (t.count path category).ledger = t.ledger ++ [⟨path, category, 1⟩] ∧
      (t.count path category).errors = t.errors ∧
      ∀ other, (t.count path category).counter other =
        t.counter other + if category = other then 1 else 0 := by
  cases category <;> refine ⟨rfl, rfl, fun other => ?_⟩ <;> cases other <;> simp [count, counter]

theorem stored_frame (t : Tally) (path : String) (language : Language) (r : ExtractionResult) :
    (t.stored path language r).ledger = t.ledger ++ [⟨path, categoryOf language r, 1⟩] ∧
      (t.stored path language r).errors.map (·.error) =
        t.errors.map (·.error) ++ r.errors.map (fillPath path) ∧
      ∀ other, (t.stored path language r).counter other =
        t.counter other + if categoryOf language r = other then 1 else 0 := by
  obtain ⟨hledger, hcounter, herrors⟩ := t.pushErrors_frame (r.errors.map (fillPath path))
  obtain ⟨hledger', herrors', hcounter'⟩ :=
    (t.pushErrors (r.errors.map (fillPath path))).count_frame path (categoryOf language r)
  have hstored : (t.stored path language r).ledger =
        ((t.pushErrors (r.errors.map (fillPath path))).count path (categoryOf language r)).ledger ∧
      (t.stored path language r).errors =
        ((t.pushErrors (r.errors.map (fillPath path))).count path (categoryOf language r)).errors ∧
      ∀ other, (t.stored path language r).counter other =
        ((t.pushErrors (r.errors.map (fillPath path))).count path
          (categoryOf language r)).counter other := by
    unfold stored
    dsimp only
    split
    · exact ⟨rfl, rfl, fun other => by cases other <;> rfl⟩
    · exact ⟨rfl, rfl, fun _ => rfl⟩
  refine ⟨?_, ?_, fun other => ?_⟩
  · rw [hstored.1, hledger', hledger]
  · rw [hstored.2.1, herrors', herrors]
  · rw [hstored.2.2, hcounter', hcounter]

theorem readFailed_frame (t : Tally) (path message : String) :
    (t.readFailed path message).ledger = t.ledger ++ [⟨path, .errored, 1⟩] ∧
      (t.readFailed path message).errors.map (·.error) = t.errors.map (·.error) ++
        [⟨"Failed to read file: " ++ message, some path, .error, some "read_error"⟩] ∧
      ∀ other, (t.readFailed path message).counter other =
        t.counter other + if Category.errored = other then 1 else 0 := by
  refine ⟨rfl, by simp [readFailed, pushError, count], fun other => ?_⟩
  cases other <;> simp [readFailed, pushError, count, counter]

/-- Counting once in the ledger and in the counters keeps them balanced. -/
theorem Balanced.of_counted {t t' : Tally} (h : t.Balanced) {path : String} {category : Category}
    (hledger : t'.ledger = t.ledger ++ [⟨path, category, 1⟩])
    (hcounter : ∀ other, t'.counter other = t.counter other + if category = other then 1 else 0) :
    t'.Balanced := by
  intro other
  rw [hcounter, h other, total, total, hledger]
  by_cases hc : category = other <;> simp [hc]

end Tally

end AfyxGraph.Bulk
