import AfyxGraph.Core.Listing
import AfyxGraph.Scope.ScopeIgnore

/-! # The walk for included files

`collectIncludedFilesForRoot` walks the directories that the include patterns lead to and
collects the source files that the patterns match. A directory that is ignored is not gone into:
whatever lies below it is ignored as well.
-/

namespace AfyxGraph.Scope

open AfyxGraph.Core

/-! ## Paths -/

/-- A name that a directory can have an entry of. -/
def IsEntryName (name : Text) : Prop :=
  name ≠ [] ∧ '/' ∉ name ∧ name ≠ ['.'] ∧ name ≠ ['.', '.']

instance : DecidablePred IsEntryName := fun name =>
  inferInstanceAs (Decidable (name ≠ [] ∧ '/' ∉ name ∧ name ≠ ['.'] ∧ name ≠ ['.', '.']))

/-- `filePath.replace(/\\/g, '/')` -/
def normalizePath (t : Text) : Text := t.map fun c => if c = '\\' then '/' else c

/-- The path of an entry below the root, as it is looked at. -/
def relText (path : List Text) : Text := normalizePath (Text.join path)

/-- `path.join(rootDir, path)`, from the names of the root directory. -/
def joinNames (rootDir : List Text) (path : Text) : List Text :=
  path.segments.foldl (fun names s =>
    if s = [] ∨ s = ['.'] then names
    else if s = ['.', '.'] then names.dropLast
    else names ++ [s]) rootDir

/-! ## The project -/

def STATE_DIR_NAME : Text := ".afyx-graph".toList

structure IncludeProject where
  /-- The names that lead to the root directory. -/
  rootDir : List Text
  tree : Listing Text
  distinct : tree.Distinct
  named : tree.Named IsEntryName
  includePatterns : List Text
  excludePatterns : List Text
  /-- `afyxGraphDirName()` -/
  dataDirName : Text
  /-- `isSourceFile`, with the extension overrides of the project. -/
  isSourceFile : Text → Bool

/-- The matchers that a walk consults. -/
structure IncludeMatchers where
  includes : Matcher
  exclude : Option Matcher
  defaults : Matcher

namespace IncludeMatchers

variable (m : IncludeMatchers)

def excludes (rel : Text) : Bool := m.exclude.any (·.ignores rel)

/-- The directory is gone into. -/
def opens (rel : Text) : Bool := !m.defaults.ignores (rel ++ ['/']) && !m.excludes (rel ++ ['/'])

end IncludeMatchers

/-- The directories that were walked, and the files that were found, in order. -/
structure Collected where
  visited : List (List Text) := []
  out : List Text := []

namespace IncludeProject

variable (p : IncludeProject) (m : IncludeMatchers)

def isAfyxGraphDataDir (name : Text) : Bool :=
  name = STATE_DIR_NAME || name = p.dataDirName || (STATE_DIR_NAME ++ ['-']).isPrefixOf name

/-- An entry that no walk looks at. -/
def skips (name : Text) : Bool := name = ".git".toList || p.isAfyxGraphDataDir name

/-- The tests of a file. -/
def accepts (rel : Text) : Bool :=
  !m.defaults.ignores rel && m.includes.ignores rel && !m.excludes rel && p.isSourceFile rel

/-- `!rel || rel.startsWith('..')` -/
def outside (rel : Text) : Bool := rel = [] || ['.', '.'].isPrefixOf rel

/-- `out.add(rel)` -/
def addFile (s : Collected) (rel : Text) : Collected :=
  if rel ∈ s.out then s else { s with out := s.out ++ [rel] }

/-- The rest of the entries of the directory `here`. -/
def walkEntries (here : List Text) : Listing Text → Collected → Collected
  | .nil, s => s
  | .file name rest, s =>
      let rel := relText (here ++ [name])
      walkEntries here rest
        (if p.skips name || outside rel then s
        else if p.accepts m rel then addFile s rel else s)
  | .dir name inside rest, s =>
      let rel := relText (here ++ [name])
      walkEntries here rest
        (if p.skips name || outside rel then s
        else if m.opens rel then
          if here ++ [name] ∈ s.visited then s
          else walkEntries (here ++ [name]) inside
            { s with visited := s.visited ++ [here ++ [name]] }
        else s)

/-- The names below the root directory that a static root leads to. -/
def resolveRoot (root : Text) : Option (List Text) :=
  if root = [] then some []
  else
    let target := joinNames p.rootDir root
    if p.rootDir <+: target then some (target.drop p.rootDir.length) else none

/-- A root that is no directory is left at once, and in one that is not below the root directory
every entry is `outside`. -/
def walkRoot (s : Collected) (root : Text) : Collected :=
  match p.resolveRoot root with
  | none => s
  | some here =>
      match p.tree.openDir here with
      | none => s
      | some inside =>
          if here ∈ s.visited then s
          else p.walkEntries m here inside { s with visited := s.visited ++ [here] }

def collectIncludedFiles (roots : List Text) : List Text :=
  (roots.foldl (p.walkRoot m) {}).out

def collectIncludedFilesForRoot : Except PatternError (List Text) := do
  match ← loadMatcher p.includePatterns with
  | none => return []
  | some includes =>
      let roots := includeStaticRoots p.includePatterns
      let exclude ← loadMatcher p.excludePatterns
      let defaults ← defaultsOnlyIgnore
      return p.collectIncludedFiles ⟨includes, exclude, defaults⟩ roots

end IncludeProject

end AfyxGraph.Scope
