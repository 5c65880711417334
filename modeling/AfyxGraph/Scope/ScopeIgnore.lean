import AfyxGraph.Scope.Matcher
import Mathlib.Data.List.Sort

/-! # The workspace scope

`buildScopeIgnore` puts together the built-in defaults, the ignore files, what git
lists as ignored and the `exclude` and `include` patterns of the project;
`ScopeIgnore.ignores` consults them in a fixed order.
-/

namespace AfyxGraph.Scope

open AfyxGraph.Core

/-! ## Default patterns -/

def defaultIgnoreDirs : List String :=
  ["node_modules", "bower_components", "jspm_packages", "web_modules", ".yarn", ".pnpm-store",
   ".next", ".nuxt", ".svelte-kit", ".turbo", ".vite", ".parcel-cache", ".angular",
   ".docusaurus", "storybook-static", ".vinxi", ".nitro", "out-tsc",
   ".vercel", ".netlify", ".wrangler",
   "dist", "build", "out", ".output",
   "coverage", ".nyc_output",
   "__pycache__", "__pypackages__", ".venv", "venv", ".pixi", ".pdm-build",
   ".mypy_cache", ".pytest_cache", ".ruff_cache", ".tox", ".nox", ".hypothesis",
   ".ipynb_checkpoints", ".eggs",
   "target", ".gradle",
   "obj",
   "vendor",
   ".build", "Pods", "Carthage", "DerivedData", ".swiftpm",
   ".dart_tool", ".pub-cache",
   ".cxx", ".externalNativeBuild", "vcpkg_installed",
   ".bloop", ".metals",
   "lua_modules", ".luarocks",
   "__history", "__recovery",
   ".cache"]

def androidResTypes : List String :=
  ["anim", "animator", "color", "drawable", "font", "layout",
   "menu", "mipmap", "navigation", "transition", "values", "xml"]

def defaultIgnorePatterns : List Text :=
  defaultIgnoreDirs.map (fun dir => dir.toList ++ ['/']) ++
    ["*.egg-info/".toList, "cmake-build-*/".toList, "bazel-*/".toList] ++
    androidResTypes.map fun type => "**/res/".toList ++ type.toList ++ "*/".toList

def defaultsOnlyIgnore : Except PatternError Matcher := Matcher.addLines [] defaultIgnorePatterns

/-! ## Ignore files -/

/-- `content.split(/\r?\n/)` -/
def crlfLines (content : Text) : List Text :=
  let lines := content.split '\n'
  lines.dropLast.map stripCarriageReturn ++ lines.drop (lines.length - 1)

def compiles (patterns : Text) : Bool := (Matcher.add [] patterns).isOk

/-- The patterns of an ignore file; `none` stands for one that is absent, cannot be
read or does not decode. -/
def readGitignorePatterns (content : Option Text) : Text :=
  match content with
  | none => []
  | some content =>
      if content.contains (Char.ofNat 0) then []
      else if compiles content then content
      else List.intercalate ['\n'] ((crlfLines content).filter compiles)

/-- What `buildScopeIgnore` reads off the disk, from git and from the project file.
Directories are given without a slash, the root as the empty text. -/
structure Project where
  /-- The `.gitignore` of a directory. -/
  gitignore : Text → Option Text
  /-- `.git/info/exclude` and `core.excludesFile` of the repository at a directory. -/
  gitExcludes : Text → List (Option Text)
  /-- `git ls-files -o -i --exclude-standard --directory` at the root. -/
  gitIgnored : List Text
  excludePatterns : List Text
  includePatterns : List Text

namespace Project

variable (p : Project)

def readGitExcludeExtraPatterns (dir : Text) : Text :=
  List.intercalate ['\n'] (((p.gitExcludes dir).map readGitignorePatterns).filter (· ≠ []))

def buildDefaultIgnore (dir : Text) : Except PatternError Matcher := do
  let defaults ← defaultsOnlyIgnore
  let own ← defaults.add (readGitignorePatterns (p.gitignore dir))
  own.add (p.readGitExcludeExtraPatterns dir)

def listGitIgnoredDirectories : List Text :=
  (p.gitIgnored.filter (· ≠ [])).map fun entry =>
    if entry.getLast? = some '/' then entry else entry ++ ['/']

end Project

/-- `loadExcludeMatcher` and `loadIncludeMatcher`. -/
def loadMatcher (patterns : List Text) : Except PatternError (Option Matcher) :=
  if patterns = [] then return none
  else return some (← Matcher.addLines [] patterns)

/-! ## Include roots -/

/-- `GLOB_META` -/
def isGlobMeta (c : Char) : Bool := c ∈ ['*', '?', '[', ']', '{', '}', '!']

/-- The segments of a pattern's static directory prefix. -/
def staticLead (pattern : Text) : List Text :=
  let p : Text := pattern.dropWhile (· = '/')
  let trailingSlash := p.getLast? = some '/'
  let p : Text := if trailingSlash then p.dropLast else p
  let segs := p.segments.filter (· ≠ [])
  let lead := segs.takeWhile fun s => !s.any isGlobMeta
  let hadWildcard := lead.length < segs.length
  if ¬ hadWildcard ∧ ¬ trailingSlash then lead.dropLast else lead

def includeStaticRoots (patterns : List Text) : List Text :=
  let leads := patterns.map staticLead
  if [] ∈ leads then [[]]
  else
    let all := (leads.map fun lead => Text.join lead ++ ['/']).eraseDups
    all.filter fun r => !all.any fun other => other ≠ r && other.isPrefixOf r

/-! ## The matcher -/

/-- A repository below the root, with its own rules. -/
structure Embedded where
  directory : Text
  matcher : Matcher

/-- The root of an embedded repository is written with a trailing slash. -/
def Embedded.root (e : Embedded) : Text := e.directory ++ ['/']

structure ScopeIgnore where
  rootMatcher : Matcher
  /-- Longest root first. -/
  embedded : List Embedded
  exclude : Option Matcher
  includes : Option Matcher
  includeRoots : List Text
  defaults : Matcher

namespace ScopeIgnore

variable (s : ScopeIgnore)

def excludes (rel : Text) : Bool := s.exclude.any (·.ignores rel)

/-- The second step of `ignores`: a file that `include` names, or a directory on the
way to an include root or below one. -/
def forces (rel : Text) : Bool :=
  s.includes.any fun m =>
    !s.defaults.ignores rel &&
      (if rel.getLast? = some '/' then
        s.includeRoots.any fun r => rel.isPrefixOf r || r.isPrefixOf rel
      else m.ignores rel)

/-- The embedded repository a path is judged by: the first one whose root is in
front of it, so the innermost. -/
def innermost (rel : Text) : Option Embedded := s.embedded.find? fun e => e.root.isPrefixOf rel

/-- Some embedded repository lies below the directory. -/
def leadsToEmbedded (rel : Text) : Bool :=
  rel.getLast? = some '/' && s.embedded.any fun e => rel.isPrefixOf e.root

def ignores (rel : Text) : Bool :=
  if s.excludes rel then true
  else if s.forces rel then false
  else
    match s.innermost rel with
    | some e =>
        let inner := rel.drop e.root.length
        if inner = [] then false
        else s.defaults.ignores rel || e.matcher.ignores inner
    | none => if s.leadsToEmbedded rel then false else s.rootMatcher.ignores rel

end ScopeIgnore

/-- `rootMatcher.add(dir)` for every directory; a name that does not compile throws. -/
def seed (m : Matcher) : List Text → Except PatternError Matcher
  | [] => return m
  | dir :: dirs => do seed (← m.add dir) dirs

def loadEmbedded (p : Project) : List Text → Except PatternError (List Embedded)
  | [] => return []
  | directory :: rest => do
      let matcher ← p.buildDefaultIgnore directory
      return { directory, matcher } :: (← loadEmbedded p rest)

/-- `embeddedRoots` are the directories of the embedded repositories. -/
def buildScopeIgnore (p : Project) (embeddedRoots : List Text) : Except PatternError ScopeIgnore := do
  let includes ← loadMatcher p.includePatterns
  let rootMatcher ← seed (← p.buildDefaultIgnore []) p.listGitIgnoredDirectories
  let embedded ← loadEmbedded p embeddedRoots
  return {
    rootMatcher
    embedded := embedded.insertionSort fun a b => b.root.length ≤ a.root.length
    exclude := ← loadMatcher p.excludePatterns
    includes
    includeRoots := if includes.isSome then includeStaticRoots p.includePatterns else []
    defaults := ← defaultsOnlyIgnore }

end AfyxGraph.Scope
