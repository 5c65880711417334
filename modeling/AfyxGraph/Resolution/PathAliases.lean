import AfyxGraph.Runtime.PosixPath
import AfyxGraph.UiServer.TrailStore

/-! # Path aliases

The `paths` of a tsconfig: patterns with at most one star and what an import they match may stand
for. The patterns are tried from the most specific one on; the first that fits is used, and its
replacements become paths in the project.
-/

namespace AfyxGraph.Resolution.PathAliases

open AfyxGraph.Runtime AfyxGraph.Runtime.PosixPath
open AfyxGraph.UiServer (js)

/-! ## Patterns -/

def star : CodeUnit := unit '*'

/-- Where there is no star nothing follows it. -/
structure AliasPattern where
  lead : JsString
  tail : JsString
  hasWildcard : Bool
  replacements : List JsString
  literal : hasWildcard = false → tail = []

def splitWildcard (pattern : JsString) (replacements : List JsString) : AliasPattern :=
  if star ∈ pattern then
    ⟨pattern.takeWhile (· ≠ star), (pattern.dropWhile (· ≠ star)).tail, true, replacements,
      fun h => Bool.noConfusion h⟩
  else ⟨pattern, [], false, replacements, fun _ => rfl⟩

/-- Longer leads first, then literal patterns before wildcards. -/
def moreSpecific (a b : AliasPattern) : Bool :=
  if a.lead.length ≠ b.lead.length then b.lead.length < a.lead.length
  else !a.hasWildcard || b.hasWildcard

structure AliasMap where
  baseUrl : JsString
  patterns : List AliasPattern
  ordered : patterns.Pairwise fun a b => moreSpecific a b = true

theorem moreSpecific_iff {a b : AliasPattern} : moreSpecific a b = true ↔
    b.lead.length < a.lead.length ∨
      a.lead.length = b.lead.length ∧ (a.hasWildcard = true → b.hasWildcard = true) := by
  unfold moreSpecific
  by_cases hlength : a.lead.length = b.lead.length
  · rw [if_neg (by simpa using hlength)]
    cases a.hasWildcard <;> simp [hlength]
  · rw [if_pos hlength, decide_eq_true_eq]
    exact ⟨.inl, fun h => h.resolve_right fun h => hlength h.1⟩

theorem moreSpecific_trans (a b c : AliasPattern) (hab : moreSpecific a b = true)
    (hbc : moreSpecific b c = true) : moreSpecific a c = true := by
  rw [moreSpecific_iff] at *
  rcases hab with hab | ⟨hab, hab'⟩ <;> rcases hbc with hbc | ⟨hbc, hbc'⟩
  · exact .inl (by omega)
  · exact .inl (by omega)
  · exact .inl (by omega)
  · exact .inr ⟨hab.trans hbc, fun h => hbc' (hab' h)⟩

theorem moreSpecific_total (a b : AliasPattern) :
    (moreSpecific a b || moreSpecific b a) = true := by
  rw [Bool.or_eq_true, moreSpecific_iff, moreSpecific_iff]
  rcases Nat.lt_trichotomy a.lead.length b.lead.length with h | h | h
  · exact .inr (.inl h)
  · cases ha : a.hasWildcard with
    | false => exact .inl (.inr ⟨h, fun h => Bool.noConfusion h⟩)
    | true => exact .inr (.inr ⟨h.symm, fun _ => rfl⟩)
  · exact .inl (.inl h)

/-- The text of a target. -/
def targetOf {ν : Type} : Json ν → Option JsString
  | .string value => some value
  | _ => none

def patternOf {ν : Type} (entry : JsString × Json ν) : Option AliasPattern :=
  match entry.2 with
  | .array targets =>
      let filtered := targets.filterMap targetOf
      if filtered = [] then none else some (splitWildcard entry.1 filtered)
  | _ => none

/-- The end of `loadProjectAliases`, with the `paths` that the configuration comes to. -/
def aliasesOf {ν : Type} (baseUrl : JsString) (paths : List (JsString × Json ν)) :
    Option AliasMap :=
  let patterns := paths.filterMap patternOf
  if patterns = [] then none
  else
    some ⟨baseUrl, patterns.mergeSort moreSpecific,
      List.pairwise_mergeSort moreSpecific_trans moreSpecific_total patterns⟩

/-! ## Replacements -/

/-- `text.slice(start, stop)` -/
def slice (text : JsString) (start stop : Nat) : JsString := (text.take stop).drop start

/-- What `replace` makes of a replacement text, between what is before and behind the star. -/
def substitute (before after : JsString) : JsString → JsString
  | [] => []
  | [c] => [c]
  | c :: d :: rest =>
      if c = unit '$' then
        if d = unit '$' then unit '$' :: substitute before after rest
        else if d = unit '&' then star :: substitute before after rest
        else if d = unit '\x60' then before ++ substitute before after rest
        else if d = unit '\'' then after ++ substitute before after rest
        else c :: substitute before after (d :: rest)
      else c :: substitute before after (d :: rest)

/-- `target.replace('*', captured)` -/
def replaceStar (target captured : JsString) : JsString :=
  let before := target.takeWhile (· ≠ star)
  match target.dropWhile (· ≠ star) with
  | [] => target
  | _ :: after => before ++ (substitute before after captured ++ after)

def AliasPattern.fill (pat : AliasPattern) (target captured : JsString) : JsString :=
  if pat.hasWildcard then replaceStar target captured else target

/-! ## Imports -/

/-- What the pattern captures of the import, unless the loop goes on to the next one. -/
def AliasPattern.match? (pat : AliasPattern) (importPath : JsString) : Option JsString :=
  if !pat.lead.isPrefixOf importPath then none
  else if pat.tail ≠ [] && !pat.tail.isSuffixOf importPath then none
  else if pat.hasWildcard then
    some (slice importPath pat.lead.length (importPath.length - pat.tail.length))
  else if importPath ≠ pat.lead then none
  else some []

/-- The pattern that is used. -/
def AliasMap.used (aliases : AliasMap) (importPath : JsString) : Option (AliasPattern × JsString) :=
  aliases.patterns.findSome? fun pat => (pat.match? importPath).map (pat, ·)

/-- `path.relative` with slashes only. -/
def projectForm (projectRoot absolute : AbsolutePath) : JsString :=
  (projectRoot.relative absolute).map fun c => if c = unit '\\' then slash else c

/-- Where the process runs, and where the project is. -/
structure Place where
  cwd : AbsolutePath
  projectRoot : JsString

namespace Place

def root (place : Place) : AbsolutePath := place.cwd.resolve [place.projectRoot]

/-- One round of the loop over the replacements. -/
def candidate (place : Place) (baseUrl filled : JsString) : Option JsString :=
  let absolute := place.cwd.resolve [baseUrl, filled]
  if up.isPrefixOf (place.root.relative absolute) then none
  else some (projectForm place.root absolute)

end Place

def applyAliases (importPath : JsString) (aliases : AliasMap) (place : Place) : List JsString :=
  match aliases.used importPath with
  | some (pat, captured) =>
      pat.replacements.filterMap fun target =>
        place.candidate aliases.baseUrl (pat.fill target captured)
  | none => []

end AfyxGraph.Resolution.PathAliases
