import AfyxGraph.Graph.GuardLabels
import AfyxGraph.UiServer.SourceOrder

/-! # The body of an anchor as the code reads it

`buildProgram` folds the sites that a walk recorded into items in source order: forks where a
guard was read, loops, runs of calls that start later or together, and the body of a helper at
its call. The blocks of the source are mutable arrays and an open construct holds the one its
items go into; here an open construct holds the label under which that array is found, always in
the last item of the block around it.
-/

namespace AfyxGraph.UiServer.Program

open AfyxGraph.Runtime AfyxGraph.Graph.Guards
open AfyxGraph.UiServer.SourceOrder (Span compareSpans)

/-! ## What the walk records -/

inductive GuardExit where
  | «return»
  | throw
  | exit
  deriving DecidableEq

inductive LoopKind where
  | each
  | «while»
  deriving DecidableEq

/-- A guard with the decision it belongs to and how its arms leave. -/
structure SiteGuard extends BranchGuard where
  branch : JsString
  armExit : Option GuardExit := none
  exit : Option GuardExit := none

structure SiteLoop where
  text : JsString
  kind : LoopKind
  branch : JsString

structure Trigger where
  kind : JsString
  name : JsString

/-- One thing that happens in one function, and where the code writes it. -/
structure ProgramSite where
  step : Option String := none
  link : Option String := none
  into : Option String := none
  at_ : Span
  within : Option JsString := none
  guards : List SiteGuard := []
  loops : List SiteLoop := []
  trigger : Option Trigger := none

structure StepFacts where
  reply : Bool
  into : Option String

structure ProgramInput (ν : Type) where
  sites : String → Option (List ProgramSite)
  root : Option String
  node : String → Option ν
  step : String → Option StepFacts

/-- What the engine leaves open: the order of `sort` under a comparison that is none, the
collation of `localeCompare`, and `Number(text) || 0`. -/
structure Engine where
  sort : {α : Type} → (α → α → Int) → List α → List α
  sort_perm : ∀ {α : Type} (compare : α → α → Int) (xs : List α), (sort compare xs).Perm xs
  localeCompare : JsString → JsString → Int
  number : JsString → Int

/-! ## What is drawn -/

inductive ArmEnd where
  | reply
  | «return»
  | throw
  | exit
  deriving DecidableEq

inductive ForkForm where
  | «if»
  | switch
  | ternary
  | «try»
  deriving DecidableEq

inductive BlockKind where
  | inline
  | loop
  | later
  | together
  deriving DecidableEq

mutual

/-- An item of a block; a step without a `body` has none, as no body is empty. -/
inductive Item (ν : Type) where
  | step (step : String) (link : Option String) (within : Option JsString) (body : List (Item ν))
      (again : Bool)
  | fork (on : JsString) (form : ForkForm) (arms : List (Arm ν))
  | block (kind : BlockKind) (by_ : Option JsString) (loop : Option LoopKind) (via : Option ν)
      (within : Option JsString) (body : List (Item ν)) (again : Bool)

inductive Arm (ν : Type) where
  | mk (when_ : JsString) (not_ : Bool) (ends : Option ArmEnd) (body : List (Item ν))

end

variable {ν : Type}

abbrev Block (ν : Type) := List (Item ν)

namespace Arm

def when_ : Arm ν → JsString
  | .mk w _ _ _ => w

def body : Arm ν → Block ν
  | .mk _ _ _ b => b

end Arm

structure WireProgram (ν : Type) where
  root : Block ν
  truncated : Nat

/-! ## Scopes -/

inductive Scope where
  | guard (guard : SiteGuard)
  | loop (loop : SiteLoop)

namespace Scope

def branch : Scope → JsString
  | .guard g => g.branch
  | .loop l => l.branch

end Scope

/-- `!` and the condition: the arm, not the decision. -/
def armKey (g : SiteGuard) : JsString := if g.negated then unit '!' :: g.text else g.text

/-- The words of one arm. -/
def armWords (g : SiteGuard) : JsString := guardLabel [g.toBranchGuard]

/-- Where the items of a construct go: an arm by its words, or the body of a loop. -/
inductive Label where
  | arm (when_ : JsString)
  | loop (text : JsString) (kind : LoopKind)
  deriving DecidableEq

def Scope.label : Scope → Label
  | .guard g => .arm (armWords g)
  | .loop l => .loop l.text l.kind

namespace Engine

variable (engine : Engine)

/-- A `line:column` branch as one number. -/
def branchAt (branch : JsString) : Int :=
  let line := branch.takeWhile (· ≠ unit ':')
  let column := (branch.drop (line.length + 1)).takeWhile (· ≠ unit ':')
  engine.number line * 10000 + engine.number column

def compareScopes (a b : Scope) : Int :=
  let starts := engine.branchAt a.branch - engine.branchAt b.branch
  if starts ≠ 0 then starts else engine.localeCompare a.branch b.branch

def scopesOf (site : ProgramSite) : List Scope :=
  let guards := site.guards.map Scope.guard
  if site.loops.isEmpty then guards
  else engine.sort engine.compareScopes (guards ++ site.loops.map Scope.loop)

/-- Source order: a call written inside another one runs first, then by position. -/
def sortSites (sites : List ProgramSite) : List ProgramSite :=
  engine.sort (fun a b => compareSpans a.at_ b.at_) sites

end Engine

/-! ## Open constructs -/

/-- A construct the reading is inside: a loop, or one arm of a fork. -/
structure Open where
  branch : JsString
  /-- Set for a fork. -/
  armKey : Option JsString
  label : Label

def sameScope (o : Open) (scope : Scope) : Bool :=
  o.branch = scope.branch &&
    match scope with
    | .loop _ => o.armKey.isNone
    | .guard g => o.armKey = some (armKey g)

/-- The longest run of open constructs that the scopes still sit inside. -/
def keepOf : List Open → List Scope → Nat
  | o :: stack, scope :: scopes => if sameScope o scope then keepOf stack scopes + 1 else 0
  | _, _ => 0

def modifyLast {α : Type} (f : α → α) : List α → List α
  | [] => []
  | [x] => [f x]
  | x :: y :: rest => x :: modifyLast f (y :: rest)

/-- Change the body of the first arm with these words. -/
def modifyArm (when_ : JsString) (f : Block ν → Block ν) : List (Arm ν) → List (Arm ν)
  | [] => []
  | arm :: rest =>
      match arm with
      | .mk w n e body =>
          if w = when_ then .mk w n e (f body) :: rest else arm :: modifyArm when_ f rest

/-- Change the block that an open construct holds. -/
def inBody (label : Label) (f : Block ν → Block ν) : Item ν → Item ν
  | .fork on form arms =>
      match label with
      | .arm when_ => .fork on form (modifyArm when_ f arms)
      | .loop .. => .fork on form arms
  | .block kind by_ loop via within body again =>
      .block kind by_ loop via within (f body) again
  | .step step link within body again => .step step link within body again

/-- `bodyAt`: change the block that the stack leads to. -/
def bodyAt : List Open → (Block ν → Block ν) → Block ν → Block ν
  | [], f, block => f block
  | o :: stack, f, block => modifyLast (inBody o.label (bodyAt stack f)) block

def exitEnd : GuardExit → ArmEnd
  | .return => .return
  | .throw => .throw
  | .exit => .exit

/-- The arms with one for the guard; an arm with its words is used again. -/
def armFor (g : SiteGuard) (arms : List (Arm ν)) : List (Arm ν) :=
  if arms.any fun arm => arm.when_ = armWords g then arms
  else arms ++ [.mk (armWords g) g.negated (g.armExit.map exitEnd) []]

def addArm (g : SiteGuard) : Item ν → Item ν
  | .fork on form arms => .fork on form (armFor g arms)
  | item => item

def formOf (g : SiteGuard) : ForkForm :=
  match g.form with
  | .case => .switch
  | .ternary => .ternary
  | .catch => .try
  | _ => .if

/-- The words of the decision, or of the arm that is left when the guard is negated. -/
def decisionWords (g : SiteGuard) : JsString :=
  guardLabel [{ g.toBranchGuard with negated := false }]

/-- The construct that a scope opens. An early exit comes with the arm that left. -/
def construct : Scope → Item ν
  | .loop l => .block .loop (some l.text) (some l.kind) none none [] false
  | .guard g =>
      let left : List (Arm ν) :=
        if g.form = .guard && g.negated then
          [.mk (decisionWords g) false (some (exitEnd (g.exit.getD .return))) []]
        else []
      .fork (decisionWords g) (formOf g) (armFor g left)

def opened : Scope → Open
  | .loop l => ⟨l.branch, none, .loop l.text l.kind⟩
  | .guard g => ⟨g.branch, some (armKey g), .arm (armWords g)⟩

/-- A block with the constructs that are open in it. -/
structure Place (ν : Type) where
  block : Block ν := []
  stack : List Open := []

namespace Place

variable (p : Place ν)

def openScope (scope : Scope) : Place ν where
  block := bodyAt p.stack (· ++ [construct scope]) p.block
  stack := p.stack ++ [opened scope]

/-- The same decision taken the other way: the fork stays and its other arm is opened. -/
def switchArm (keep : Nat) (o : Open) (g : SiteGuard) : Place ν where
  block := bodyAt (p.stack.take keep) (modifyLast (addArm g)) p.block
  stack := p.stack.take keep ++ [{ o with armKey := some (armKey g), label := .arm (armWords g) }]

/-- The open construct and the scope behind the ones that are kept are arms of one decision. -/
def otherArm (keep : Nat) (scopes : List Scope) : Option (Open × SiteGuard) :=
  match p.stack[keep]?, scopes[keep]? with
  | some o, some (.guard g) => if o.branch = g.branch && o.armKey.isSome then some (o, g) else none
  | _, _ => none

/-- Close what the site is not inside and open what it is inside. -/
def enter (scopes : List Scope) : Place ν :=
  let keep := keepOf p.stack scopes
  match p.otherArm keep scopes with
  | some (o, g) => (scopes.drop (keep + 1)).foldl openScope (p.switchArm keep o g)
  | none => (scopes.drop keep).foldl openScope { p with stack := p.stack.take keep }

end Place

/-! ## Runs that are no sequence -/

def LATER_OF : List JsString :=
  [js "then", js "catch", js "finally", js "setTimeout", js "setInterval", js "setImmediate",
    js "queueMicrotask", js "requestAnimationFrame", js "useEffect", js "useLayoutEffect",
    js "addListener", js "addEventListener", js "on", js "once", js "subscribe", js "nextTick",
    js "process.nextTick"]

def TOGETHER : List JsString :=
  [js "Promise.all", js "Promise.allSettled", js "Promise.any", js "Promise.race",
    js "asyncio.gather", js "Task.WhenAll", js "Task.WhenAny"]

/-- The run a site belongs to, or none for plain sequence. -/
def runFor (site : ProgramSite) : Option (BlockKind × JsString) :=
  match site.trigger.filter fun fires => fires.kind = js "callback" && fires.name ∈ LATER_OF with
  | some fires => some (.later, fires.name)
  | none => (site.within.filter (· ∈ TOGETHER)).map fun within => (.together, within)

/-- The item is a block of this run. -/
def isRun (run : BlockKind × JsString) : Item ν → Bool
  | .block kind by_ _ _ _ _ _ => kind = run.1 && by_ = some run.2
  | _ => false

def intoRun (item : Item ν) : Item ν → Item ν
  | .block kind by_ loop via within body again =>
      .block kind by_ loop via within (body ++ [item]) again
  | other => other

/-- Put an item in its block, opening the run it belongs to. -/
def put (item : Item ν) (site : ProgramSite) (block : Block ν) : Block ν :=
  match runFor site with
  | none => block ++ [item]
  | some run =>
      if block.getLast?.any (isRun run) then modifyLast (intoRun item) block
      else block ++ [.block run.1 (some run.2) none none none [item] false]

/-! ## How arms end -/

/-- Whether the last thing a block does is answer the request. -/
def repliesLast (reply : String → Bool) : List (Item ν) → Bool
  | [] => false
  | [.step step _ _ _ _] => reply step
  | [.block _ _ _ _ _ body _] => repliesLast reply body
  | [.fork ..] => false
  | _ :: item :: rest => repliesLast reply (item :: rest)

/-- `[\w$.?[\]'"]` -/
def isSubjectUnit (c : CodeUnit) : Bool :=
  isWordUnit c || c ∈ [unit '$', unit '.', unit '?', unit '[', unit ']', unit '\'', unit '"']

def commonStart : JsString → JsString → JsString
  | a :: as, b :: bs => if a = b then a :: commonStart as bs else []
  | _, _ => []

/-- What every arm of a switch is deciding on. -/
def subjectOf : List JsString → JsString
  | first :: second :: rest =>
      (trim ((second :: rest).foldl commonStart first)).takeWhile isSubjectUnit
  | _ => []

mutual

def sealItem (reply : String → Bool) : Item ν → Item ν
  | .fork on form arms =>
      .fork (if form = .switch then subjectOf (arms.map Arm.when_) else on) form
        (sealArms reply arms)
  | .block kind by_ loop via within body again =>
      .block kind by_ loop via within (sealBlock reply body) again
  | .step step link within body again => .step step link within (sealBlock reply body) again

def sealBlock (reply : String → Bool) : List (Item ν) → List (Item ν)
  | [] => []
  | item :: rest => sealItem reply item :: sealBlock reply rest

def sealArms (reply : String → Bool) : List (Arm ν) → List (Arm ν)
  | [] => []
  | .mk w n ends body :: rest =>
      .mk w n (if repliesLast reply body then some .reply else ends) (sealBlock reply body) ::
        sealArms reply rest

end

/-! ## The fold -/

/-- How deep a helper may be drawn inside a helper. -/
def MAX_INLINE : Nat := 8
/-- Items in one reading. -/
def MAX_ITEMS : Nat := 1200

/-- What the reading has already said. -/
structure Reading where
  truncated : Nat := 0
  items : Nat := 0
  read : List String

/-- `open`: whether the body of a function may be read here. -/
def mayOpen (fn : String) (path : List String) (r : Reading) : Bool × Reading :=
  if fn ∈ path ∨ fn ∈ r.read then (false, r)
  else if MAX_INLINE ≤ path.length ∨ MAX_ITEMS ≤ r.items then
    (false, { r with truncated := r.truncated + 1 })
  else (true, { r with read := r.read ++ [fn] })

/-- An empty text is no text. -/
def present {α : Type} [DecidableEq α] (empty : α) (o : Option α) : Option α := o.filter (· ≠ empty)

namespace ProgramInput

variable (input : ProgramInput ν)

def sitesOf (fn : String) : List ProgramSite := (input.sites fn).getD []

/-- The function that a step reads on into. -/
def stepInto (step : String) : Option String := present "" ((input.step step).bind (·.into))

def replies (step : String) : Bool := ((input.step step).map (·.reply)).getD false

/-- What one recorded site draws as; `blockFor` reads a function in. -/
def itemFor (blockFor : String → Reading → Block ν × Reading) (site : ProgramSite)
    (path : List String) (r : Reading) : Option (Item ν) × Reading :=
  match present "" site.into with
  | some into =>
      let helper := Item.block .inline none none (input.node into) (present [] site.within)
      let (opens, r) := mayOpen into path r
      if opens then
        let (body, r) := blockFor into r
        (if body.isEmpty then none else some (helper body false), r)
      else (some (helper [] true), r)
  | none =>
      match present "" site.step with
      | none => (none, r)
      | some step =>
          let item := Item.step step (present "" site.link) (present [] site.within)
          match input.stepInto step with
          | none => (some (item [] false), r)
          | some into =>
              let (opens, r) := mayOpen into path r
              if opens then
                let (body, r) := blockFor into r
                (some (item body false), r)
              else (some (item [] (input.sites into).isSome), r)

/-- One site more. -/
def readSite (engine : Engine) (blockFor : String → Reading → Block ν × Reading)
    (path : List String) (state : Place ν × Reading) (site : ProgramSite) : Place ν × Reading :=
  let place := state.1.enter (engine.scopesOf site)
  let drawn := input.itemFor blockFor site path state.2
  match drawn.1 with
  | none => (place, drawn.2)
  | some item =>
      ({ place with block := bodyAt place.stack (put item site) place.block },
        { drawn.2 with items := drawn.2.items + 1 })

/-- One function's body, in the code's order. No function is opened when the path has
`MAX_INLINE` functions, so the depth of the reading is bounded. -/
def blockFor (engine : Engine) : Nat → String → List String → Reading → Block ν × Reading
  | 0, _, _, r => ([], r)
  | depth + 1, fn, path, r =>
      let state := (engine.sortSites (input.sitesOf fn)).foldl
        (input.readSite engine (fun fn => blockFor engine depth fn (path ++ [fn])) path)
        ({}, r)
      (sealBlock input.replies state.1.block, state.2)

/-- `buildProgram` -/
def buildProgram (engine : Engine) : Option (WireProgram ν) :=
  match input.root with
  | none => none
  | some root =>
      let (block, r) := input.blockFor engine MAX_INLINE root [root] { read := [root] }
      if block.isEmpty then none else some ⟨block, r.truncated⟩

end ProgramInput

end AfyxGraph.UiServer.Program
