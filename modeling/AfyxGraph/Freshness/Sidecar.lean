import AfyxGraph.Core.Transition
import AfyxGraph.Core.WorkTree

/-! # The freshness sidecar

After an index run `writeFreshness` asks git for `HEAD` and for the state of the tracked
files and records both; `getFreshness` compares the record with what git answers then.
Each question is an event of its own, so the working tree may move between any two.
-/

namespace AfyxGraph.Freshness

open AfyxGraph.Core

inductive FreshnessState where
  | missing
  | fresh
  | stale
  | invalid
  | unknown
  deriving DecidableEq, Repr

structure FreshnessReport where
  state : FreshnessState
  detail : String
  deriving DecidableEq, Repr

structure FreshnessRecord (Sha : Type) where
  gitHead : Option Sha
  trackedClean : Option Bool
  deriving DecidableEq, Repr

/-- What a read of `freshness.json` finds. -/
inductive Sidecar (Sha : Type) where
  | absent
  | unreadable
  | notJson
  | unsupported
  | record (record : FreshnessRecord Sha)
  deriving DecidableEq, Repr

/-- What `getFreshness` finds on the disk besides the sidecar. -/
structure Disk where
  database : Bool
  sqliteHeader : Bool
  gitDirectory : Bool
  deriving DecidableEq, Repr

variable {Sha Path Content : Type}

def readSidecarRecord : Sidecar Sha → Except FreshnessReport (FreshnessRecord Sha)
  | .absent | .unreadable =>
      .error ⟨.unknown, "index metadata not recorded yet; run \"afyx-graph sync\""⟩
  | .notJson => .error ⟨.invalid, "freshness.json is not valid JSON"⟩
  | .unsupported => .error ⟨.invalid, "freshness.json has an unsupported schema"⟩
  | .record record => .ok record

theorem readSidecarRecord_ok {sidecar : Sidecar Sha} {record : FreshnessRecord Sha}
    (h : readSidecarRecord sidecar = .ok record) : sidecar = .record record := by
  cases sidecar with
  | record found =>
      cases h
      rfl
  | absent | unreadable | notJson | unsupported => simp [readSidecarRecord] at h

theorem readSidecarRecord_error {sidecar : Sidecar Sha} {report : FreshnessReport}
    (h : readSidecarRecord sidecar = .error report) : report.state ≠ .fresh := by
  cases sidecar with
  | record found => simp [readSidecarRecord] at h
  | absent | unreadable | notJson | unsupported =>
      cases h
      simp

/-- `getFreshness` after the answer of `isTrackedTreeClean`. -/
def getFreshnessStatus (record : FreshnessRecord Sha) (treeIsCleanNow : Option Bool) :
    FreshnessReport :=
  match treeIsCleanNow with
  | none => ⟨.unknown, "git could not report the working tree state"⟩
  | some false => ⟨.stale, "tracked files changed since the last index"⟩
  | some true =>
      if record.trackedClean ≠ some true then
        ⟨.stale, "the index was built while tracked files had uncommitted changes"⟩
      else ⟨.fresh, "matches git HEAD with a clean tracked tree"⟩

theorem getFreshnessStatus_fresh {record : FreshnessRecord Sha} {status : Option Bool} :
    (getFreshnessStatus record status).state = .fresh ↔
      status = some true ∧ record.trackedClean = some true := by
  unfold getFreshnessStatus
  split
  · simp
  · simp
  · split <;> simp_all

variable [DecidableEq Sha] [DecidableEq Path] [DecidableEq Content]

/-- `getFreshness` up to the answer of `currentGitHead`. -/
def getFreshnessHead (disk : Disk) (sidecar : Sidecar Sha) (head : Option Sha) :
    Except FreshnessReport (FreshnessRecord Sha) :=
  if !disk.database then .error ⟨.missing, "no Afyx Graph database; run \"afyx-graph init\""⟩
  else if !disk.sqliteHeader then .error ⟨.invalid, "database is not a SQLite file"⟩
  else
    match readSidecarRecord sidecar with
    | .error report => .error report
    | .ok record =>
        if !disk.gitDirectory then
          .error ⟨.unknown, "not a git working tree; freshness cannot be proven cheaply"⟩
        else
          match record.gitHead, head with
          | none, _ => .error ⟨.unknown, "index metadata has no git head"⟩
          | some _, none => .error ⟨.unknown, "git could not report HEAD"⟩
          | some recordedHead, some currentHead =>
              if currentHead ≠ recordedHead then
                .error ⟨.stale, "git HEAD changed since the last index"⟩
              else .ok record

def getFreshness (disk : Disk) (sidecar : Sidecar Sha) (head : Option Sha)
    (treeIsCleanNow : Option Bool) : FreshnessReport :=
  match getFreshnessHead disk sidecar head with
  | .error report => report
  | .ok record => getFreshnessStatus record treeIsCleanNow

/-! ## Runs -/

/-- Where the index run is: `recording` once `writeFreshness` has the answer of its first
question. -/
inductive Indexing (Sha : Type) where
  | idle
  | reading
  | recording (inGitTree : Bool) (head : Option Sha)
  deriving DecidableEq, Repr

structure Project (Sha Path Content : Type) where
  work : WorkTree Sha Path Content
  /-- The content the index read, by file. -/
  indexed : Contents Path Content
  indexing : Indexing Sha
  sidecar : Sidecar Sha
  /-- The record of a `getFreshness` call that waits for `isTrackedTreeClean`. -/
  asking : Option (FreshnessRecord Sha)
  /-- The answer of `getFreshness` that has just been given. -/
  answer : Option FreshnessReport
  deriving DecidableEq, Repr

inductive Event (Sha Path Content : Type) where
  | move (move : WorkTree.Move Sha Path Content)
  | startIndex
  | readFile (path : Path)
  /-- `writeFreshness` starts; `stateDir` and `inGitTree` are what it finds on the disk. -/
  | recordHead (stateDir inGitTree gitAnswers : Bool)
  /-- `written`: the write and the rename of the sidecar succeed. -/
  | recordStatus (gitAnswers written : Bool)
  | askHead (disk : Disk) (gitAnswers : Bool)
  | askStatus (gitAnswers : Bool)
  deriving DecidableEq, Repr

namespace Project

variable (tree : Sha → Contents Path Content)

def start (work : WorkTree Sha Path Content) : Project Sha Path Content where
  work
  indexed := []
  indexing := .idle
  sidecar := .absent
  asking := none
  answer := none

variable (s : Project Sha Path Content)

/-- A truthful git, or none at all. -/
def gitHead (gitAnswers : Bool) : Option Sha := if gitAnswers then s.work.head else none

def gitStatus (gitAnswers : Bool) : Option Bool :=
  if gitAnswers then some (s.work.clean tree) else none

def newRecord (inGitTree : Bool) (head : Option Sha) (gitAnswers : Bool) : FreshnessRecord Sha where
  gitHead := if inGitTree then head else none
  trackedClean := if inGitTree then s.gitStatus tree gitAnswers else none

/-- A call of `getFreshness` is over before the next index run starts. -/
def step : Machine (Project Sha Path Content) (Event Sha Path Content) := fun s event =>
  let s := { s with answer := none }
  match event with
  | .move m => some { s with work := s.work.move tree m }
  | .startIndex =>
      if s.indexing = .idle && s.asking.isNone then some { s with indexing := .reading } else none
  | .readFile path =>
      if s.indexing = .reading then
        some { s with indexed := s.indexed.set path (s.work.files.lookup path) }
      else none
  | .recordHead stateDir inGitTree gitAnswers =>
      if s.indexing = .reading then
        some { s with
          indexing :=
            if stateDir then .recording inGitTree (if inGitTree then s.gitHead gitAnswers else none)
            else .idle }
      else none
  | .recordStatus gitAnswers written =>
      match s.indexing with
      | .recording inGitTree head =>
          some { s with
            indexing := .idle
            sidecar :=
              if written then .record (s.newRecord tree inGitTree head gitAnswers)
              else s.sidecar }
      | _ => none
  | .askHead disk gitAnswers =>
      if s.indexing = .idle && s.asking.isNone then
        match getFreshnessHead disk s.sidecar (s.gitHead gitAnswers) with
        | .error report => some { s with answer := some report }
        | .ok record => some { s with asking := some record }
      else none
  | .askStatus gitAnswers =>
      match s.asking with
      | none => none
      | some record =>
          some { s with
            asking := none
            answer := some (getFreshnessStatus record (s.gitStatus tree gitAnswers)) }

/-- The content the index read for every tracked file is the one the file has. -/
def IndexMatches : Prop :=
  ∀ path, s.work.Tracked path → s.indexed.lookup path = s.work.files.lookup path

/-- `FRESH` is claimed only of an index that matches: by the answer just given, and, when
no index run is under way, by an undisturbed call after any further moves. -/
structure Honest : Prop where
  answered : ∀ report, s.answer = some report → report.state = .fresh → s.IndexMatches
  later : s.indexing = .idle → ∀ moves disk headAnswers statusAnswers,
    let t := { s with work := s.work.moves tree moves }
    (getFreshness disk t.sidecar (t.gitHead headAnswers) (t.gitStatus tree statusAnswers)).state =
      .fresh → t.IndexMatches

/-- The index holds every file of the commit as the commit has it. -/
def HoldsCommit (sha : Sha) : Prop :=
  ∀ path, (tree sha).lookup path ≠ none → s.indexed.lookup path = (tree sha).lookup path

/-- A sidecar that calls a commit clean speaks of a commit that the index holds. -/
def SidecarHolds : Prop :=
  ∀ sha, s.sidecar = .record ⟨some sha, some true⟩ → s.HoldsCommit tree sha

/-- The condition under which a step keeps `FRESH` honest, read on the state before it. -/
def HonestGuard (s : Project Sha Path Content) : Event Sha Path Content → Prop
  | .recordHead stateDir _ _ => stateDir = false → s.SidecarHolds tree
  | .recordStatus gitAnswers written =>
      if written then
        ∀ sha, s.indexing = .recording true (some sha) → gitAnswers = true →
          s.work.clean tree = true → s.HoldsCommit tree sha
      else s.SidecarHolds tree
  | .askStatus gitAnswers =>
      gitAnswers = true → s.work.clean tree = true →
        ∀ record sha, s.asking = some record → record.trackedClean = some true →
          record.gitHead ≠ s.work.head → s.work.head = some sha → s.HoldsCommit tree sha
  | _ => True

variable {tree} {s}

end Project

/-! ## What a fresh answer says -/

/-- The call goes on only with a record of the current head. -/
theorem getFreshnessHead_ok {disk : Disk} {sidecar : Sidecar Sha} {head : Option Sha}
    {record : FreshnessRecord Sha} (h : getFreshnessHead disk sidecar head = .ok record) :
    sidecar = .record record ∧ ∃ sha, record.gitHead = some sha ∧ head = some sha := by
  unfold getFreshnessHead at h
  split at h
  · simp at h
  split at h
  · simp at h
  cases hread : readSidecarRecord sidecar with
  | error report => simp [hread] at h
  | ok found =>
      rw [hread] at h
      dsimp only at h
      split at h
      · simp at h
      split at h
      · simp at h
      · simp at h
      · rename_i recordedHead currentHead hrecorded
        split at h
        · simp at h
        · rename_i hsame
          cases h
          exact ⟨readSidecarRecord_ok hread, recordedHead, hrecorded,
            congrArg some (not_not.mp hsame)⟩

theorem getFreshnessHead_error {disk : Disk} {sidecar : Sidecar Sha} {head : Option Sha}
    {report : FreshnessReport} (h : getFreshnessHead disk sidecar head = .error report) :
    report.state ≠ .fresh := by
  unfold getFreshnessHead at h
  split at h
  · cases h; simp
  split at h
  · cases h; simp
  cases hread : readSidecarRecord sidecar with
  | error found =>
      rw [hread] at h
      cases h
      exact readSidecarRecord_error hread
  | ok found =>
      rw [hread] at h
      dsimp only at h
      split at h
      · cases h; simp
      split at h
      · cases h; simp
      · cases h; simp
      · split at h
        · cases h; simp
        · simp at h

theorem getFreshness_fresh {disk : Disk} {sidecar : Sidecar Sha} {head : Option Sha}
    {status : Option Bool} (h : (getFreshness disk sidecar head status).state = .fresh) :
    status = some true ∧ ∃ sha, sidecar = .record ⟨some sha, some true⟩ ∧ head = some sha := by
  unfold getFreshness at h
  cases hhead : getFreshnessHead disk sidecar head with
  | error report =>
      rw [hhead] at h
      exact absurd h (getFreshnessHead_error hhead)
  | ok record =>
      rw [hhead] at h
      obtain ⟨hstatus, hclean⟩ := getFreshnessStatus_fresh.mp h
      obtain ⟨hsidecar, sha, hrecorded, hcurrent⟩ := getFreshnessHead_ok hhead
      refine ⟨hstatus, sha, ?_, hcurrent⟩
      rw [hsidecar, ← hrecorded, ← hclean]

theorem getFreshness_record (sha : Sha) :
    (getFreshness ⟨true, true, true⟩ (.record ⟨some sha, some true⟩) (some sha)
      (some true)).state = .fresh := by
  simp [getFreshness, getFreshnessHead, readSidecarRecord, getFreshnessStatus]

namespace Project

variable {tree : Sha → Contents Path Content} {s t : Project Sha Path Content}

/-! ## Honest states -/

omit [DecidableEq Sha] in
/-- In a clean tree the index matches when it holds the commit at `HEAD`. -/
theorem indexMatches_iff {sha : Sha} (hclean : s.work.clean tree = true)
    (hhead : s.work.head = some sha) : s.IndexMatches ↔ s.HoldsCommit tree sha := by
  have hcommitted : s.work.committed tree = tree sha := by
    simp only [WorkTree.committed, hhead]
  have htracked : ∀ path, s.work.Tracked path ↔ (tree sha).lookup path ≠ none := by
    intro path
    rw [WorkTree.Tracked, WorkTree.staged_of_clean hclean, hcommitted]
  constructor
  · intro h path hpath
    rw [h path ((htracked path).mpr hpath),
      WorkTree.files_of_clean hclean ((htracked path).mpr hpath), hcommitted]
  · intro h path hpath
    rw [h path ((htracked path).mp hpath), WorkTree.files_of_clean hclean hpath, hcommitted]

omit [DecidableEq Sha] in
/-- Without a commit a clean tree tracks nothing. -/
theorem indexMatches_of_unborn (hclean : s.work.clean tree = true) (hhead : s.work.head = none) :
    s.IndexMatches := by
  intro path htracked
  rw [WorkTree.Tracked, WorkTree.staged_of_clean hclean, WorkTree.committed, hhead] at htracked
  exact absurd rfl htracked

theorem honest_iff : Honest tree s ↔
    (∀ report, s.answer = some report → report.state = .fresh → s.IndexMatches) ∧
      (s.indexing = .idle → s.SidecarHolds tree) := by
  constructor
  · intro h
    refine ⟨h.answered, fun hidle sha hsidecar => ?_⟩
    have hclean : (s.work.move tree (.checkout sha)).clean tree = true := s.work.checkout_clean sha
    have hfresh := h.later hidle [.checkout sha] ⟨true, true, true⟩ true true
    dsimp only [WorkTree.moves, List.foldl, gitHead, gitStatus] at hfresh
    rw [if_pos rfl, if_pos rfl, hclean, hsidecar] at hfresh
    have hmatches := hfresh (getFreshness_record sha)
    exact (indexMatches_iff (s := { s with work := s.work.move tree (.checkout sha) }) hclean rfl).mp
      hmatches
  · intro ⟨hanswered, hholds⟩
    refine ⟨hanswered, fun hidle moves disk headAnswers statusAnswers => ?_⟩
    intro t hfresh
    obtain ⟨hstatus, sha, hsidecar, hhead⟩ := getFreshness_fresh hfresh
    have hclean : t.work.clean tree = true := by
      cases statusAnswers with
      | false => simp [gitStatus] at hstatus
      | true => simpa [gitStatus] using hstatus
    have hcurrent : t.work.head = some sha := by
      cases headAnswers with
      | false => simp [gitHead] at hhead
      | true => simpa [gitHead] using hhead
    exact (indexMatches_iff hclean hcurrent).mpr (hholds hidle sha hsidecar)

/-- A call between its questions has read the sidecar that is there. -/
def Inv (s : Project Sha Path Content) : Prop :=
  ∀ record, s.asking = some record →
    s.indexing = .idle ∧ s.sidecar = .record record ∧ record.gitHead ≠ none

omit [DecidableEq Sha] [DecidableEq Path] [DecidableEq Content] in
theorem inv_start (work : WorkTree Sha Path Content) : Inv (start work) := by
  intro record hasking
  simp [start] at hasking

omit [DecidableEq Sha] [DecidableEq Path] [DecidableEq Content] in
theorem inv_of_idle (hasking : t.asking = none) : Inv t := by
  intro record hrecord
  rw [hasking] at hrecord
  cases hrecord

omit [DecidableEq Sha] [DecidableEq Path] [DecidableEq Content] in
/-- An index run that is under way keeps calls out. -/
theorem Inv.asking_none (hi : Inv s) (hbusy : s.indexing ≠ .idle) : s.asking = none := by
  cases hasking : s.asking with
  | none => rfl
  | some record => exact absurd (hi record hasking).1 hbusy

theorem step_inv {event : Event Sha Path Content} (hi : Inv s)
    (hs : step tree s event = some t) : Inv t := by
  cases event with
  | move m =>
      cases hs
      exact hi
  | startIndex =>
      simp only [step, Option.ite_none_right_eq_some, Option.some.injEq] at hs
      obtain ⟨hfree, rfl⟩ := hs
      simp only [Bool.and_eq_true, Option.isNone_iff_eq_none] at hfree
      exact inv_of_idle hfree.2
  | readFile path =>
      simp only [step, Option.ite_none_right_eq_some, Option.some.injEq] at hs
      obtain ⟨hreading, rfl⟩ := hs
      exact inv_of_idle (hi.asking_none (by simp [hreading]))
  | recordHead stateDir inGitTree gitAnswers =>
      simp only [step, Option.ite_none_right_eq_some, Option.some.injEq] at hs
      obtain ⟨hreading, rfl⟩ := hs
      exact inv_of_idle (hi.asking_none (by simp [hreading]))
  | recordStatus gitAnswers written =>
      simp only [step] at hs
      split at hs
      · rename_i hrecording
        cases hs
        exact inv_of_idle (hi.asking_none (by simp [hrecording]))
      · cases hs
  | askHead disk gitAnswers =>
      simp only [step, Option.ite_none_right_eq_some] at hs
      obtain ⟨hfree, hs⟩ := hs
      simp only [Bool.and_eq_true, decide_eq_true_eq, Option.isNone_iff_eq_none] at hfree
      split at hs
      · cases hs
        exact inv_of_idle hfree.2
      · rename_i record hhead
        cases hs
        intro found hfound
        obtain rfl := Option.some.inj hfound
        obtain ⟨hsidecar, sha, hrecorded, _⟩ := getFreshnessHead_ok hhead
        exact ⟨hfree.1, hsidecar, by simp [hrecorded]⟩
  | askStatus gitAnswers =>
      simp only [step] at hs
      split at hs
      · cases hs
      · cases hs
        exact inv_of_idle rfl

/-- No answer is given and nothing it depends on changes. -/
theorem Honest.of_same (h : Honest tree s) (hanswer : t.answer = none)
    (hindexing : t.indexing = .idle → s.indexing = .idle) (hsidecar : t.sidecar = s.sidecar)
    (hindexed : t.indexed = s.indexed) : Honest tree t := by
  rw [honest_iff]
  refine ⟨by simp [hanswer], fun hidle sha hrecord path => ?_⟩
  rw [hindexed]
  exact (honest_iff.mp h).2 (hindexing hidle) sha (hsidecar ▸ hrecord) path

/-- While the index run goes on nothing is claimed. -/
theorem honest_of_busy (hanswer : t.answer = none) (hbusy : t.indexing ≠ .idle) :
    Honest tree t :=
  honest_iff.mpr ⟨by simp [hanswer], fun hidle => absurd hidle hbusy⟩

theorem honest_of_silent_iff (hanswer : t.answer = none) (hidle : t.indexing = .idle) :
    Honest tree t ↔ t.SidecarHolds tree := by
  rw [honest_iff]
  simp [hanswer, hidle]

theorem honest_of_answer_iff {record : Option (FreshnessRecord Sha)} {report : FreshnessReport}
    (ht : t = { s with asking := record, answer := some report }) (hholds : s.SidecarHolds tree) :
    Honest tree t ↔ (report.state = .fresh → s.IndexMatches) := by
  subst ht
  rw [honest_iff]
  constructor
  · intro h hfresh
    exact h.1 report rfl hfresh
  · intro h
    refine ⟨?_, fun _ => hholds⟩
    intro given hgiven hfresh
    obtain rfl := Option.some.inj hgiven
    exact h hfresh

theorem recordStatus_honest_iff {gitAnswers written : Bool}
    (hs : step tree s (.recordStatus gitAnswers written) = some t) :
    Honest tree t ↔ HonestGuard tree s (.recordStatus gitAnswers written) := by
  simp only [step] at hs
  split at hs
  · rename_i inGitTree head hrecording
    obtain rfl := Option.some.inj hs
    rw [honest_of_silent_iff rfl rfl]
    cases written with
    | false => exact Iff.rfl
    | true =>
        change (∀ sha, Sidecar.record (newRecord tree s inGitTree head gitAnswers) = _ → _) ↔
          ∀ sha, s.indexing = .recording true (some sha) → _
        rw [hrecording]
        cases inGitTree with
        | false => simp [newRecord]
        | true =>
            refine forall_congr' fun sha => ?_
            cases gitAnswers with
            | false => simp [newRecord, gitStatus]
            | true =>
                simp only [newRecord, gitStatus, if_true, Sidecar.record.injEq,
                  FreshnessRecord.mk.injEq, Option.some.injEq, Indexing.recording.injEq, true_and,
                  forall_const, and_imp]
                exact Iff.rfl
  · cases hs

theorem askStatus_honest_iff {gitAnswers : Bool} (hi : Inv s) (h : Honest tree s)
    (hs : step tree s (.askStatus gitAnswers) = some t) :
    Honest tree t ↔ HonestGuard tree s (.askStatus gitAnswers) := by
  simp only [step] at hs
  split at hs
  · cases hs
  · rename_i record hasking
    obtain rfl := Option.some.inj hs
    obtain ⟨hidle, hsidecar, hrecorded⟩ := hi record hasking
    obtain ⟨recordedHead, hrecorded⟩ := Option.ne_none_iff_exists'.mp hrecorded
    have hholds : s.SidecarHolds tree := (honest_iff.mp h).2 hidle
    rw [honest_of_answer_iff rfl hholds, getFreshnessStatus_fresh]
    constructor
    · intro hmatches hanswers hclean found sha hfound htracked _ hhead
      obtain rfl := Option.some.inj (hasking.symm.trans hfound)
      subst hanswers
      exact (indexMatches_iff hclean hhead).mp (hmatches ⟨congrArg some hclean, htracked⟩)
    · intro hguard ⟨hstatus, htracked⟩
      cases gitAnswers with
      | false => cases hstatus
      | true =>
          have hclean : s.work.clean tree = true := Option.some.inj hstatus
          cases hhead : s.work.head with
          | none => exact indexMatches_of_unborn hclean hhead
          | some sha =>
              apply (indexMatches_iff hclean hhead).mpr
              by_cases hsame : record.gitHead = s.work.head
              · apply hholds sha
                rw [hsidecar, ← hhead, ← hsame, ← htracked]
              · exact hguard rfl hclean record sha hasking htracked hsame hhead

theorem step_honest_iff {event : Event Sha Path Content} (hi : Inv s) (h : Honest tree s)
    (hs : step tree s event = some t) : Honest tree t ↔ HonestGuard tree s event := by
  cases event with
  | move m =>
      cases hs
      exact iff_of_true (h.of_same rfl id rfl rfl) trivial
  | startIndex =>
      simp only [step, Option.ite_none_right_eq_some, Option.some.injEq] at hs
      obtain ⟨-, rfl⟩ := hs
      exact iff_of_true (honest_of_busy rfl (by simp)) trivial
  | readFile path =>
      simp only [step, Option.ite_none_right_eq_some, Option.some.injEq] at hs
      obtain ⟨hreading, rfl⟩ := hs
      exact iff_of_true (honest_of_busy rfl (by simp [hreading])) trivial
  | recordHead stateDir inGitTree gitAnswers =>
      simp only [step, Option.ite_none_right_eq_some, Option.some.injEq] at hs
      obtain ⟨hreading, rfl⟩ := hs
      cases stateDir with
      | true => exact iff_of_true (honest_of_busy rfl (by simp)) (by simp [HonestGuard])
      | false =>
          rw [honest_of_silent_iff rfl rfl]
          exact ⟨fun hholds _ => hholds, fun hguard => hguard rfl⟩
  | recordStatus gitAnswers written => exact recordStatus_honest_iff hs
  | askHead disk gitAnswers =>
      simp only [step, Option.ite_none_right_eq_some] at hs
      obtain ⟨-, hs⟩ := hs
      split at hs
      · rename_i report hhead
        cases hs
        refine iff_of_true (honest_iff.mpr ⟨?_, (honest_iff.mp h).2⟩) trivial
        intro given hgiven hfresh
        obtain rfl := Option.some.inj hgiven
        exact absurd hfresh (getFreshnessHead_error hhead)
      · cases hs
        exact iff_of_true (h.of_same rfl id rfl rfl) trivial
  | askStatus gitAnswers => exact askStatus_honest_iff hi h hs

/-- From a project that was never indexed: `FRESH` is honest in every state of a run exactly
when every step meets the guard. -/
theorem always_honest_iff (tree : Sha → Contents Path Content) (work : WorkTree Sha Path Content)
    (events : List (Event Sha Path Content)) :
    (step tree).Always (Honest tree) (start work) events ↔
      (step tree).Guarded (HonestGuard tree) (start work) events := by
  apply Machine.always_iff_guarded (fun s event t hi _ hs => step_inv hi hs)
    (fun s event t hi h hs => step_honest_iff hi h hs) (inv_start work)
  rw [honest_iff]
  refine ⟨by simp [start], fun _ sha hsidecar => ?_⟩
  simp [start] at hsidecar

/-- `a.ts` is edited before the index reads it and reverted after. -/
def revertedEdit : List (Event Nat String String) :=
  [.startIndex, .move (.edit "a.ts" (some "edited")), .readFile "a.ts",
    .move (.edit "a.ts" (some "committed")), .recordHead true true true, .recordStatus true true,
    .askHead ⟨true, true, true⟩ true, .askStatus true]

/-- The revert makes the tree clean again under the same head. -/
theorem fresh_after_revertedEdit :
    ∃ t : Project Nat String String,
      (step fun _ => [("a.ts", "committed")]).run
          (start ⟨some 1, [("a.ts", "committed")], [("a.ts", "committed")]⟩) revertedEdit = some t ∧
        t.answer = some ⟨.fresh, "matches git HEAD with a clean tracked tree"⟩ ∧
        ¬ t.IndexMatches := by
  refine ⟨_, rfl, by decide, fun hmatches => ?_⟩
  have hread := hmatches "a.ts" (show _ ≠ none by decide)
  exact absurd hread (by decide)

end Project

end AfyxGraph.Freshness
